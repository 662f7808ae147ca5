import HotSpec.Proofs.Engine.Ended
import HotSpec.Proofs.Engine.Service

/-!
# Waits for several futures

A task that begins to wait for several futures waits until one of them has failed or all are settled,
cancels those that are open, waits for these, and goes on with the outcome of all: the first fault in
their order, if there is one.  It is stopped instead only if it was cancelled in the meantime.

Main definitions:

- `Machine.Joins`: the step by which a task begins to wait.
- `Machine.Cancels`, `Machine.CancelledTo`: a task that is cancelled by another one, at once or by and by.

Main results:

- Theorem `Runs.joining`: where a task is at until the wait is over.
- Theorem `Runs.joint`: what the task goes on with.
- Theorem `Runs.returns`: it does go on once all are settled.
-/

namespace HotSpec

namespace Machine

variable {m m' m₁ m₂ : Machine} {t u : TaskId} {head : Head} {stack : List Frame} {turn : Turn}
  {new : List (List Frame)} {w' : World} {members : List FutureId} {results : Bool} {o : Outcome}
  {parent : TaskId → TaskId} {hit : TaskId → Prop}

/-- The step by which a task begins to wait for several futures. -/
structure Joins (m : Machine) (t : TaskId) (members : List FutureId) (results : Bool)
    (stack : List Frame) (m' : Machine) : Prop where
  turn : m.current.map Prod.fst = some t
  step : m.step = some m'
  frames : m'.frames t = some (.joined members results :: stack)

/-- Whether the task that has its turn cancels a task: it leaves a wait for several futures, some of
which are open. -/
def Cancels (m : Machine) (u : TaskId) : Prop :=
  ∃ t o members results fs, m.current = some (t, .outcome o (.joined members results :: fs)) ∧
    ∃ i ∈ m.world.open? members, m.world.scheduler.Below i u

/-- Whether a task was cancelled on the way from a machine to a later one. -/
def CancelledTo (m m' : Machine) (u : TaskId) : Prop :=
  ∃ m₁ m₂, m.Steps m₁ ∧ m₁.Cancels u ∧ m₁.step = some m₂ ∧ m₂.Steps m'

theorem CancelledTo.trans (h : m.CancelledTo m₁ u) (hsteps : m₁.Steps m₂) : m.CancelledTo m₂ u := by
  obtain ⟨m₃, m₄, hbefore, hcancels, hstep, hafter⟩ := h
  exact ⟨m₃, m₄, hbefore, hcancels, hstep, hafter.trans hsteps⟩

/-- Who was cancelled after some steps was so on the whole way. -/
theorem CancelledTo.of_steps (h : m₁.CancelledTo m' u) (hsteps : m.Steps m₁) : m.CancelledTo m' u := by
  obtain ⟨m₃, m₄, hbefore, hcancels, hstep, hafter⟩ := h
  exact ⟨m₃, m₄, hsteps.trans hbefore, hcancels, hstep, hafter⟩

/-! ## The beginning -/

/-- A task begins to wait for several futures by running subs, or by loading the page. -/
theorem Moves.joins (h : m.Moves t head stack turn new w' m') (hkin : m.Kin parent)
    {fs : List Frame} (hfs : m'.frames t = some (.joined members results :: fs)) :
    (∃ p subs, head = .work (.together p subs)) ∨ ∃ first v, head = .frame (.reset first) (.value v) := by
  rw [h.frames_self] at hfs
  have hmem : .joined members results ∈ turn.frames :=
    hkin.mem_of_wait h (Option.some.inj hfs) rfl
  rcases h.rule.quiet_or_asks with ⟨-, -, hplain⟩ | hasks
  · cases hplain _ hmem
  · cases hasks with
    | together => exact .inl ⟨_, _, rfl⟩
    | opened => exact .inr ⟨_, _, rfl⟩
    | sleep => cases hmem
    | start | cancelled | hear | heard => simp [Turn.frames] at hmem

/-- A task that has its turn may be taken for one that was never hit, if it is at no wait. -/
theorem Spared.forget (h : m.Spared parent hit) (hunhurt : m.Unhurt) {c : Control}
    (hcurrent : m.current = some (t, c)) (hgiven : ∀ fs, c ≠ .outcome .stopped fs)
    (hrest : ∀ f ∈ c.frames, f.isWait = false) : m.Spared parent fun u => hit u ∧ u ≠ t := by
  have hcalm := hunhurt t c hcurrent
  have hfs := frames_current hcurrent
  have hother {f : Frame} {fs : List Frame} {u : TaskId} (hu : m.frames u = some (f :: fs))
      (hwait : f.isWait = true) : u ≠ t := by
    rintro rfl
    have heq := Option.some.inj (hfs.symm.trans hu)
    rw [hrest f (by rw [heq]; exact List.mem_cons_self ..)] at hwait
    cases hwait
  refine ⟨h.toKin, ?_, ?_, ?_, ?_, ?_, ?_, h.value⟩
  · refine ⟨?_, ?_, ?_, ?_⟩
    · exact fun u f hk ho => ⟨h.calm.ended u f hk ho, hcalm.ended u f hk ho⟩
    · exact fun u hu => ⟨h.calm.stopping u hu, hcalm.stopping u hu⟩
    · exact fun u f hwait ho => ⟨h.calm.awaited u f hwait ho, hcalm.awaited u f hwait ho⟩
    · exact fun u f members left hwait hk =>
        ⟨h.calm.group u f members left hwait hk, hcalm.group u f members left hwait hk⟩
  · exact fun u hu => h.known u hu.1
  · exact fun hzero => h.root hzero.1
  · intro u fs hu
    cases hcurrent.symm.trans hu
    exact absurd rfl (hgiven fs)
  · intro u fs hu f hf
    by_cases hut : u = t
    · subst hut
      cases hfs.symm.trans hu
      exact Frame.tells_of_not_wait (hrest f hf)
    · exact (h.tells u fs hu f hf).mono (Scheduler.Grows.refl _).toExtends fun hhit => ⟨hhit, hut⟩
  · intro u members results fs hu i hi v hk hv
    exact ⟨h.members u members results fs hu i hi v hk hv.1, hother hu rfl⟩

/-! ## Until the wait is over -/

/-- A task that has its turn at a wait is given an outcome. -/
theorem Moves.of_wait (h : m.Moves t head stack turn new w' m') {f : Frame} {fs : List Frame}
    (hfs : m.frames t = some (f :: fs)) (hwait : f.isWait = true) :
    ∃ o, head = .frame f o ∧ stack = fs :=
  h.frame_eq hfs (by rintro work rfl; cases hwait)

/-- Where a task is at that waits for several futures: it waits for the first fault among them, or for
those that were open and are cancelled, or the wait is over. -/
inductive Joining (m : Machine) (t : TaskId) (members : List FutureId) (results : Bool)
    (stack : List Frame) : Prop
  | joined (h : m.frames t = some (.joined members results :: stack))
  | collected {waited : Outcome} (h : m.frames t = some (.collected members results waited :: stack))
      (hwaited : waited.isFault = false)
  | done {o : Outcome} (h : m.current = some (t, .outcome o stack))

/-- The task stays at the wait until it is over. -/
theorem Joining.step (h : m.Joining t members results stack) (hm : m.Sound)
    (hgiven : ∀ o, m.current = some (t, .outcome o (.joined members results :: stack)) →
      o.isFault = false) (hstep : m.step = some m') (hnot : ¬m.Resumes t stack) :
    m'.Joining t members results stack := by
  have hother {fs : List Frame} {u : TaskId} {head : Head} {below : List Frame} {turn : Turn}
      {new : List (List Frame)} {w' : World} (hmoves : m.Moves u head below turn new w' m')
      (hut : t ≠ u) (hfs : m.frames t = some fs) : m'.frames t = some fs := by
    rw [hmoves.frames_of_ne hut (hm.lt_of_frames hfs)]
    exact hfs
  cases h with
  | done h => exact absurd ⟨_, h, rfl⟩ hnot
  | joined hfs =>
      rcases hm.moves_or_rests hstep with ⟨u, head, below, turn, new, w', hmoves⟩ | hrests
      · by_cases hut : t = u
        · subst hut
          obtain ⟨o, rfl, rfl⟩ := hmoves.of_wait hfs rfl
          rcases hmoves.rule.of_joined with ⟨-, f, rfl⟩ | ⟨-, -, rfl⟩
          · refine Joining.collected ?_ (hgiven o hmoves.current)
            rw [hmoves.frames_self]
            rfl
          · exact .done hmoves.next
        · exact .joined (hother hmoves hut hfs)
      · exact .joined ((hrests.frames t).trans hfs)
  | collected hfs hwaited =>
      rcases hm.moves_or_rests hstep with ⟨u, head, below, turn, new, w', hmoves⟩ | hrests
      · by_cases hut : t = u
        · subst hut
          obtain ⟨o, rfl, rfl⟩ := hmoves.of_wait hfs rfl
          obtain ⟨-, rfl⟩ := hmoves.rule.of_collected
          exact .done hmoves.next
        · exact .collected (hother hmoves hut hfs) hwaited
      · exact .collected ((hrests.frames t).trans hfs) hwaited

end Machine

/-- After an outcome that is no fault either the next one counts, or work was stopped. -/
theorem Outcome.andThen_of_not_fault {o : Outcome} (h : o.isFault = false) (o' : Outcome) :
    o.andThen o' = o' ∨ o.andThen o' = .stopped := by
  cases o with
  | value v => exact .inl rfl
  | stopped => exact .inr rfl
  | fault f => cases h

/-! ## Runs -/

namespace World

open Machine

variable {w : World} {work : Work} {m m' m₁ : Machine} {t : TaskId} {stack : List Frame}
  {members : List FutureId} {results : Bool} {o : Outcome} {parent : TaskId → TaskId}
  {hit : TaskId → Prop}

/-- A wait for the first fault among several futures does not fail itself. -/
theorem Runs.given (h : w.Runs work m)
    (hcurrent : m.current = some (t, .outcome o (.joined members results :: stack))) :
    o.isFault = false := by
  rcases h.cases_last with rfl | ⟨m₀, hm₀, hstep⟩
  · cases hcurrent
  · obtain ⟨parent, hit, hspared⟩ := hm₀.spared
    rcases hm₀.sound.moves_or_rests hstep with ⟨u, head, below, turn, new, w', hmoves⟩ | hrests
    · have hnext := hmoves.next.symm.trans hcurrent
      cases turn with
      | give o' =>
          cases hnext
          cases hspared.inner t _ _ hmoves.before _ (List.mem_cons_self ..)
      | _ => cases hnext
    · have hfs : m₀.frames t = some (.joined members results :: stack) :=
        (hrests.frames t).symm.trans (frames_current hcurrent)
      have hidle := (hrests.current t _ hcurrent).1
      obtain ⟨g, hg, hform⟩ := hspared.joined t members results stack hfs (by rw [hidle]; simp)
      rcases hrests.given t o _ hcurrent with ⟨rfl, -⟩ | ⟨rfl, -⟩ | ⟨g', hg', ho⟩
      · rfl
      · rfl
      · cases hg.symm.trans hg'
        have hdecided := hm₀.sound.groups.decided g o ho
        unfold Scheduler.Decided at hdecided
        rw [hform] at hdecided
        exact hdecided.1

/-- A task stays at a wait for several futures until it is over. -/
theorem Runs.joining (h : w.Runs work m) (hjoining : m.Joining t members results stack)
    (hduring : During t stack m m') : m'.Joining t members results stack := by
  induction hduring with
  | refl => exact hjoining
  | @tail m₁ m₂ hfirst hlast ih =>
      have hm₁ := h.trans (During.steps hfirst)
      exact ih.step hm₁.sound (fun o hcurrent => hm₁.given hcurrent) hlast.1 hlast.2.2

/-- Of the tasks that were not hit, only those come to be hit that are cancelled. -/
theorem Runs.hit_since (h : w.Runs work m) (hspared : m.Spared parent hit) (hnot : ¬hit t)
    (hsteps : m.Steps m') :
    ∃ parent' hit', m'.Spared parent' hit' ∧ (hit' t → m.CancelledTo m' t) := by
  induction hsteps with
  | refl => exact ⟨parent, hit, hspared, fun hhit => absurd hhit hnot⟩
  | @tail m₁ m₂ hfirst hlast ih =>
      obtain ⟨parent₁, hit₁, hspared₁, hcancelled₁⟩ := ih
      have hm₁ := h.trans hfirst
      rcases hm₁.sound.moves_or_rests hlast with ⟨u, head, below, turn, new, w', hmoves⟩ | hrests
      · obtain ⟨hit₂, hspared₂, hhit₂⟩ := hspared₁.moves hm₁.sound hmoves
        refine ⟨_, hit₂, hspared₂, fun hhit => ?_⟩
        rcases hhit₂ t hhit with hhit | ⟨members, results, o, rfl, hbelow⟩
        · exact (hcancelled₁ hhit).trans (.single hlast)
        · exact ⟨m₁, m₂, hfirst, ⟨u, o, members, results, below, hmoves.current, hbelow⟩, hlast,
            .refl m₂⟩
      · exact ⟨parent₁, hit₁, hspared₁.rests hm₁.sound hrests,
          fun hhit => (hcancelled₁ hhit).trans (.single hlast)⟩

/-- A task that begins to wait for several futures may be taken for one that was never hit. -/
theorem Runs.unhit (h : w.Runs work m) (hjoins : m.Joins t members results stack m₁) :
    ∃ parent hit, m.Spared parent hit ∧ ¬hit t := by
  obtain ⟨parent, hit, hspared⟩ := h.spared
  obtain ⟨⟨u, c⟩, hcurrent, rfl⟩ := Option.map_eq_some_iff.mp hjoins.turn
  rcases h.sound.moves_or_rests hjoins.step with ⟨v, head, below, turn, new, w', hmoves⟩ | hrests
  · cases hcurrent.symm.trans hmoves.current
    have hinner := hspared.inner u _ _ hmoves.before
    have hrest (hfirst : head.first.isWait = false) :
        ∀ f ∈ (head.control below).frames, f.isWait = false := by
      rw [Head.frames_control]
      intro f hf
      rcases List.mem_cons.mp hf with rfl | hf
      · exact hfirst
      · exact hinner f hf
    refine ⟨parent, _, hspared.forget h.unhurt hcurrent ?_ (hrest ?_), fun hhit => hhit.2 rfl⟩
    · intro fs
      rcases hmoves.joins hspared.toKin hjoins.frames with ⟨p, subs, rfl⟩ | ⟨first, v, rfl⟩ <;>
        simp [Head.control]
    · rcases hmoves.joins hspared.toKin hjoins.frames with ⟨p, subs, rfl⟩ | ⟨first, v, rfl⟩ <;> rfl
  · have hfs := (hrests.frames u).symm.trans hjoins.frames
    rcases hrests.before with hidle | ⟨t', o, hsome⟩
    · cases hidle.symm.trans hcurrent
    · cases hsome.symm.trans hcurrent
      cases (frames_current hsome).symm.trans hfs

/-- The last step of a wait for several futures is made by the task itself. -/
theorem Runs.last_step (h : w.Runs work m) (hjoining : m.Joining t members results stack)
    (hduring : During t stack m m') (hne : m' ≠ m) (hdone : m'.current = some (t, .outcome o stack)) :
    ∃ m₂ f o₂ new, During t stack m m₂ ∧ m₂.step = some m' ∧
      m₂.Moves t (.frame f o₂) stack (.give o) new m'.world m' ∧
      (f = .joined members results ∨
        ∃ waited, f = .collected members results waited ∧ waited.isFault = false) := by
  rcases hduring.cases_tail with heq | ⟨m₂, hbefore, hstep, -, hnot⟩
  · exact absurd heq hne
  have hm₂ := h.trans (During.steps hbefore)
  have hlonger (f : Frame) : m'.frames t ≠ some (f :: stack) := by
    intro hfs
    exact List.cons_ne_self _ _ (Option.some.inj (hfs.symm.trans (frames_current hdone)))
  have hlast {f : Frame} (hfs : m₂.frames t = some (f :: stack)) (hwait : f.isWait = true) :
      ∃ o₂ new, m₂.Moves t (.frame f o₂) stack (.give o) new m'.world m' := by
    rcases hm₂.sound.moves_or_rests hstep with ⟨u, head, below, turn, new, w', hmoves⟩ | hrests
    · by_cases hut : t = u
      · subst hut
        obtain ⟨o₂, rfl, rfl⟩ := hmoves.of_wait hfs hwait
        have hnext := hmoves.next.symm.trans hdone
        cases turn <;> cases hnext
        have hworld : m'.world = w' := by
          rw [hmoves.follows]
          rfl
        rw [hworld]
        exact ⟨o₂, new, hmoves⟩
      · have hsame := hmoves.frames t
        rw [if_neg hut, if_pos (hm₂.sound.lt_of_frames hfs), hfs] at hsame
        exact absurd hsame (hlonger f)
    · exact absurd ((hrests.frames t).trans hfs) (hlonger f)
  rcases h.joining hjoining hbefore with hfs | ⟨hfs, hwaited⟩ | hover
  · obtain ⟨o₂, new, hmoves⟩ := hlast hfs rfl
    exact ⟨m₂, _, o₂, new, hbefore, hstep, hmoves, .inl rfl⟩
  · obtain ⟨o₂, new, hmoves⟩ := hlast hfs rfl
    exact ⟨m₂, _, o₂, new, hbefore, hstep, hmoves, .inr ⟨_, rfl, hwaited⟩⟩
  · exact absurd ⟨_, hover, rfl⟩ hnot

/-- A wait for several futures is over once all are settled.  The task goes on with the outcome of all
of them, unless it was cancelled since the wait began: then it is stopped. -/
theorem Runs.joint (h : w.Runs work m) (hjoins : m.Joins t members results stack m₁)
    (hduring : During t stack m₁ m') (hdone : m'.current = some (t, .outcome o stack)) :
    (∀ i ∈ members, m'.world.scheduler.outcome? i ≠ none) ∧
      (o = m'.world.jointOutcome members results ∨ o = .stopped) ∧
      (o = .stopped → m.CancelledTo m' t) := by
  have hm₁ := h.trans (.single hjoins.step)
  have hne : m' ≠ m₁ := by
    rintro rfl
    exact List.cons_ne_self _ _
      (Option.some.inj (hjoins.frames.symm.trans (frames_current hdone)))
  obtain ⟨m₂, f, o₂, new, hbefore, hstep, hmoves, hf⟩ :=
    hm₁.last_step (.joined hjoins.frames) hduring hne hdone
  have hsteps₂ : m.Steps m₂ := (Steps.single hjoins.step).trans hbefore.steps
  have hm₂ := h.trans hsteps₂
  have hstopped : o = .stopped → m.CancelledTo m' t := by
    rintro rfl
    obtain ⟨parent, hit, hspared, hhit⟩ := h.unhit hjoins
    obtain ⟨parent₂, hit₂, hspared₂, hcancelled⟩ := h.hit_since hspared hhit hsteps₂
    exact (hcancelled (hspared₂.stopped_of_rule hmoves)).trans (.single hstep)
  have hrule := hmoves.rule
  rcases hf with rfl | ⟨waited, rfl, hwaited⟩
  · rcases hrule.of_joined with ⟨-, f, hturn⟩ | ⟨hall, hworld, hturn⟩
    · cases hturn
    · cases hturn
      refine ⟨fun i hi hopen => ?_, ?_, hstopped⟩
      · rw [hworld] at hopen
        have hmem : i ∈ m₂.world.open? members := mem_open?.mpr ⟨hi, hopen⟩
        rw [hall] at hmem
        cases hmem
      · rw [hworld]
        exact Outcome.andThen_of_not_fault (hm₂.given hmoves.current) _
  · obtain ⟨hworld, hturn⟩ := hrule.of_collected
    cases hturn
    obtain ⟨hfault, hall⟩ := hm₂.gathers.collected t o₂ members results _ stack hmoves.current
    rw [hworld]
    refine ⟨hall, ?_, hworld ▸ hstopped⟩
    rcases Outcome.andThen_of_not_fault hfault _ with heq | heq <;> rw [heq]
    · exact Outcome.andThen_of_not_fault hwaited _
    · exact .inr rfl

/-! ### The end of the wait -/

/-- A task that waits for several futures watches some of them. -/
theorem Runs.parked (h : w.Runs work m) {f : Frame} {fs : List Frame}
    (hfs : m.frames t = some (f :: fs)) (hne : f.gathered ≠ [])
    (hnot : m.current.map Prod.fst ≠ some t) :
    ∃ g, m.Parked t g (f :: fs) ∧ (m.world.scheduler.kind g).isGroup = true ∧
      (m.world.scheduler.kind g).members ⊆ f.gathered := by
  cases f with
  | joined members results =>
      obtain ⟨parent, hit, hspared⟩ := h.spared
      obtain ⟨g, hg, hform⟩ := hspared.joined t members results fs hfs hnot
      refine ⟨g, ⟨hfs, hg⟩, ?_, ?_⟩
      · cases hk : m.world.scheduler.kind g <;> rw [hk] at hform <;> first | rfl | cases hform
      · rw [← FutureKind.members_form, hform]
        exact List.Subset.refl members
  | collected members results waited =>
      obtain ⟨g, cancelled, hg, hform, hsub, -⟩ :=
        h.gathers.collects t members results waited fs hfs hnot
      refine ⟨g, ⟨hfs, hg⟩, ?_, ?_⟩
      · cases hk : m.world.scheduler.kind g <;> rw [hk] at hform <;> first | rfl | cases hform
      · rw [← FutureKind.members_form, hform]
        exact hsub
  | _ => exact absurd rfl hne

/-- A task that waits for several futures has its turn once these are settled. -/
theorem Runs.gets_turn (h : w.Runs work m)
    (hends : ∀ m', m.Steps m' → m'.Leads fun m => m.current = none) {f : Frame} {fs : List Frame}
    (hfs : m.frames t = some (f :: fs)) (hne : f.gathered ≠ [])
    (hsettled : ∀ i ∈ f.gathered, m.world.scheduler.outcome? i ≠ none) :
    ∃ m' o, m.Steps m' ∧ m'.current = some (t, .outcome o (f :: fs)) := by
  by_cases hcurrent : m.current.map Prod.fst = some t
  · obtain ⟨⟨u, c⟩, hc, rfl⟩ := Option.map_eq_some_iff.mp hcurrent
    have hframes := Option.some.inj ((frames_current hc).symm.trans hfs)
    cases c with
    | work work below =>
        obtain ⟨rfl, -⟩ := List.cons.inj hframes
        exact absurd rfl hne
    | outcome o below =>
        change below = f :: fs at hframes
        exact ⟨m, o, .refl m, hframes ▸ hc⟩
  · obtain ⟨g, hparked, hgroup, -⟩ := h.parked hfs hne hcurrent
    have hbrief : Brief fun m' => m.Steps m' :=
      ⟨fun _ hsteps => (h.trans hsteps).sound, fun _ hsteps => (h.trans hsteps).prompt,
        fun _ _ hsteps hstep => hsteps.trans (.single hstep), hends⟩
    obtain ⟨m', hsteps, -, o, hturn⟩ := hbrief.turn (.refl m) hparked hgroup <| by
      intro m₁ hsteps hparked₁ hopen
      have hm₁ := h.trans hsteps
      have hnot : m₁.current.map Prod.fst ≠ some t := by
        intro hcurrent₁
        obtain ⟨⟨u, c⟩, hc, rfl⟩ := Option.map_eq_some_iff.mp hcurrent₁
        cases hparked₁.awaits.symm.trans ((hm₁.sound.threads_current hc).busy _ rfl).1
      obtain ⟨g', hparked', hgroup', hsub⟩ := hm₁.parked hparked₁.frames hne hnot
      cases hparked₁.awaits.symm.trans hparked'.awaits
      obtain ⟨more, hgrows⟩ := hsteps.grows h.sound
      exact hm₁.prompt.news_of_settled hm₁.sound hgroup' hopen fun i hi =>
        hgrows.still (hsettled i (hsub hi))
    exact ⟨m', o, hsteps, hturn⟩

/-- Then it goes on with an outcome. -/
theorem Runs.goes_on (h : w.Runs work m) {f : Frame} {fs : List Frame}
    (hcurrent : m.current = some (t, .outcome o (f :: fs))) (hne : f.gathered ≠ [])
    (hsettled : ∀ i ∈ f.gathered, m.world.scheduler.outcome? i ≠ none) :
    ∃ m' o', m.step = some m' ∧ m'.current = some (t, .outcome o' fs) := by
  obtain ⟨m', hstep⟩ := exists_step hcurrent
  rcases h.sound.moves_or_rests hstep with ⟨u, head, below, turn, new, w', hmoves⟩ | hrests
  swap
  · exact absurd hcurrent hrests.not_frame
  obtain ⟨rfl, rfl, rfl⟩ := hmoves.head_eq hcurrent
  cases f with
  | joined members results =>
      rcases hmoves.rule.of_joined with ⟨hopen, -⟩ | ⟨-, -, rfl⟩
      · obtain ⟨i, hi⟩ := List.exists_mem_of_ne_nil _ hopen
        obtain ⟨hmem, hnone⟩ := mem_open?.mp hi
        exact absurd hnone (hsettled i hmem)
      · exact ⟨m', _, hstep, hmoves.next⟩
  | collected members results waited =>
      obtain ⟨-, rfl⟩ := hmoves.rule.of_collected
      exact ⟨m', _, hstep, hmoves.next⟩
  | _ => exact absurd rfl hne

/-- A wait for several futures comes to its end once all are settled, as long as the turns that begin
meanwhile do. -/
theorem Runs.returns (h : w.Runs work m) (hjoins : m.Joins t members results stack m₁)
    (hne : members ≠ []) (hduring : During t stack m₁ m')
    (hsettled : ∀ i ∈ members, m'.world.scheduler.outcome? i ≠ none)
    (hends : ∀ m'', m'.Steps m'' → m''.Leads fun m => m.current = none) :
    ∃ m'' o, During t stack m' m'' ∧ m''.current = some (t, .outcome o stack) := by
  have hm₁ := h.trans (.single hjoins.step)
  have hm' := hm₁.trans hduring.steps
  have hover {m₂ : Machine} (hafter : During t stack m' m₂) (hresumes : m₂.Resumes t stack) :
      ∃ o, m₂.current = some (t, .outcome o stack) := by
    obtain ⟨c, hc, hframes⟩ := hresumes
    have hfs := frames_current hc
    rw [hframes] at hfs
    rcases hm₁.joining (.joined hjoins.frames) (hduring.trans hafter) with hfs' | ⟨hfs', -⟩ | hdone
    · exact absurd (Option.some.inj (hfs'.symm.trans hfs)) (List.cons_ne_self _ _)
    · exact absurd (Option.some.inj (hfs'.symm.trans hfs)) (List.cons_ne_self _ _)
    · exact ⟨_, hdone⟩
  have hwaits {f : Frame} (hfs : m'.frames t = some (f :: stack)) (hgathered : f.gathered = members) :
      ∃ m'' o, During t stack m' m'' ∧ m''.current = some (t, .outcome o stack) := by
    rw [← hgathered] at hne hsettled
    obtain ⟨m₂, o, hsteps, hcurrent⟩ := hm'.gets_turn hends hfs hne hsettled
    obtain ⟨more, hgrows⟩ := hsteps.grows hm'.sound
    obtain ⟨m₃, o', hstep, hdone⟩ := (hm'.trans hsteps).goes_on hcurrent hne fun i hi =>
      hgrows.still (hsettled i hi)
    rcases (hsteps.trans (.single hstep)).during [f] hm'.sound hfs with
      hafter | ⟨m₄, hafter, hresumes, -⟩
    · exact ⟨m₃, o', hafter, hdone⟩
    · obtain ⟨o, hdone⟩ := hover hafter hresumes
      exact ⟨m₄, o, hafter, hdone⟩
  rcases hm₁.joining (.joined hjoins.frames) hduring with hfs | ⟨hfs, -⟩ | hdone
  · exact hwaits hfs rfl
  · exact hwaits hfs rfl
  · exact ⟨m', _, .refl, hdone⟩

end World

end HotSpec
