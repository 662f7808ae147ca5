import HotSpec.Proofs.Engine.FirstFault
import HotSpec.Proofs.Engine.Heirs

/-!
# Subs that run at the same time

Each sub of a list runs as a task of its own, and these tasks begin in the order of the list.  Whatever
the order in which they end, their values stand in the order of the list.  Once the list is left, be it
with a value, with a fault, or because it was cancelled, nothing that it has started goes on.

Main definitions:

- `Value.subs?`: the subs that a sub stands for.
- `Machine.nextTask`: the tasks that are the next to begin.
- `Machine.Launches`: the step by which subs begin.
- `Machine.Together`: what subs that run at the same time come to.

Main results:

- Theorem `Sound.launches`: subs begin as tasks of their own, which are waited for in their order.
- Theorem `subs_together`: what subs come to that run at the same time.
-/

namespace HotSpec

/-- The subs that a sub stands for, if it stands for several. -/
def Value.subs? : Value → Option (List Value)
  | .list subs | .tuple subs => some subs
  | .mixture strings values => some [.list (strings.map .text), .list values]
  | _ => none

theorem Frame.gathered_of_not_wait {f : Frame} (h : f.isWait = false) : f.gathered = [] := by
  cases f <;> first | rfl | cases h

/-! ## Results in their order -/

/-- The outcome of several futures none of which has failed: one of them was stopped, or it is the list
of their values. -/
theorem Move.outcomeOf_of_no_fault {outcomes : List Outcome} (h : ∀ o ∈ outcomes, o.isFault = false) :
    Move.outcomeOf true outcomes = .stopped ∨
      ∃ vs, Move.outcomeOf true outcomes = .value (.list vs) ∧ outcomes = vs.map .value := by
  have hnone : outcomes.find? Outcome.isFault = none := List.find?_eq_none.mpr (by simpa using h)
  unfold Move.outcomeOf
  rw [hnone]
  by_cases hstopped : outcomes.any Outcome.isStopped = true
  · exact .inl (by simp [hstopped])
  · refine .inr ⟨_, by simp only [hstopped]; rfl, ?_⟩
    have hvalue : ∀ o ∈ outcomes, ∃ v, o = .value v := by
      intro o ho
      cases o with
      | value v => exact ⟨v, rfl⟩
      | fault f => cases h _ ho
      | stopped => exact absurd (List.any_eq_true.mpr ⟨_, ho, rfl⟩) hstopped
    clear h hnone hstopped
    induction outcomes with
    | nil => rfl
    | cons o outcomes ih =>
        obtain ⟨v, rfl⟩ := hvalue o (List.mem_cons_self ..)
        exact congrArg (.value v :: ·) (ih fun o ho => hvalue o (List.mem_cons_of_mem _ ho))

/-- Several settled futures have their outcomes in their order. -/
theorem Scheduler.map_outcome? {Stack Job : Type} {s : Scheduler Stack Job} {members : List FutureId}
    (hsettled : ∀ i ∈ members, s.outcome? i ≠ none) :
    members.map s.outcome? = (members.filterMap s.outcome?).map some := by
  induction members with
  | nil => rfl
  | cons i members ih =>
      obtain ⟨o, ho⟩ := Option.ne_none_iff_exists'.mp (hsettled i (List.mem_cons_self ..))
      rw [List.map_cons, List.filterMap_cons, ho, ih fun j hj => hsettled j (List.mem_cons_of_mem _ hj)]
      rfl

/-- Subs begin as the tasks that come next, in their order. -/
theorem World.kind_spawnAll {w w' : World} {t : TaskId} {p : Processor} {subs : List Value}
    (hs : w.scheduler.Threads (some t)) (hg : w.scheduler.Groups) {fs : List FutureId}
    (h : (Move.spawnAll p subs).run w = (fs, w')) (k i : Nat) (hk : fs[k]? = some i) :
    w'.scheduler.kind i = .task (w.scheduler.tasks.length + k) := by
  induction subs generalizing w fs k with
  | nil =>
      cases h
      cases hk
  | cons sub subs ih =>
      rw [World.spawnAll_cons] at h
      generalize hw₁ : (w.withScheduler fun s => (s.spawn [.begin (.sub p sub)]).2) = w₁ at h
      rcases hrest : (Move.spawnAll p subs).run w₁ with ⟨fs', w₂⟩
      rw [hrest] at h
      cases h
      have hs₁ : w₁.scheduler.Threads (some t) := by
        rw [← hw₁]
        exact hs.spawn _
      have hg₁ : w₁.scheduler.Groups := by
        rw [← hw₁]
        exact hg.spawn _
      cases k with
      | zero =>
          cases hk
          obtain ⟨-, -, hgrows, -⟩ := w₁.spawnAll_spec p subs hs₁ hg₁ hrest
          refine hgrows.task ?_
          rw [← hw₁]
          exact (Scheduler.kind_newTask [.begin (.sub p sub)] _).trans (if_pos rfl)
      | succ k =>
          have hlength : w₁.scheduler.tasks.length = w.scheduler.tasks.length + 1 := by
            rw [← hw₁]
            exact (Scheduler.Grows.spawn w.scheduler [.begin (.sub p sub)]).tasks
          rw [ih hs₁ hg₁ hrest k hk, hlength, Nat.add_assoc, Nat.add_comm 1]

namespace Machine

variable {m m₁ m₂ m' : Machine} {t : TaskId} {p : Processor} {v : Value} {subs : List Value}
  {stack : List Frame} {members : List FutureId} {o : Outcome}

/-- The tasks that are the next to begin. -/
def nextTask (m : Machine) (k : Nat) : TaskId := m.world.scheduler.tasks.length + k

/-! ## The beginning -/

/-- The step by which subs begin as tasks of their own, which are waited for in the order of the subs. -/
structure Launches (m : Machine) (t : TaskId) (p : Processor) (subs : List Value) (stack : List Frame)
    (members : List FutureId) (m' : Machine) : Prop extends m.Joins t members true stack m' where
  length : members.length = subs.length
  kinds : ∀ k i, members[k]? = some i → m'.world.scheduler.kind i = .task (m.nextTask k)
  begins : ∀ k sub, subs[k]? = some sub → m'.frames (m.nextTask k) = some [.begin (.sub p sub)]

theorem Launches.exists_member (h : m.Launches t p subs stack members m') {k : Nat}
    (hk : k < subs.length) : ∃ i, members[k]? = some i ∧ i ∈ members :=
  ⟨_, List.getElem?_eq_getElem (h.length ▸ hk), List.getElem_mem _⟩

theorem Launches.exists_place (h : m.Launches t p subs stack members m') {i : FutureId}
    (hi : i ∈ members) : ∃ k < subs.length, members[k]? = some i := by
  obtain ⟨k, hk⟩ := List.mem_iff_getElem?.mp hi
  exact ⟨k, h.length ▸ (List.getElem?_eq_some_iff.mp hk).1, hk⟩

/-- A sub that stands for several runs them at the same time. -/
theorem step_subs (hcurrent : m.current = some (t, .work (.sub p v) stack)) (hsubs : v.subs? = some subs) :
    m.step = some ⟨m.world, some (t, .work (.together p subs) stack)⟩ := by
  obtain ⟨w, current⟩ := m
  cases hcurrent
  cases v with
  | list | tuple | mixture =>
      cases hsubs
      rfl
  | _ => cases hsubs

/-- Whoever runs subs at the same time begins so, if there are any. -/
theorem Sound.launches (hm : m.Sound) (hcurrent : m.current = some (t, .work (.together p subs) stack))
    (hne : subs ≠ []) (hstep : m.step = some m') :
    ∃ members, m.Launches t p subs stack members m' := by
  rcases hrun : (Move.spawnAll p subs).run m.world with ⟨fs, w₁⟩
  have htogether : (Work.run (.together p subs)).run m.world =
      (.await (w₁.scheduler.firstFault fs).1 [.joined fs true],
        w₁.withScheduler fun s => (s.firstFault fs).2) := by
    have hisEmpty : ¬subs.isEmpty = true := by simpa using hne
    change (Move.together p subs).run m.world = _
    unfold Move.together
    rw [if_neg hisEmpty]
    change (Move.join ((Move.spawnAll p subs).run m.world).1 true []).run
      ((Move.spawnAll p subs).run m.world).2 = _
    rw [hrun]
    rfl
  have hhead : m.current = some (t, (Head.work (.together p subs)).control stack) := hcurrent
  obtain ⟨new, hmoves⟩ := hm.moves_of_head hstep hhead
  have hnew := hmoves.spawns
  rw [show (Head.run (.work (.together p subs))).run m.world = _ from htogether] at hmoves
  have hthreads := hm.threads_current hcurrent
  have hlength := (World.proceeds_spawnAll hrun).2
  have hkinds (k i : Nat) (hk : fs[k]? = some i) : m'.world.scheduler.kind i = .task (m.nextTask k) := by
    have hkind := World.kind_spawnAll hthreads hm.groups hrun k i hk
    rw [hmoves.kind]
    have hold : i ≠ w₁.scheduler.futures.length :=
      Nat.ne_of_lt (Scheduler.lt_of_kind (by rw [hkind]; simp))
    exact ((Scheduler.kind_gather _ fs i).trans (if_neg hold)).trans hkind
  refine ⟨fs, ⟨by rw [hcurrent]; rfl, hstep, ?_⟩, hlength, hkinds, ?_⟩
  · rw [hmoves.frames_self]
    rfl
  · intro k sub hk
    have hle : m.world.scheduler.tasks.length ≤ m.nextTask k := Nat.le_add_right _ _
    cases hnew with
    | none =>
        -- The subs do have tasks, so some have begun.
        have hlt' : k < fs.length := hlength ▸ (List.getElem?_eq_some_iff.mp hk).1
        have hstarted := (hm.step hstep).threads.lt_of_ending (hkinds k _ (List.getElem?_eq_getElem hlt'))
        rw [hmoves.grows.tasks] at hstarted
        exact absurd hle (Nat.not_le.mpr hstarted)
    | subs =>
        rw [hmoves.frames, if_neg (Nat.ne_of_gt (Nat.lt_of_lt_of_le (hmoves.lt hm) hle)),
          if_neg (Nat.not_lt.mpr hle), nextTask, Nat.add_sub_cancel_left, List.getElem?_map, hk]
        rfl

/-! ## The end -/

/-- The heirs of a task have ended once it has come down to the frames that it was in front of, and none
of them has a turn from then on. -/
theorem Tidy.quiet (h : m.Tidy) {f : Frame} (hfs : m.frames t = some (f :: stack))
    (hcourse : m.Course m') (hdone : m'.current = some (t, .outcome o stack)) {u : TaskId}
    (hu : m.Heir m' t u) :
    m'.endOf u ≠ none ∧ ∀ m'', m'.Course m'' → m''.current.map Prod.fst ≠ some u := by
  obtain ⟨parent, hkin⟩ := h.kin
  have hended := h.heirs_ended hcourse (t := t) ?_ hu
  · exact ⟨hended, fun m'' hlater => hlater.never_current (hcourse.tidy h) hended⟩
  · intro f' fs hfs'
    have hstack : stack = f' :: fs := Option.some.inj ((frames_current hdone).symm.trans hfs')
    refine Frame.gathered_of_not_wait (hkin.inner t f stack hfs f' ?_)
    rw [hstack]
    exact List.mem_cons_self ..

/-- What subs that run at the same time come to, where a task begins to run them in front of frames. -/
structure Together (m : Machine) (t : TaskId) (p : Processor) (subs : List Value)
    (stack : List Frame) : Prop where
  /-- Each sub begins as a task of its own, in their order. -/
  begins : ∀ k sub, subs[k]? = some sub →
    (after 2 m).frames (m.nextTask k) = some [.begin (.sub p sub)]
  /-- If none of them fails, the task goes on with their values in their order, unless it was
  cancelled. -/
  values : ∀ m' o, During t stack m m' → m'.current = some (t, .outcome o stack) →
    (∀ k < subs.length, ∀ f, m'.endOf (m.nextTask k) ≠ some (.fault f)) → ¬m.CancelledTo m' t →
    ∃ vs, o = .value (.list vs) ∧ vs.length = subs.length ∧
      ∀ k v, vs[k]? = some v → m'.endOf (m.nextTask k) = some (.value v)
  /-- If one of them fails, the task goes on with such a fault, unless it was cancelled. -/
  faults : ∀ m' o, During t stack m m' → m'.current = some (t, .outcome o stack) →
    ∀ k < subs.length, ∀ f, m'.endOf (m.nextTask k) = some (.fault f) → ¬m.CancelledTo m' t →
    ∃ j < subs.length, ∃ f, o = .fault f ∧ m'.endOf (m.nextTask j) = some (.fault f)
  /-- When the task goes on, be it with a value, with a fault, or because it was cancelled, all of them
  have ended, with all that they have started, and none of these tasks has a turn from then on. -/
  quiet : ∀ m' o, m.Course m' → m'.current = some (t, .outcome o stack) →
    (∀ k < subs.length, m.Heir m' t (m.nextTask k)) ∧
      ∀ u, m.Heir m' t u →
        m'.endOf u ≠ none ∧ ∀ m'', m'.Course m'' → m''.current.map Prod.fst ≠ some u
  /-- Once all of them have ended, the task does go on, as long as the turns that begin meanwhile come
  to their ends. -/
  returns : ∀ m', During t stack m m' → (∀ k < subs.length, m'.endOf (m.nextTask k) ≠ none) →
    (∀ m'', m'.Steps m'' → m''.Leads fun m => m.current = none) →
    ∃ m'' o, During t stack m' m'' ∧ m''.current = some (t, .outcome o stack)

end Machine

namespace World

open Machine

variable {w : World} {work : Work} {m m₁ m' : Machine} {t : TaskId} {stack : List Frame}
  {members : List FutureId} {o : Outcome}

/-- A wait for results, none of which is a fault, ends with their values in their order. -/
theorem Runs.joint_values (h : w.Runs work m) (hjoins : m.Joins t members true stack m₁)
    (hduring : During t stack m₁ m') (hdone : m'.current = some (t, .outcome o stack))
    (hfaults : ∀ i ∈ members, m'.world.scheduler.faulted i = false) (hcalm : ¬m.CancelledTo m' t) :
    ∃ vs, o = .value (.list vs) ∧
      members.map m'.world.scheduler.outcome? = vs.map fun v => some (.value v) := by
  obtain ⟨hsettled, hjoint, hstopped⟩ := h.joint hjoins hduring hdone
  have hnot : o ≠ .stopped := fun hstop => hcalm (hstopped hstop)
  have ho : o = Move.outcomeOf true (members.filterMap m'.world.scheduler.outcome?) :=
    hjoint.resolve_right hnot
  have hfault : ∀ o ∈ members.filterMap m'.world.scheduler.outcome?, o.isFault = false := by
    intro o' ho'
    obtain ⟨i, hi, hio⟩ := List.mem_filterMap.mp ho'
    have hfault := hfaults i hi
    unfold Scheduler.faulted at hfault
    rw [hio] at hfault
    exact hfault
  rcases Move.outcomeOf_of_no_fault hfault with hstop | ⟨vs, hvalue, hvs⟩
  · exact absurd (ho.trans hstop) hnot
  · refine ⟨vs, ho.trans hvalue, ?_⟩
    rw [Scheduler.map_outcome? hsettled, hvs, List.map_map]
    rfl

/-- A wait for futures of which some have failed ends with one of their faults. -/
theorem Runs.joint_fault {results : Bool} (h : w.Runs work m) (hjoins : m.Joins t members results stack m₁)
    (hduring : During t stack m₁ m') (hdone : m'.current = some (t, .outcome o stack))
    (hfailed : ∃ i ∈ members, m'.world.scheduler.faulted i = true) (hcalm : ¬m.CancelledTo m' t) :
    ∃ i ∈ members, ∃ f, m'.world.scheduler.outcome? i = some (.fault f) ∧ o = .fault f := by
  obtain ⟨-, hjoint, hstopped⟩ := h.joint hjoins hduring hdone
  have ho := hjoint.resolve_right fun hstop => hcalm (hstopped hstop)
  obtain ⟨i, hfind⟩ := Option.isSome_iff_exists.mp (List.find?_isSome.mpr hfailed)
  obtain ⟨f, hf⟩ := Scheduler.faulted_iff.mp (List.find?_some hfind)
  refine ⟨i, List.mem_of_find?_eq_some hfind, f, hf, ?_⟩
  rw [ho]
  exact Option.some.inj ((World.jointOutcome_of_find results hfind).symm.trans hf)

variable {p : Processor} {subs : List Value}

/-- How a sub has ended is the outcome of the future in its place. -/
theorem Runs.endOf_place (h : w.Runs work m) (hlaunches : m.Launches t p subs stack members m₁)
    (hsteps : m₁.Steps m') {k i : Nat} (hk : members[k]? = some i) :
    m'.endOf (m.nextTask k) = m'.world.scheduler.outcome? i := by
  have hm₁ := h.trans (.single hlaunches.step)
  obtain ⟨more, hgrows⟩ := hsteps.grows hm₁.sound
  exact (hm₁.trans hsteps).sound.endOf_eq (hgrows.task (hlaunches.kinds k i hk))

/-- The values of subs none of which fails are given in the order of the subs. -/
theorem Runs.launched_values (h : w.Runs work m) (hlaunches : m.Launches t p subs stack members m₁)
    (hduring : During t stack m₁ m') (hdone : m'.current = some (t, .outcome o stack))
    (hfaults : ∀ k < subs.length, ∀ f, m'.endOf (m.nextTask k) ≠ some (.fault f))
    (hcalm : ¬m.CancelledTo m' t) :
    ∃ vs, o = .value (.list vs) ∧ vs.length = subs.length ∧
      ∀ k v, vs[k]? = some v → m'.endOf (m.nextTask k) = some (.value v) := by
  have hnone : ∀ i ∈ members, m'.world.scheduler.faulted i = false := by
    intro i hi
    obtain ⟨k, hk, hki⟩ := hlaunches.exists_place hi
    by_contra hfault
    obtain ⟨f, hf⟩ := Scheduler.faulted_iff.mp (by simpa using hfault)
    exact hfaults k hk f ((h.endOf_place hlaunches hduring.steps hki).trans hf)
  obtain ⟨vs, rfl, hvs⟩ := h.joint_values hlaunches.toJoins hduring hdone hnone hcalm
  have hlength := congrArg List.length hvs
  rw [List.length_map, List.length_map] at hlength
  refine ⟨vs, rfl, hlength.symm.trans hlaunches.length, fun k v hk => ?_⟩
  have hplace : (members.map m'.world.scheduler.outcome?)[k]? = some (some (.value v)) := by
    rw [hvs, List.getElem?_map, hk]
    rfl
  rw [List.getElem?_map] at hplace
  obtain ⟨i, hi, hio⟩ := Option.map_eq_some_iff.mp hplace
  exact (h.endOf_place hlaunches hduring.steps hi).trans hio

/-- Where one of several subs fails, such a fault is given. -/
theorem Runs.launched_fault (h : w.Runs work m) (hlaunches : m.Launches t p subs stack members m₁)
    (hduring : During t stack m₁ m') (hdone : m'.current = some (t, .outcome o stack)) {k : Nat}
    (hk : k < subs.length) {f : Fault} (hf : m'.endOf (m.nextTask k) = some (.fault f))
    (hcalm : ¬m.CancelledTo m' t) :
    ∃ j < subs.length, ∃ f, o = .fault f ∧ m'.endOf (m.nextTask j) = some (.fault f) := by
  obtain ⟨i, hki, hi⟩ := hlaunches.exists_member hk
  have hfault := (h.endOf_place hlaunches hduring.steps hki).symm.trans hf
  obtain ⟨j, hj, f', hf', rfl⟩ := h.joint_fault hlaunches.toJoins hduring hdone
    ⟨i, hi, Scheduler.faulted_iff.mpr ⟨f, hfault⟩⟩ hcalm
  obtain ⟨k', hk', hkj⟩ := hlaunches.exists_place hj
  exact ⟨k', hk', f', rfl, (h.endOf_place hlaunches hduring.steps hkj).trans hf'⟩

/-- An outcome is given once all subs have ended. -/
theorem Runs.launched_returns (h : w.Runs work m) (hlaunches : m.Launches t p subs stack members m₁)
    (hne : subs ≠ []) (hduring : During t stack m₁ m')
    (hended : ∀ k < subs.length, m'.endOf (m.nextTask k) ≠ none)
    (hends : ∀ m'', m'.Steps m'' → m''.Leads fun m => m.current = none) :
    ∃ m'' o, During t stack m' m'' ∧ m''.current = some (t, .outcome o stack) := by
  refine h.returns hlaunches.toJoins ?_ hduring ?_ hends
  · rintro rfl
    exact hne (List.length_eq_zero_iff.mp hlaunches.length.symm)
  · intro i hi
    obtain ⟨k, hk, hki⟩ := hlaunches.exists_place hi
    rw [← h.endOf_place hlaunches hduring.steps hki]
    exact hended k hk

/-- The first task of all is never cancelled. -/
theorem Runs.never_cancelled (h : w.Runs work m) : ¬m.CancelledTo m' 0 := by
  rintro ⟨m₁, m₂, hbefore, ⟨t, o, members, results, fs, hcurrent, i, hi, hbelow⟩, -⟩
  obtain ⟨parent, hkin⟩ := (h.trans hbefore).tidy.kin
  have hlt := (hkin.below (frames_current hcurrent) (List.mem_cons_self ..) (List.mem_of_mem_filter hi)
    hbelow).1
  exact Nat.not_lt_zero t hlt

end World

/-! ## Subs -/

open Machine

variable {w : World} {work : Work} {m m' : Machine} {t : TaskId} {p : Processor} {v : Value}
  {subs : List Value} {stack : List Frame}

/-- A task with an outcome has got beyond its work. -/
theorem Machine.ne_of_work {below : List Frame} {o : Outcome}
    (hcurrent : m.current = some (t, .work work below)) (hdone : m'.current = some (t, .outcome o stack)) :
    m' ≠ m := by
  rintro rfl
  cases hcurrent.symm.trans hdone

/-- No subs at all come to no values at once. -/
theorem Machine.Tidy.together_nil (h : m.Tidy)
    (hcurrent : m.current = some (t, .work (.sub p v) stack)) (hsubs : v.subs? = some []) :
    m.Together t p [] stack := by
  let m₁ : Machine := ⟨m.world, some (t, .work (.together p []) stack)⟩
  let m₂ : Machine := ⟨m.world, some (t, .outcome (.value (.list [])) stack)⟩
  have hfirst : m.step = some m₁ := step_subs hcurrent hsubs
  have hsecond : m₁.step = some m₂ := rfl
  have hfs : m.frames t = some (.begin (.sub p v) :: stack) := frames_current hcurrent
  have hfs₁ : m₁.frames t = some (.begin (.together p []) :: stack) :=
    frames_current (c := .work (.together p []) stack) rfl
  have hover {m' : Machine} (hd : During t stack m₂ m') : m' = m₂ :=
    hd.eq_of_resumes ⟨_, rfl, rfl⟩
  refine ⟨by simp, ?_, by simp, fun m' o hc hdone => ⟨by simp, fun u hu => h.quiet hfs hc hdone hu⟩, ?_⟩
  · intro m' o hd hdone _ _
    obtain rfl := hover ((hd.after hfirst (ne_of_work hcurrent hdone)).after hsecond
      (ne_of_work rfl hdone))
    cases hdone
    exact ⟨[], rfl, rfl, by simp⟩
  · intro m' hd _ _
    by_cases hm : m' = m
    · subst hm
      exact ⟨m₂, _, (During.of_step hfs hfirst).trans (During.of_step hfs₁ hsecond), rfl⟩
    by_cases hm₁ : m' = m₁
    · subst hm₁
      exact ⟨m₂, _, During.of_step hfs₁ hsecond, rfl⟩
    · obtain rfl := hover ((hd.after hfirst hm).after hsecond hm₁)
      exact ⟨m₂, _, .refl, rfl⟩

/-- Subs that run at the same time keep their places and leave nothing behind that goes on, whatever
they are and in whatever order they end. -/
theorem subs_together (h : w.Runs work m) (hcurrent : m.current = some (t, .work (.sub p v) stack))
    (hsubs : v.subs? = some subs) : m.Together t p subs stack := by
  by_cases hne : subs = []
  · subst hne
    exact h.tidy.together_nil hcurrent hsubs
  let m₁ : Machine := ⟨m.world, some (t, .work (.together p subs) stack)⟩
  have hfirst : m.step = some m₁ := step_subs hcurrent hsubs
  obtain ⟨m₂, hsecond⟩ : ∃ m₂, m₁.step = some m₂ := exists_step rfl
  have hm₁ := h.trans (.single hfirst)
  obtain ⟨members, hlaunches⟩ := hm₁.sound.launches rfl hne hsecond
  -- Nothing but these two steps can happen at first, and neither comes to an outcome.
  have hduring {m' : Machine} {o : Outcome} (hd : During t stack m m')
      (hdone : m'.current = some (t, .outcome o stack)) : During t stack m₂ m' :=
    (hd.after hfirst (ne_of_work hcurrent hdone)).after hsecond (ne_of_work rfl hdone)
  have hcancelled {m' : Machine} (hc : m₁.CancelledTo m' t) : m.CancelledTo m' t :=
    hc.of_steps (.single hfirst)
  refine ⟨?_, ?_, ?_, fun m' o hc hdone => ⟨?_, fun u hu => ?_⟩, ?_⟩
  · have hafter : after 2 m = m₂ := by simp only [after, hfirst, hsecond]
    rw [hafter]
    exact hlaunches.begins
  · intro m' o hd hdone hfaults hcalm
    exact hm₁.launched_values hlaunches (hduring hd hdone) hdone hfaults (hcalm ∘ hcancelled)
  · intro m' o hd hdone k hk f hf hcalm
    exact hm₁.launched_fault hlaunches (hduring hd hdone) hdone hk hf (hcalm ∘ hcancelled)
  · intro k hk
    obtain ⟨i, hi, -⟩ := hlaunches.exists_member hk
    have hlater : m₂.Course m' :=
      (hc.after hcurrent hfirst (ne_of_work hcurrent hdone)).after rfl hsecond (ne_of_work rfl hdone)
    exact .child ⟨(Steps.single hfirst).course, hsecond, hlater, rfl, Nat.le_add_right _ _,
      (hm₁.trans (.single hsecond)).sound.threads.lt_of_ending (hlaunches.kinds k i hi)⟩
  · exact h.tidy.quiet (frames_current hcurrent) hc hdone hu
  · intro m' hd hended hends
    -- Where the subs have ended they have begun.
    have hbegun : m.nextTask 0 < m'.world.scheduler.tasks.length :=
      lt_of_endOf (hended 0 (List.length_pos_iff.mpr hne))
    have hnew {m₀ : Machine} (hworld : m₀.world = m.world) : m' ≠ m₀ := by
      rintro rfl
      rw [hworld] at hbegun
      exact Nat.lt_irrefl _ hbegun
    exact hm₁.launched_returns hlaunches hne
      ((hd.after hfirst (hnew rfl)).after hsecond (hnew rfl)) hended hends

/-- Two subs, the first of which is a list itself. -/
def nestedSubs : List Value :=
  let step (answer : Int) : Value := .callback ⟨"step", [], none, none, .int answer⟩
  [.list [step 1], step 2]

/-- A run of a list in a list. -/
def nestedRun (n : Nat) : Machine :=
  after n (ofWork TestSetup.plain.world (.sub .doubling (.list nestedSubs))).2

/-- Whether a task has come to a value with nothing to go on with. -/
private def endsWithValue (m : Machine) (t : TaskId) : Bool :=
  match m.current with
  | some (u, .outcome (.value _) []) => u = t
  | _ => false

/-- The second sub ends while the first one still runs, but their values stand in the order of the list,
and neither has a turn any more. -/
theorem subs_together_nested :
    (nestedRun 10).endOf 1 = none ∧ (nestedRun 10).endOf 2 ≠ none ∧
      (∃ vs, (nestedRun 22).current = some (0, .outcome (.value (.list vs)) []) ∧ vs.length = 2 ∧
        ∀ k v, vs[k]? = some v → (nestedRun 22).endOf (1 + k) = some (.value v)) ∧
      ∀ m, (nestedRun 22).Course m → ∀ k < 2, m.current.map Prod.fst ≠ some (1 + k) := by
  have hfresh : TestSetup.plain.world.Fresh := ⟨rfl, rfl, rfl, rfl⟩
  have hruns : TestSetup.plain.world.Runs _ (nestedRun 0) := hfresh.runs _
  have htogether := subs_together hruns rfl rfl
  have hfs : (nestedRun 0).frames 0 = some ([.begin (.sub .doubling (.list nestedSubs))] ++ []) :=
    frames_current (c := .work (.sub .doubling (.list nestedSubs)) []) rfl
  have hduring : During 0 [] (nestedRun 0) (nestedRun 22) :=
    during_after _ hruns.sound hfs 22 (by decide +kernel)
  have hends : endsWithValue (nestedRun 22) 0 = true := by decide +kernel
  unfold endsWithValue at hends
  split at hends
  · next u v hcurrent =>
      obtain rfl : u = 0 := by simpa using hends
      have hfaults : ∀ k < 2, ∀ f, (nestedRun 22).endOf ((nestedRun 0).nextTask k) ≠ some (.fault f) := by
        have hchecked : ∀ k < 2,
            ((nestedRun 22).endOf ((nestedRun 0).nextTask k)).any Outcome.isFault = false := by
          decide +kernel
        intro k hk f hf
        have hfault := hchecked k hk
        rw [hf] at hfault
        cases hfault
      obtain ⟨vs, hvs, hlength, hplaces⟩ :=
        htogether.values _ _ hduring hcurrent hfaults hruns.never_cancelled
      obtain ⟨hheirs, hquiet⟩ := htogether.quiet _ _ hduring.steps.course hcurrent
      rw [hvs] at hcurrent
      refine ⟨by decide +kernel, by decide +kernel, ⟨vs, hcurrent, hlength, hplaces⟩, ?_⟩
      intro m hcourse k hk
      exact (hquiet _ (hheirs k hk)).2 m hcourse
  · cases hends

end HotSpec
