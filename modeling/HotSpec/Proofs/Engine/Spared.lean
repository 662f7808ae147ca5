import HotSpec.Proofs.Engine.Kin

/-!
# Tasks that are spared

A task is stopped only if it was hit by a cancellation, and a task that waits for others is hit
before they are.  So the first task, which nobody cancels, is never stopped, and as long as it waits
for others these are not stopped either.

Main definitions:

- `Frame.Tells`: whether a frame tells the truth of a wait that is over.
- `Machine.Spared`: the invariant, for a given choice of parents and of tasks that were hit.

Main results:

- Theorem `Spared.stopped_of_rule`: only tasks that were hit come to be stopped.
- Theorem `Spared.step`: every step keeps the invariant, and may hit more tasks.
- Theorem `Reaches.spared`: it holds of every machine that can be reached.
-/

namespace HotSpec

/-! ## Outcomes of several futures -/

theorem Outcome.ofReply_ne_stopped (r : Reply) : Outcome.ofReply r ≠ .stopped := by
  cases r <;> simp [Outcome.ofReply]

theorem Outcome.andThen_stopped {o o' : Outcome} (h : o.andThen o' = .stopped) :
    o = .stopped ∨ (∃ v, o = .value v) ∧ o' = .stopped := by
  cases o with
  | value v => exact .inr ⟨⟨v, rfl⟩, h⟩
  | stopped => exact .inl rfl
  | fault f => cases h

/-- Several futures are stopped if none of them has failed, and one of them was stopped. -/
theorem Move.outcomeOf_stopped {results : Bool} {outcomes : List Outcome}
    (h : Move.outcomeOf results outcomes = .stopped) :
    results = true ∧ .stopped ∈ outcomes ∧ ∀ o ∈ outcomes, o.isFault = false := by
  unfold Move.outcomeOf at h
  split at h
  · next o hfind =>
      have hfault := List.find?_some hfind
      rw [h] at hfault
      cases hfault
  · next hnone =>
      have hnofault : ∀ o ∈ outcomes, o.isFault = false := by
        intro o ho
        simpa using List.find?_eq_none.mp hnone o ho
      split at h
      · cases h
      · next hresults =>
          split at h
          · next hany =>
              obtain ⟨o, ho, hstop⟩ := List.any_eq_true.mp hany
              refine ⟨by simpa using hresults, ?_, hnofault⟩
              cases o with
              | stopped => exact ho
              | value v => cases hstop
              | fault f => cases hstop
          · cases h

namespace World

variable {w : World} {members : List FutureId} {results : Bool}

/-- Where one of several futures has failed, none of the others counts. -/
theorem jointOutcome_of_faulted {i : FutureId} (hi : i ∈ members)
    (hfault : w.scheduler.faulted i = true) : (w.jointOutcome members results).isFault = true := by
  unfold Scheduler.faulted at hfault
  obtain ⟨o, ho, hisFault⟩ := (Option.any_eq_true _ _).mp hfault
  unfold jointOutcome Move.outcomeOf
  cases hfind : (members.filterMap w.scheduler.outcome?).find? Outcome.isFault with
  | some fault => exact List.find?_some hfind
  | none =>
      have hnot := List.find?_eq_none.mp hfind o (List.mem_filterMap.mpr ⟨i, hi, ho⟩)
      exact absurd hisFault hnot

/-- Several futures are stopped only where one of them was, none has failed, and their results are
asked for. -/
theorem jointOutcome_stopped (h : w.jointOutcome members results = .stopped) :
    results = true ∧ (∃ i ∈ members, w.scheduler.outcome? i = some .stopped) ∧
      ∀ i ∈ members, w.scheduler.faulted i = false := by
  obtain ⟨hresults, hmem, hnofault⟩ := Move.outcomeOf_stopped h
  refine ⟨hresults, List.mem_filterMap.mp hmem, ?_⟩
  intro i hi
  unfold Scheduler.faulted
  cases ho : w.scheduler.outcome? i with
  | none => rfl
  | some o => exact hnofault o (List.mem_filterMap.mpr ⟨i, hi, ho⟩)

end World

/-! ## Machines -/

/-- Whether a frame tells the truth of a wait that is over: it was stopped only if the task was hit,
and it ended early only if one of several futures has failed. -/
def Frame.Tells (s : Scheduler (List Frame) Job) (hit : Prop) : Frame → Prop
  | .collected members _ waited => (waited = .stopped → hit) ∧
      ∀ v, waited = .value v → ∃ i ∈ members, s.faulted i = true
  | .unheard _ stopped => stopped = true → hit
  | _ => True

theorem Frame.tells_of_not_wait {s : Scheduler (List Frame) Job} {hit : Prop} {f : Frame}
    (h : f.isWait = false) : f.Tells s hit := by
  cases f with
  | collected | unheard => cases h
  | _ => trivial

theorem Scheduler.Extends.faulted {s s' : Scheduler (List Frame) Job} {more : Nat}
    (h : s.Extends more s') {i : FutureId} (hi : s.faulted i = true) : s'.faulted i = true := by
  unfold Scheduler.faulted at hi ⊢
  obtain ⟨o, ho, hfault⟩ := (Option.any_eq_true _ _).mp hi
  rw [h.settled i o ho]
  exact hfault

theorem Frame.Tells.mono {s s' : Scheduler (List Frame) Job} {hit hit' : Prop} {more : Nat}
    {f : Frame} (h : f.Tells s hit) (hg : s.Extends more s') (hsub : hit → hit') :
    f.Tells s' hit' := by
  cases f with
  | collected members results waited =>
      refine ⟨fun hstop => hsub (h.1 hstop), ?_⟩
      intro v hv
      obtain ⟨i, hi, hfault⟩ := h.2 v hv
      exact ⟨i, hi, hg.faulted hfault⟩
  | unheard n stopped => exact fun hstop => hsub (h hstop)
  | _ => trivial

/-- Whether only tasks that were hit are stopped, and tasks are hit before those that they wait
for. -/
structure Machine.Spared (parent : TaskId → TaskId) (hit : TaskId → Prop) (m : Machine) : Prop
    extends m.Kin parent where
  calm : m.world.scheduler.Calm hit
  known : ∀ u, hit u → u < m.world.scheduler.tasks.length
  root : ¬hit 0
  stopped : ∀ t fs, m.current = some (t, .outcome .stopped fs) → hit t
  tells : ∀ t fs, m.frames t = some fs → ∀ f ∈ fs, f.Tells m.world.scheduler (hit t)
  members : ∀ t members results fs, m.frames t = some (.joined members results :: fs) →
    ∀ i ∈ members, ∀ u, m.world.scheduler.kind i = .task u → hit u → hit t
  /-- A wait for several futures is over once all are settled or one has failed. -/
  value : ∀ t v members results fs,
    m.current = some (t, .outcome (.value v) (.joined members results :: fs)) →
    (∀ i ∈ members, m.world.scheduler.outcome? i ≠ none) ∨
      ∃ i ∈ members, m.world.scheduler.faulted i = true

namespace Machine

variable {parent : TaskId → TaskId} {hit : TaskId → Prop} {m m' : Machine} {t : TaskId}
  {head : Head} {stack : List Frame} {turn : Turn} {new : List (List Frame)} {w' : World}

/-- Only tasks that were hit come to be stopped. -/
theorem Spared.stopped_of_rule (h : m.Spared parent hit)
    (hmoves : m.Moves t head stack (.give .stopped) new w' m') : hit t := by
  have htells := h.tells t _ hmoves.before _ (List.mem_cons_self ..)
  have hframe (f : Frame) (hhead : head = .frame f .stopped) : hit t := by
    refine h.stopped t (f :: stack) ?_
    rw [hmoves.current, hhead]
    rfl
  have hrule := hmoves.rule
  generalize hturn : Turn.give .stopped = turn at hrule
  cases hrule with
  | asks h => cases h <;> cases hturn
  | reply r | answered r =>
      exact absurd (Turn.give.inj hturn).symm (Outcome.ofReply_ne_stopped r)
  | @resume p g reply adv =>
      cases adv with
      | ends r => exact absurd (Turn.give.inj hturn).symm (Outcome.ofReply_ne_stopped r)
      | yields y =>
          unfold resumed at hturn
          split at hturn
          · next heq => cases heq
          · cases hturn
          · cases hturn
  | pass | raced | assertedNot =>
      cases hturn
      exact hframe _ rfl
  | @joined members results o hopen =>
      have hstop : o.andThen (m.world.jointOutcome members results) = .stopped :=
        (Turn.give.inj hturn).symm
      rcases Outcome.andThen_stopped hstop with rfl | ⟨-, hjoint⟩
      · exact hframe _ rfl
      · obtain ⟨rfl, ⟨i, hi, ho⟩, -⟩ := World.jointOutcome_stopped hjoint
        obtain ⟨u, hk⟩ := h.results t _ hmoves.before members (List.mem_cons_self ..) i hi
        exact h.members t members true stack hmoves.before i hi u hk (h.calm.ended u i hk ho)
  | @collected members results waited o =>
      have hstop : o.andThen (waited.andThen (m.world.jointOutcome members results)) = .stopped :=
        (Turn.give.inj hturn).symm
      rcases Outcome.andThen_stopped hstop with rfl | ⟨-, hrest⟩
      · exact hframe _ rfl
      · rcases Outcome.andThen_stopped hrest with rfl | ⟨⟨v, rfl⟩, hjoint⟩
        · exact htells.1 rfl
        · obtain ⟨i, hi, hfault⟩ := htells.2 v rfl
          rw [(World.jointOutcome_stopped hjoint).2.2 i hi] at hfault
          cases hfault
  | @unheard n stopped o =>
      have hstop : (if stopped || o.isStopped then Outcome.stopped else .fault .noMessage) = .stopped :=
        (Turn.give.inj hturn).symm
      cases stopped with
      | true => exact htells rfl
      | false =>
          cases o with
          | stopped => exact hframe _ rfl
          | value | fault => cases hstop
  | _ => cases hturn

/-- A turn that ends at a future that is not stopping stops nobody. -/
theorem calm_follow {w : World} (h : w.scheduler.Calm hit)
    (hwait : ∀ f frames, turn = .await f frames → w.scheduler.outcome? f = none ∧
      ∀ members left, w.scheduler.kind f ≠ .all members left true) :
    (follow t stack turn w).world.scheduler.Calm hit := by
  cases turn with
  | give o => exact h
  | call work frames => exact h
  | pause frames => exact h.pause _ _
  | await f frames =>
      obtain ⟨hopen, hkind⟩ := hwait f frames rfl
      simp only [follow, hopen]
      exact h.park _ _ hopen hkind

/-- What has to be checked of a step that is made by a rule. -/
theorem Spared.of_moves {hit' : TaskId → Prop} (h : m.Spared parent hit) (hm : m.Sound)
    (hmoves : m.Moves t head stack turn new w' m') (hsub : ∀ u, hit u → hit' u)
    (hknown : ∀ u, hit' u → u < m.world.scheduler.tasks.length) (hroot : ¬hit' 0)
    (hcalm : w'.scheduler.Calm hit')
    (hwait : ∀ f frames, turn = .await f frames →
      ∀ members left, w'.scheduler.kind f ≠ .all members left true)
    (htells : ∀ f ∈ turn.frames, f.Tells m'.world.scheduler (hit' t))
    (hmembers : ∀ u, hit' u → ¬hit u → hit' (parent u) ∨
      parent u = t ∧ ∀ members results, .joined members results ∉ turn.frames) :
    m'.Spared (m.adopt parent t) hit' := by
  have hinner := h.inner t _ _ hmoves.before
  have hkin := h.toKin.moves hm hmoves
  have hcurrent {u : TaskId} {o : Outcome} {fs : List Frame}
      (hu : m'.current = some (u, .outcome o fs)) : u = t ∧ turn = .give o ∧ fs = stack := by
    rw [hmoves.next] at hu
    cases turn with
    | give o' =>
        cases hu
        exact ⟨rfl, rfl, rfl⟩
    | _ => cases hu
  refine ⟨hkin, ?_, ?_, hroot, ?_, ?_, ?_, ?_⟩
  · rw [hmoves.follows]
    refine calm_follow hcalm ?_
    intro f frames hturn
    exact ⟨(hmoves.served.await f frames hturn).2.2, hwait f frames hturn⟩
  · intro u hu
    rw [hmoves.grows.tasks]
    exact Nat.lt_add_right _ (hknown u hu)
  · intro u fs hu
    obtain ⟨rfl, rfl, -⟩ := hcurrent hu
    exact hsub u (h.stopped_of_rule hmoves)
  · intro u fs hfs f hf
    rcases hmoves.mem_frames hfs hf with ⟨rfl, hf⟩ | ⟨fs, hfs, hf⟩ | ⟨work, rfl, -⟩
    · exact htells f hf
    · exact (h.tells u fs hfs f hf).mono hmoves.grows (hsub u)
    · trivial
  · intro u members results fs hfs i hi v hk hv
    obtain ⟨hparent, -⟩ :=
      hkin.frames u _ hfs (.joined members results) (List.mem_cons_self ..) i hi v hk
    have hv' : parent v = u := by
      unfold adopt at hparent
      rw [if_pos (hknown v hv)] at hparent
      exact hparent
    have htop (hut : u = t) : .joined members results ∈ turn.frames := by
      rw [hut, hmoves.frames_self] at hfs
      exact h.mem_of_wait hmoves (Option.some.inj hfs) rfl
    by_cases hbefore : hit v
    · rcases hmoves.frames_cases hfs with ⟨hut, -⟩ | ⟨-, hfs⟩ | ⟨-, hnew⟩
      · have hle := hmoves.le_of_joined hm (htop hut) hi hk
        exact absurd (h.known v hbefore) (Nat.not_lt.mpr hle)
      · refine hsub u (h.members u members results fs hfs i hi v ?_ hbefore)
        exact hmoves.grows.of_task (hm.lt_of_member hfs (List.mem_cons_self ..) hi) hk
      · obtain ⟨work, heq⟩ := hmoves.spawns.begins hnew
        cases heq
    · rcases hmembers v hv hbefore with hp | ⟨hp, hnot⟩
      · rw [hv'] at hp
        exact hp
      · exact absurd (htop (hv'.symm.trans hp)) (hnot members results)
  · intro u v members results fs hu
    obtain ⟨-, -, rfl⟩ := hcurrent hu
    cases hinner _ (List.mem_cons_self ..)

/-- Every step that is made by a rule keeps the invariant: those that it cancels are hit, with all
tasks below them. -/
theorem Spared.moves (h : m.Spared parent hit) (hm : m.Sound)
    (hmoves : m.Moves t head stack turn new w' m') :
    ∃ hit', m'.Spared (m.adopt parent t) hit' ∧ ∀ u, hit' u → hit u ∨
      ∃ members results o, head = .frame (.joined members results) o ∧
        ∃ i ∈ m.world.open? members, m.world.scheduler.Below i u := by
  have hthreads := hm.threads_current hmoves.current
  have hsame (hcalm : ∀ hit, m.world.scheduler.Calm hit → w'.scheduler.Calm hit)
      (hwait : ∀ f frames, turn = .await f frames →
        ∀ members left, w'.scheduler.kind f ≠ .all members left true)
      (htells : ∀ f ∈ turn.frames, f.Tells m'.world.scheduler (hit t)) :
      ∃ hit', m'.Spared (m.adopt parent t) hit' ∧ ∀ u, hit' u → hit u ∨
        ∃ members results o, head = .frame (.joined members results) o ∧
          ∃ i ∈ m.world.open? members, m.world.scheduler.Below i u :=
    ⟨hit, h.of_moves hm hmoves (fun _ hu => hu) h.known h.root (hcalm hit h.calm) hwait htells
      fun u hu hnot => absurd hu hnot, fun _ => .inl⟩
  rcases hmoves.waits hm with ⟨hturn, hnot, hcalm⟩ | ⟨f, frames, rfl, hawaits⟩
  · exact hsame hcalm (fun f frames heq => absurd heq (hturn f frames))
      fun f hf => Frame.tells_of_not_wait (hnot f hf)
  · have hkind {k : FutureKind} (hk : w'.scheduler.kind f = k)
        (hno : ∀ members left, k ≠ .all members left true) (g : FutureId) (fs : List Frame)
        (heq : Turn.await f frames = .await g fs) (members : List FutureId) (left : Nat) :
        w'.scheduler.kind g ≠ .all members left true := by
      cases heq
      rw [hk]
      exact hno members left
    cases hawaits with
    | timer hk hcalm => exact hsame hcalm (hkind hk (by simp)) (by simp [Turn.frames])
    | hears hk hcalm =>
        refine hsame hcalm (hkind hk (by simp)) ?_
        intro fr hfr
        rw [List.mem_singleton.mp hfr]
        trivial
    | @unhears _ n found o _ hk hcalm =>
        refine hsame hcalm (hkind hk (by simp)) ?_
        intro fr hfr
        rw [List.mem_singleton.mp hfr]
        intro hstop
        cases o with
        | stopped => exact h.stopped t _ hmoves.current
        | value v => cases hstop
        | fault e => cases hstop
    | joins hk hnew hresults hframes hcalm =>
        refine hsame hcalm (hkind hk (by simp)) ?_
        intro fr hfr
        rcases List.mem_cons.mp hfr with rfl | hfr
        · trivial
        · exact Frame.tells_of_not_wait (hframes fr hfr)
    | @collects members results o _ _ left hopen hk hcalm =>
        have hbelow {i : FutureId} (hi : i ∈ m.world.open? members) {u : TaskId}
            (hu : m.world.scheduler.Below i u) :=
          h.toKin.below hmoves.before (List.mem_cons_self ..) (List.mem_of_mem_filter hi) hu
        refine ⟨fun u => hit u ∨ ∃ i ∈ m.world.open? members, m.world.scheduler.Below i u,
          h.of_moves hm hmoves (fun _ => .inl) ?_ ?_ ?_ (hkind hk (by simp)) ?_ ?_,
          fun u hu => hu.imp_right fun hbelow => ⟨members, results, o, rfl, hbelow⟩⟩
        · rintro u (hu | ⟨i, hi, hu⟩)
          · exact h.known u hu
          · cases hu with
            | here hku => exact hthreads.lt_of_ending hku
            | further _ _ _ hku => exact hthreads.lt_of_ending hku
        · rintro (hzero | ⟨i, hi, hu⟩)
          · exact h.root hzero
          · exact Nat.not_lt_zero _ (hbelow hi hu).1
        · exact hcalm _ (h.calm.mono fun _ => .inl) fun i hi u hu => .inr ⟨i, hi, hu⟩
        · intro fr hfr
          rw [List.mem_singleton.mp hfr]
          refine ⟨?_, ?_⟩
          · rintro rfl
            exact .inl (h.stopped t _ hmoves.current)
          · rintro v rfl
            rcases h.value t v members results stack hmoves.current with hall | ⟨i, hi, hfault⟩
            · refine absurd ?_ hopen
              rw [World.open?, List.filter_eq_nil_iff]
              intro i hi
              rw [Scheduler.isSettled_eq]
              simpa [Option.isSome_iff_ne_none] using hall i hi
            · exact ⟨i, hi, hmoves.grows.faulted hfault⟩
        · rintro u (hu | ⟨i, hi, hu⟩) hnot
          · exact absurd hu hnot
          · rcases (hbelow hi hu).2 with hp | hp
            · exact .inr ⟨hp, by simp [Turn.frames]⟩
            · exact .inl (.inr ⟨i, hi, hp⟩)

/-- A step that leaves all frames hits nobody. -/
theorem Spared.rests (h : m.Spared parent hit) (hm : m.Sound) (hrests : m.Rests m') :
    m'.Spared parent hit := by
  have hkin := h.toKin.leaves hm hrests.toLeaves
  refine ⟨hkin, ?_, ?_, h.root, ?_, ?_, ?_, ?_⟩
  · exact hrests.calm hit h.calm fun t ht => h.stopped t [] ht
  · intro u hu
    rw [hrests.grows.tasks]
    exact h.known u hu
  · intro t fs ht
    rcases hrests.given t .stopped fs ht with ⟨hfinished, -⟩ | ⟨-, hstopping⟩ | ⟨g, hwait, ho⟩
    · cases hfinished
    · exact h.calm.stopping t hstopping
    · exact h.calm.awaited t g hwait ho
  · intro t fs hfs f hf
    rw [hrests.frames] at hfs
    exact (h.tells t fs hfs f hf).mono hrests.grows id
  · intro t members results fs hfs i hi u hk
    rw [hrests.frames] at hfs
    exact h.members t members results fs hfs i hi u
      (hrests.grows.of_task (hm.lt_of_member hfs (List.mem_cons_self ..) hi) hk)
  · intro t v members results fs ht
    have hfs : m.frames t = some (.joined members results :: fs) := by
      rw [← hrests.frames]
      exact frames_current ht
    have hidle := (hrests.current t _ ht).1
    obtain ⟨g, hg, hform⟩ := h.joined t members results fs hfs (by rw [hidle]; simp)
    rcases hrests.given t _ _ ht with ⟨-, hnone⟩ | ⟨hstop, -⟩ | ⟨g', hwait, ho⟩
    · rw [hg] at hnone
      cases hnone
    · cases hstop
    · cases hg.symm.trans hwait
      have hdecided := hm.groups.decided g _ ho
      unfold Scheduler.Decided at hdecided
      rw [hform] at hdecided
      rcases hdecided.2 v rfl with hall | ⟨i, hi, hfault⟩
      · refine .inl fun i hi => ?_
        obtain ⟨o, ho⟩ := Option.ne_none_iff_exists'.mp (hall i hi)
        rw [hrests.grows.settled i o ho]
        simp
      · exact .inr ⟨i, hi, hrests.grows.faulted hfault⟩

/-- Every step keeps the invariant, and may hit more tasks. -/
theorem Spared.step (h : m.Spared parent hit) (hm : m.Sound) (hstep : m.step = some m') :
    ∃ parent' hit', m'.Spared parent' hit' := by
  rcases hm.moves_or_rests hstep with ⟨t, head, stack, turn, new, w', hmoves⟩ | hrests
  · obtain ⟨hit', hspared, -⟩ := h.moves hm hmoves
    exact ⟨_, hit', hspared⟩
  · exact ⟨parent, hit, h.rests hm hrests⟩

end Machine

/-! ## Runs -/

namespace World

variable {w : World} {work : Work} {m : Machine}

/-- At the beginning nobody is hit, and nobody waits. -/
theorem Fresh.spared (h : w.Fresh) (work : Work) :
    (Machine.ofWork w work).2.Spared (fun _ => 0) fun _ => False := by
  have hsingle {t : TaskId} {fs : List Frame}
      (hfs : (Machine.ofWork w work).2.frames t = some fs) : fs = [.begin work] := by
    rw [h.frames] at hfs
    split at hfs
    · exact (Option.some.inj hfs).symm
    · cases hfs
  have hcalm : (Machine.ofWork w work).2.world.scheduler.Calm fun _ => False := by
    have hempty : (Scheduler.empty : Scheduler (List Frame) Job).Calm fun _ => False := by
      refine ⟨?_, ?_, ?_, ?_⟩ <;>
        simp [Scheduler.kind, Scheduler.outcome?, Scheduler.future, Scheduler.stopping,
          Scheduler.awaiting, Scheduler.task?, Scheduler.empty, default]
    have hnew := hempty.newTask []
    rw [← h.scheduler] at hnew
    exact hnew
  have hawaiting (t : TaskId) : (Machine.ofWork w work).2.world.scheduler.awaiting t = none := by
    refine (Scheduler.awaiting_newTask [] t).trans ?_
    rw [h.scheduler]
    rfl
  refine ⟨⟨?_, ?_, ?_, ?_, ?_⟩, hcalm, by simp, by simp, ?_, ?_, ?_, ?_⟩
  · intro t fs hfs f hf
    rw [hsingle hfs, List.mem_singleton] at hf
    rw [hf]
    exact Scheduler.children_nil t
  · intro t f hwait
    cases (hawaiting t).symm.trans hwait
  · intro t f fs hfs
    cases hsingle hfs
    simp
  · intro t fs hfs members hmem
    rw [hsingle hfs, List.mem_singleton] at hmem
    cases hmem
  · intro t members results fs hfs
    cases hsingle hfs
  · rintro t fs ⟨⟩
  · intro t fs hfs f hf
    rw [hsingle hfs, List.mem_singleton] at hf
    rw [hf]
    trivial
  · intro t members results fs hfs
    cases hsingle hfs
  · rintro t v members results fs ⟨⟩

/-- In every machine that can be reached only tasks that were hit are stopped. -/
theorem Runs.spared (h : w.Runs work m) : ∃ parent hit, m.Spared parent hit := by
  refine h.invariant (P := fun m => ∃ parent hit, m.Spared parent hit)
    ⟨_, _, h.fresh.spared work⟩ ?_
  rintro m m' hm hstep ⟨parent, hit, hspared⟩
  exact hspared.step hm.sound hstep

end World

namespace TestSetup

variable {setup : TestSetup} {g : Generator} {m : Machine}

/-- At the beginning of a test nobody is hit, and nobody waits. -/
theorem spared_machine (setup : TestSetup) (g : Generator) :
    (setup.machine g).Spared (fun _ => 0) fun _ => False :=
  (setup.fresh g).spared .script

/-- In every machine that can be reached only tasks that were hit are stopped. -/
theorem Reaches.spared (h : setup.Reaches g m) : ∃ parent hit, m.Spared parent hit := h.runs.spared

end TestSetup

end HotSpec
