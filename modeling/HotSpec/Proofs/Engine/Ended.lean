import HotSpec.Proofs.Engine.Gathering

/-!
# Tasks that have ended

A task has ended once all its frames are done, and it stays so: it never gets another turn.  Nor is a
task stopped that has its turn: whoever is cancelled learns of it at the beginning of a turn.

Main definitions:

- `Machine.endOf`: how a task has ended, if it has.
- `Scheduler.Nowhere`: a task that neither waits nor is due for a turn.
- `Machine.Retires`, `Machine.Unhurt`: the invariants.

Main results:

- Theorem `Steps.grows`: what was made in a run stays there.
- Theorem `Sound.endOf_step`: a task ends by a step at which its frames are done.
- Theorem `Retires.step`: a task that has ended has no turn any more.
- Theorem `Runs.unhurt`: a task that has its turn is not going to be stopped.
-/

namespace HotSpec

/-! ## Places -/

namespace Scheduler

variable {Stack Job : Type} {s s' : Scheduler Stack Job} {busy : Option TaskId} {t u : TaskId}

/-- Whether a task waits for nothing and is not due for a turn. -/
structure Nowhere (s : Scheduler Stack Job) (u : TaskId) : Prop where
  awaiting : s.awaiting u = none
  turns : ∀ w, (u, w) ∉ s.turns

theorem Threads.nowhere (h : s.Threads (some u)) : s.Nowhere u :=
  ⟨(h.busy u rfl).1, (h.busy u rfl).2.2⟩

/-- A task that is nowhere might as well have its turn. -/
theorem Threads.of_nowhere (h : s.Threads busy) (hlt : u < s.tasks.length) (hu : s.Nowhere u) :
    s.Threads (some u) := by
  refine { h with busy := ?_ }
  rintro t ⟨⟩
  exact ⟨hu.awaiting, hlt, hu.turns⟩

theorem Nowhere.takes {handle : Handle Job} (h : s.Nowhere u) (ht : s.Takes handle s') :
    s'.Nowhere u where
  awaiting := (ht.awaiting u).trans h.awaiting
  turns w hw := h.turns w (ht.turns.mem_iff.mpr (List.mem_append_right _ hw))

theorem Nowhere.beginTurn [Inhabited Stack] {o : Outcome} {given : Stack × Outcome}
    (h : s.Nowhere u) (hbegin : s.beginTurn t o = some (given, s')) : s'.Nowhere u where
  awaiting := by
    obtain ⟨-, -, hawaiting, -⟩ := beginTurn_spec hbegin
    rw [hawaiting]
    split
    · rfl
    · exact h.awaiting
  turns := by
    obtain ⟨task, -, heq⟩ := Option.map_eq_some_iff.mp hbegin
    cases heq
    exact h.turns

theorem Nowhere.pause (h : s.Nowhere u) (hut : u ≠ t) (stack : Stack) : (s.pause t stack).Nowhere u where
  awaiting := (awaiting_pause t stack u).trans h.awaiting
  turns := by
    unfold Scheduler.pause
    split
    · exact h.turns
    · next task htask =>
        intro w hw
        unfold Scheduler.turns at hw
        rw [handles_enqueue, List.filterMap_append] at hw
        rcases List.mem_append.mp hw with hw | hw
        · exact h.turns w hw
        · cases List.mem_singleton.mp hw
          exact hut rfl

theorem Nowhere.park (h : s.Nowhere u) (hut : u ≠ t) (ht : t < s.tasks.length) {f : FutureId}
    (hopen : s.outcome? f = none) (stack : Stack) : (s.park t f stack).Nowhere u where
  awaiting := by
    rw [awaiting_park ht, if_neg hut]
    exact h.awaiting
  turns := by
    obtain ⟨task, htask⟩ := exists_task ht
    unfold Scheduler.park
    rw [htask]
    intro w hw
    have hhandles := handles_watch (s := s) f (.task t)
    rw [if_pos hopen, List.append_nil] at hhandles
    refine h.turns w ?_
    unfold Scheduler.turns at hw ⊢
    rw [← hhandles]
    exact hw

theorem stopping_beginTurn [Inhabited Stack] {o : Outcome} {given : Stack × Outcome}
    (hbegin : s.beginTurn t o = some (given, s')) : s'.stopping t = false := by
  obtain ⟨task, htask, heq⟩ := Option.map_eq_some_iff.mp hbegin
  cases heq
  unfold Scheduler.stopping
  rw [task?_setTask _ (lt_of_task htask), if_pos rfl]
  rfl

end Scheduler

namespace Machine

variable {parent : TaskId → TaskId} {m m' : Machine} {head : Head} {stack : List Frame} {turn : Turn}
  {new : List (List Frame)} {w' : World} {t u : TaskId} {o : Outcome}

/-! ## Ends -/

theorem Steps.sound (h : m.Steps m') (hm : m.Sound) : m'.Sound :=
  h.invariant hm fun _ _ hstep hm => hm.step hstep

/-- Whatever a run does, futures and tasks stay what they are. -/
theorem Steps.grows (h : m.Steps m') (hm : m.Sound) :
    ∃ more, m.world.scheduler.Extends more m'.world.scheduler := by
  induction h with
  | refl => exact ⟨0, (Scheduler.Grows.refl _).toExtends⟩
  | @tail m₁ m₂ hfirst hlast ih =>
      obtain ⟨more, hgrows⟩ := ih
      have hm₁ : m₁.Sound := Steps.sound hfirst hm
      rcases hm₁.moves_or_rests hlast with ⟨t, head, stack, turn, new, w', hmoves⟩ | hrests
      · exact ⟨_, hgrows.trans hmoves.grows⟩
      · exact ⟨_, hgrows.trans hrests.grows⟩

/-- How a task has ended, if it has. -/
def endOf (m : Machine) (u : TaskId) : Option Outcome :=
  (m.world.scheduler.ending? u).bind m.world.scheduler.outcome?

theorem Sound.endOf_eq (hm : m.Sound) {i : FutureId} (hk : m.world.scheduler.kind i = .task u) :
    m.endOf u = m.world.scheduler.outcome? i := by
  unfold endOf
  rw [(hm.threads.ending u i).mpr hk]
  rfl

/-- A task that there is has a future of its end. -/
theorem Sound.exists_ending (hm : m.Sound) (hu : u < m.world.scheduler.tasks.length) :
    ∃ i, m.world.scheduler.kind i = .task u := by
  obtain ⟨task, htask⟩ := Scheduler.exists_task hu
  refine ⟨task.future, (hm.threads.ending u _).mp ?_⟩
  unfold Scheduler.ending?
  rw [htask]
  rfl

theorem lt_of_endOf (h : m.endOf u ≠ none) : u < m.world.scheduler.tasks.length := by
  by_contra hu
  refine h ?_
  unfold endOf Scheduler.ending? Scheduler.task?
  rw [List.getElem?_eq_none (Nat.not_lt.mp hu)]
  rfl

/-- A task that has something to go on with has not ended. -/
theorem Gathers.endOf_of_frames (h : m.Gathers) (hm : m.Sound) {f : Frame} {fs : List Frame}
    (hfs : m.frames u = some (f :: fs)) : m.endOf u = none := by
  obtain ⟨i, hk⟩ := hm.exists_ending (hm.lt_of_frames hfs)
  rw [hm.endOf_eq hk]
  exact h.running u f fs i hfs hk

/-- A task ends by a step at which its frames are done. -/
theorem Sound.endOf_step (hm : m.Sound) (hstep : m.step = some m') (u : TaskId) :
    m'.endOf u = m.endOf u ∨ ∃ o, m.current = some (u, .outcome o []) ∧ m'.endOf u = some o := by
  have hm' := hm.step hstep
  have hold {more : Nat} (hgrows : m.world.scheduler.Extends more m'.world.scheduler)
      (hu : u < m.world.scheduler.tasks.length) : ∃ i, m.world.scheduler.kind i = .task u ∧
        m.endOf u = m.world.scheduler.outcome? i ∧ m'.endOf u = m'.world.scheduler.outcome? i := by
    obtain ⟨i, hk⟩ := hm.exists_ending hu
    exact ⟨i, hk, hm.endOf_eq hk, hm'.endOf_eq (hgrows.task hk)⟩
  by_cases hu : u < m.world.scheduler.tasks.length
  · rcases hm.moves_or_rests hstep with ⟨t, head, stack, turn, new, w', hmoves⟩ | hrests
    · obtain ⟨i, hk, hend, hend'⟩ := hold hmoves.grows hu
      rw [hend, hend']
      exact .inl (hmoves.ended i u hk)
    · obtain ⟨i, hk, hend, hend'⟩ := hold hrests.grows hu
      rw [hend, hend']
      exact hrests.ended i u hk
  · have hnone : m.endOf u = none := by
      by_contra hsome
      exact hu (lt_of_endOf hsome)
    rw [hnone]
    refine .inl ?_
    by_contra hsome
    have hu' := lt_of_endOf hsome
    obtain ⟨i, hk⟩ := hm'.exists_ending hu'
    rcases hm.moves_or_rests hstep with ⟨t, head, stack, turn, new, w', hmoves⟩ | hrests
    · rw [hm'.endOf_eq hk] at hsome
      exact hsome (hmoves.spawned hm hk (Nat.not_lt.mp hu)).1
    · rw [hrests.grows.tasks] at hu'
      exact hu hu'

/-! ## Tasks that are done -/

/-- Whether tasks that have ended neither have their turn nor get one. -/
def Retires (m : Machine) : Prop :=
  ∀ u, m.endOf u ≠ none → m.current.map Prod.fst ≠ some u ∧ m.world.scheduler.Nowhere u

/-- A task stays nowhere while another one ends its turn. -/
theorem nowhere_follow {w : World} (h : w.scheduler.Nowhere u) (hut : u ≠ t)
    (ht : t < w.scheduler.tasks.length) : (follow t stack turn w).world.scheduler.Nowhere u := by
  cases turn with
  | give o | call work frames => exact h
  | pause frames => exact h.pause hut _
  | await f frames =>
      cases houtcome : w.scheduler.outcome? f with
      | none =>
          simp only [follow, houtcome]
          exact h.park hut ht houtcome _
      | some o =>
          simp only [follow, houtcome]
          exact h

/-- Every step keeps the invariant. -/
theorem Retires.step (h : m.Retires) (hm : m.Sound) (hstep : m.step = some m') : m'.Retires := by
  intro u hu
  have hchange := hm.change hstep
  rcases hm.endOf_step hstep u with hsame | ⟨o, hcurrent, -⟩
  · rw [hsame] at hu
    obtain ⟨hother, hnowhere⟩ := h u hu
    -- Whatever is done, it might be done while the task that has ended has its turn.
    have hbusy := hm.threads.of_nowhere (lt_of_endOf hu) hnowhere
    cases hchange with
    | @rule t head stack turn w' new hcurrent hrule hspawns hserved =>
        have hut : u ≠ t := by
          rintro rfl
          exact hother (by rw [hcurrent]; rfl)
        have hmoves := moves_of_rule hcurrent hrule hspawns hserved
        obtain ⟨_, -, hserved'⟩ := World.served_rule hrule hbusy hm.groups hm.signals
          (hm.frames t _ hmoves.before _ (List.mem_cons_self ..))
        refine ⟨?_, nowhere_follow hserved'.threads.nowhere hut (hserved.threads.busy t rfl).2.1⟩
        rw [hmoves.next]
        cases turn.control stack with
        | none => simp
        | some c => exact fun heq => hut (Option.some.inj heq).symm
    | @finish t o hcurrent =>
        refine ⟨by simp, ?_⟩
        change (m.world.scheduler.finish t o).Nowhere u
        unfold Scheduler.finish
        split
        · exact hnowhere
        · exact (hbusy.settle _ o).nowhere
    | @turn handle t wait o given s₁ s₂ hidle htakes hturn hwait hnone hbegin =>
        refine ⟨?_, (hnowhere.takes htakes).beginTurn hbegin⟩
        rintro heq
        cases Option.some.inj heq
        have hmem : handle ∈ m.world.scheduler.handles :=
          htakes.perm.mem_iff.mpr (List.mem_cons_self ..)
        exact hnowhere.turns wait (List.mem_filterMap.mpr ⟨handle, hmem, hturn⟩)
    | told hidle htakes => exact ⟨by simp, ((hbusy.takes htakes rfl).tell _ _).nowhere⟩
    | release hidle htakes => exact ⟨by simp, ((hbusy.takes htakes rfl).release _).nowhere⟩
    | @job job s₁ w' hidle htakes hsteady =>
        have hsignals : ({ m.world with scheduler := s₁ } : World).Signals :=
          hm.signals.mono (extends_takes htakes) rfl rfl rfl
        have hsteps := hsteady.scheduler hsignals
        exact ⟨by simp, (hsteps.threads (hbusy.takes htakes rfl)).nowhere⟩
  · -- The task ends by this very step.
    have hbusy := hm.threads_current hcurrent
    cases hchange with
    | rule hcurrent' hrule hspawns hserved =>
        exact absurd hcurrent (by rw [hcurrent']; cases ‹Head› <;> simp [Head.control])
    | @finish t o' hcurrent' =>
        cases hcurrent.symm.trans hcurrent'
        refine ⟨by simp, ?_⟩
        change (m.world.scheduler.finish u o).Nowhere u
        unfold Scheduler.finish
        split
        · exact hbusy.nowhere
        · exact (hbusy.settle _ o).nowhere
    | turn hidle | told hidle | release hidle | job hidle => cases hidle.symm.trans hcurrent

/-! ## Turns -/

/-- Whether the task that has its turn is not going to be stopped, nor was. -/
def Unhurt (m : Machine) : Prop :=
  ∀ t c, m.current = some (t, c) → m.world.scheduler.Calm fun u => u ≠ t

/-- A task that begins a turn is told then if it is to be stopped. -/
theorem Change.stopping (h : m.Change m') (hidle : m.current = none) {c : Control}
    (hcurrent : m'.current = some (t, c)) : m'.world.scheduler.stopping t = false := by
  cases h with
  | rule hcurrent' | finish hcurrent' => cases hidle.symm.trans hcurrent'
  | turn _ htakes hturn hwait hnone hbegin =>
      cases hcurrent
      exact Scheduler.stopping_beginTurn hbegin
  | told | release | job => cases hcurrent

/-- Every step keeps the invariant: who cancels others cancels those that come after it. -/
theorem Unhurt.step (h : m.Unhurt) (hm : m.Sound) (hkin : m.Kin parent) (hretires : m'.Retires)
    (hstep : m.step = some m') : m'.Unhurt := by
  intro t c hcurrent'
  have hm' := hm.step hstep
  rcases hm.moves_or_rests hstep with ⟨u, head, stack, turn, new, w', hmoves⟩ | hrests
  · have hut : u = t := by
      have hnext := hmoves.next.symm.trans hcurrent'
      obtain ⟨c', -, heq⟩ := Option.map_eq_some_iff.mp hnext
      cases heq
      rfl
    subst hut
    have hcalm := h u _ hmoves.current
    have hcalm' : w'.scheduler.Calm fun v => v ≠ u := by
      rcases hmoves.waits hm with ⟨-, -, hquiet⟩ | ⟨f, frames, rfl, hawaits⟩
      · exact hquiet _ hcalm
      · cases hawaits with
        | timer _ hquiet | hears _ hquiet | unhears _ hquiet => exact hquiet _ hcalm
        | joins _ _ _ _ hquiet => exact hquiet _ hcalm
        | collects hopen _ hquiet =>
            refine hquiet _ hcalm ?_
            rintro i hi v hbelow rfl
            exact Nat.lt_irrefl _ (hkin.below hmoves.before (List.mem_cons_self ..)
              (List.mem_of_mem_filter hi) hbelow).1
    rw [hmoves.follows]
    refine calm_follow hcalm' ?_
    intro f frames hturn
    rw [hmoves.next, hturn] at hcurrent'
    cases hcurrent'
  · have hidle := (hrests.current t c hcurrent').1
    have hnowhere : m'.world.scheduler.awaiting t = none := by
      rw [hrests.awaiting, if_pos (by rw [hcurrent']; rfl)]
    refine ⟨?_, ?_, ?_, ?_⟩
    · rintro v i hk ho rfl
      refine (hretires v ?_).1 (by rw [hcurrent']; rfl)
      rw [hm'.endOf_eq hk, ho]
      simp
    · rintro v hv rfl
      rw [(hm.change hstep).stopping hidle hcurrent'] at hv
      cases hv
    · rintro v i hv - rfl
      cases hnowhere.symm.trans hv
    · rintro v i members left hv - rfl
      cases hnowhere.symm.trans hv

end Machine

/-! ## Runs -/

namespace World

variable {w : World} {work : Work} {m m' : Machine} {u : TaskId}

/-- Tasks that have ended are nowhere, in every machine that can be reached. -/
theorem Runs.retires (h : w.Runs work m) : m.Retires := by
  refine h.invariant ?_ fun m m' hm hstep hretires => hretires.step hm.sound hstep
  intro u hu
  have hgathers := (h.fresh.runs work).gathers
  have hm := h.fresh.sound work
  have hframes := h.fresh.frames work u
  by_cases hzero : u = 0
  · rw [if_pos hzero] at hframes
    exact absurd (hgathers.endOf_of_frames hm hframes) hu
  · obtain ⟨i, hk⟩ := hm.exists_ending (Machine.lt_of_endOf hu)
    have hopen : (Machine.ofWork w work).2.world.scheduler.outcome? i = none := by
      refine (Scheduler.outcome?_newFuture _ _).trans ?_
      rw [h.fresh.scheduler]
      simp [Scheduler.outcome?, Scheduler.future, Scheduler.empty, default]
    rw [hm.endOf_eq hk, hopen] at hu
    exact absurd rfl hu

/-- A task that has its turn is not going to be stopped, in every machine that can be reached. -/
theorem Runs.unhurt (h : w.Runs work m) : m.Unhurt := by
  refine h.invariant ?_ ?_
  · intro t c hcurrent
    exact (h.fresh.spared work).calm.mono fun _ hfalse => hfalse.elim
  · intro m m' hm hstep hunhurt
    obtain ⟨parent, hit, hspared⟩ := hm.spared
    exact hunhurt.step hm.sound hspared.toKin (hm.trans (.single hstep)).retires hstep

end World

end HotSpec
