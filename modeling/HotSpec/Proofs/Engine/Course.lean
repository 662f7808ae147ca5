import HotSpec.Proofs.Engine.Ended

/-!
# Courses of events

A machine makes its steps by itself.  Besides, somebody outside may cancel one of its tasks at any time
between two turns, as often as they like.  Neither touches the frames of a task that has no turn, so all
that is known of tasks, of those that they wait for and of those that have ended holds in any case.

Main definitions:

- `Machine.Happens`: a step, or a task that is cancelled from outside.
- `Machine.Course`: whatever comes about in turn.
- `Machine.Tidy`: the invariants that hold in any case.

Main results:

- Theorem `leaves_cancel`: a cancellation from outside leaves all frames.
- Theorem `Course.tidy`: what comes about keeps the invariants.
- Theorem `Course.never_current`: a task that has ended has no turn any more.
-/

namespace HotSpec

namespace Machine

variable {m m' : Machine} {t u : TaskId} {i : FutureId} {o : Outcome}

/-- What may happen to a machine: it makes a step, or a task is cancelled from outside between two
turns. -/
inductive Happens (m : Machine) : Machine → Prop
  | step {m₁ : Machine} (h : m.step = some m₁) : Happens m m₁
  | cancel {i : FutureId} {u : TaskId} (hidle : m.current = none)
      (hk : m.world.scheduler.kind i = .task u) :
      Happens m ⟨m.world.withScheduler fun s => (s.cancel i).2, none⟩

/-- A machine after whatever may have happened to it. -/
def Course : Machine → Machine → Prop := Relation.ReflTransGen Happens

theorem Course.refl (m : Machine) : m.Course m := Relation.ReflTransGen.refl

theorem Course.trans {m₁ m₂ m₃ : Machine} (h₁ : m₁.Course m₂) (h₂ : m₂.Course m₃) : m₁.Course m₃ :=
  Relation.ReflTransGen.trans h₁ h₂

theorem Happens.course (h : m.Happens m') : m.Course m' := Relation.ReflTransGen.single h

theorem Steps.course (h : m.Steps m') : m.Course m' :=
  Relation.ReflTransGen.mono (fun _ _ hstep => Happens.step hstep) _ _ h

/-- As long as a task has its turn, nothing happens but its next step. -/
theorem Course.after {m₁ : Machine} (h : m.Course m') {c : TaskId × Control}
    (hcurrent : m.current = some c) (hstep : m.step = some m₁) (hne : m' ≠ m) : m₁.Course m' := by
  rcases h.cases_head with heq | ⟨m₂, hfirst, hrest⟩
  · exact absurd heq.symm hne
  · cases hfirst with
    | step hstep' =>
        cases hstep.symm.trans hstep'
        exact hrest
    | cancel hidle => cases hidle.symm.trans hcurrent

/-! ## Cancellations -/

/-- A cancellation is made of steps on tasks that it reaches. -/
theorem Sound.cancelSteps (hm : m.Sound) (hk : m.world.scheduler.kind i = .task u) :
    Scheduler.CancelSteps (fun v => ∃ f ∈ [i], m.world.scheduler.Below f v) m.world.scheduler
      (m.world.scheduler.cancel i).2 := by
  have hmember : ∀ f ∈ [i], (m.world.scheduler.kind f).isMember = true := by
    intro f hf
    rw [List.mem_singleton.mp hf, hk]
    rfl
  exact Scheduler.cancelSteps_below hm.threads hm.groups hmember

/-- A cancellation from outside leaves all frames. -/
theorem leaves_cancel (hm : m.Sound) (hidle : m.current = none)
    (hk : m.world.scheduler.kind i = .task u) :
    m.Leaves ⟨m.world.withScheduler fun s => (s.cancel i).2, none⟩ := by
  have hgrows := Scheduler.Grows.cancel (hm.cancelSteps hk) hm.threads
  refine ⟨.inl hidle, fun v => ?_, hgrows.toExtends, .refl _, ⟨[], rfl, by simp⟩, by rintro t c ⟨⟩,
    fun v => ?_, by rintro t o fs ⟨⟩, by rintro t c g ⟨⟩, fun f v hf => .inl (hgrows.ended f v hf), ?_⟩
  · rw [frames_idle hidle, frames_idle rfl]
    exact stack?_of_grows hgrows v
  · rw [if_neg (by simp)]
    exact hgrows.awaiting v
  · intro f v o _ _ hcurrent
    cases hidle.symm.trans hcurrent

/-! ## Invariants -/

/-- What holds of a machine whatever may have happened to it. -/
structure Tidy (m : Machine) : Prop where
  sound : m.Sound
  kin : ∃ parent, m.Kin parent
  gathers : m.Gathers
  retires : m.Retires

theorem Tidy.step (h : m.Tidy) (hstep : m.step = some m') : m'.Tidy := by
  obtain ⟨parent, hkin⟩ := h.kin
  have hkin' : ∃ parent', m'.Kin parent' := by
    rcases h.sound.moves_or_rests hstep with ⟨t, head, stack, turn, new, w', hmoves⟩ | hrests
    · exact ⟨_, hkin.moves h.sound hmoves⟩
    · exact ⟨parent, hkin.leaves h.sound hrests.toLeaves⟩
  exact ⟨h.sound.step hstep, hkin', h.gathers.step h.sound hkin hstep, h.retires.step h.sound hstep⟩

theorem Tidy.cancel (h : m.Tidy) (hidle : m.current = none) (hk : m.world.scheduler.kind i = .task u) :
    Tidy ⟨m.world.withScheduler fun s => (s.cancel i).2, none⟩ := by
  obtain ⟨parent, hkin⟩ := h.kin
  have hsteps := h.sound.cancelSteps hk
  have hleaves := leaves_cancel h.sound hidle hk
  have hsound := h.sound.leaves hleaves (hsteps.threads (h.sound.threads_idle hidle))
    (hsteps.groups h.sound.groups) (h.sound.signals.mono hleaves.grows rfl rfl rfl) (by rintro t c ⟨⟩)
  refine ⟨hsound, ⟨parent, hkin.leaves h.sound hleaves⟩, h.gathers.leaves h.sound hsound hleaves, ?_⟩
  intro v hv
  refine ⟨by simp, ?_⟩
  -- A task that has ended might as well have its turn, and a cancellation does not take that from it.
  have hlt : v < m.world.scheduler.tasks.length := by
    have hlt := lt_of_endOf hv
    rwa [hleaves.grows.tasks] at hlt
  obtain ⟨j, hj⟩ := h.sound.exists_ending hlt
  have hold : m.endOf v ≠ none := by
    rw [hsound.endOf_eq (hleaves.grows.task hj)] at hv
    rw [h.sound.endOf_eq hj]
    rcases hleaves.ended j v hj with hsame | ⟨o, hcurrent, -⟩
    · rwa [hsame] at hv
    · cases hidle.symm.trans hcurrent
  have hbusy := h.sound.threads.of_nowhere hlt (h.retires v hold).2
  exact (hsteps.threads hbusy).nowhere

/-- Whatever happens keeps the invariants. -/
theorem Happens.tidy (h : m.Happens m') (hm : m.Tidy) : m'.Tidy := by
  cases h with
  | step hstep => exact hm.step hstep
  | cancel hidle hk => exact hm.cancel hidle hk

theorem Course.tidy (h : m.Course m') (hm : m.Tidy) : m'.Tidy := by
  induction h with
  | refl => exact hm
  | tail _ hlast ih => exact hlast.tidy ih

/-! ## What stays -/

/-- Whatever happens is a step by a rule, or leaves all frames. -/
theorem Happens.moves_or_leaves (h : m.Happens m') (hm : m.Sound) :
    (∃ t head stack turn new w', m.Moves t head stack turn new w' m') ∨ m.Leaves m' := by
  cases h with
  | step hstep => exact (hm.moves_or_rests hstep).imp_right Rests.toLeaves
  | cancel hidle hk => exact .inr (leaves_cancel hm hidle hk)

/-- Whatever happens, futures and tasks stay what they are. -/
theorem Course.grows (h : m.Course m') (hm : m.Tidy) :
    ∃ more, m.world.scheduler.Extends more m'.world.scheduler := by
  induction h with
  | refl => exact ⟨0, (Scheduler.Grows.refl _).toExtends⟩
  | @tail m₁ m₂ hfirst hlast ih =>
      obtain ⟨more, hgrows⟩ := ih
      rcases hlast.moves_or_leaves (Course.tidy hfirst hm).sound with
        ⟨t, head, stack, turn, new, w', hmoves⟩ | hleaves
      · exact ⟨_, hgrows.trans hmoves.grows⟩
      · exact ⟨_, hgrows.trans hleaves.grows⟩

/-- A task that has ended stays so. -/
theorem Course.endOf (h : m.Course m') (hm : m.Tidy) (hu : m.endOf u = some o) : m'.endOf u = some o := by
  obtain ⟨more, hgrows⟩ := h.grows hm
  obtain ⟨i, hk⟩ := hm.sound.exists_ending (lt_of_endOf (by rw [hu]; simp))
  rw [hm.sound.endOf_eq hk] at hu
  rw [(h.tidy hm).sound.endOf_eq (hgrows.task hk)]
  exact hgrows.settled i o hu

/-- A task that has ended has no turn any more. -/
theorem Course.never_current (h : m.Course m') (hm : m.Tidy) (hu : m.endOf u ≠ none) :
    m'.current.map Prod.fst ≠ some u := by
  obtain ⟨o, ho⟩ := Option.ne_none_iff_exists'.mp hu
  refine ((h.tidy hm).retires u ?_).1
  rw [h.endOf hm ho]
  simp

end Machine

/-- Every machine that can be reached is tidy. -/
theorem World.Runs.tidy {w : World} {work : Work} {m : Machine} (h : w.Runs work m) : m.Tidy := by
  obtain ⟨parent, hit, hspared⟩ := h.spared
  exact ⟨h.sound, ⟨parent, hspared.toKin⟩, h.gathers, h.retires⟩

end HotSpec
