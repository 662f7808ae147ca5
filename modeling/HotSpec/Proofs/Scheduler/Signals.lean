import HotSpec.Proofs.Scheduler.Calm

/-!
# Signals and timers

What may happen to a scheduler while a task has its turn, whatever the task does at once: signals
are settled and jobs are put off.

Main results:

- Theorem `SignalSteps.sameWaits`: nobody comes to wait for anything else.
- Theorems `SignalSteps.threads`, `SignalSteps.groups`, `SignalSteps.calm`: the scheduler stays sound.
-/

namespace HotSpec

namespace Scheduler

variable {Stack Job : Type} {s s' : Scheduler Stack Job} {hit : TaskId → Prop}

/-- A signal is settled, or a job is put off. -/
inductive SignalStep : Scheduler Stack Job → Scheduler Stack Job → Prop
  | settle {s f o} (h : s.kind f = .signal) : SignalStep s (s.settle f o)
  | after {s d job} : SignalStep s (s.after d (.job job))

/-- Signals are settled and jobs are put off. -/
def SignalSteps : Scheduler Stack Job → Scheduler Stack Job → Prop :=
  Relation.ReflTransGen SignalStep

theorem SignalSteps.refl (s : Scheduler Stack Job) : s.SignalSteps s := Relation.ReflTransGen.refl

theorem SignalStep.steps (h : s.SignalStep s') : s.SignalSteps s' := Relation.ReflTransGen.single h

theorem SignalSteps.trans {s₁ s₂ s₃ : Scheduler Stack Job} (h₁ : s₁.SignalSteps s₂)
    (h₂ : s₂.SignalSteps s₃) : s₁.SignalSteps s₃ := Relation.ReflTransGen.trans h₁ h₂

theorem SignalSteps.sameWaits (h : s.SignalSteps s') : s.SameWaits s' := by
  induction h with
  | refl => exact .refl s
  | tail _ hlast ih =>
      refine ih.trans ?_
      cases hlast with
      | settle hk => exact sameWaits_settle _ _ _
      | after => exact ⟨fun _ => rfl, fun _ => rfl, fun _ => rfl, fun _ => rfl, rfl, fun _ _ h => h⟩

theorem SignalSteps.kind (h : s.SignalSteps s') (f : FutureId) : s'.kind f = s.kind f := by
  induction h with
  | refl => rfl
  | tail _ hlast ih =>
      rw [← ih]
      cases hlast with
      | settle hk => exact kind_settle _ _ f
      | after => rfl

theorem SignalSteps.tasks (h : s.SignalSteps s') : s'.tasks = s.tasks := by
  induction h with
  | refl => rfl
  | tail _ hlast ih =>
      rw [← ih]
      cases hlast with
      | settle hk => exact tasks_settle _ _
      | after => rfl

/-- Nothing but signals is settled. -/
theorem SignalSteps.outcome? (h : s.SignalSteps s') {f : FutureId} (hf : s.kind f ≠ .signal) :
    s'.outcome? f = s.outcome? f := by
  induction h with
  | refl => rfl
  | tail hfirst hlast ih =>
      rw [← ih]
      cases hlast with
      | after => rfl
      | @settle g o hk =>
          rename_i s₁
          by_cases hopen : s₁.outcome? g = none ∧ g < s₁.futures.length
          · rw [outcome?_settle o hopen.1 hopen.2, if_neg]
            rintro rfl
            rw [SignalSteps.kind hfirst] at hk
            exact hf hk
          · rw [settle_of_settled hopen]

theorem SignalSteps.threads {busy : Option TaskId} (h : s.SignalSteps s')
    (hs : s.Threads busy) : s'.Threads busy := by
  induction h with
  | refl => exact hs
  | tail _ hlast ih =>
      cases hlast with
      | settle hk => exact ih.settle _ _
      | after => exact ih.after _ rfl

theorem SignalSteps.groups (h : s.SignalSteps s') (hs : s.Groups) : s'.Groups := by
  induction h with
  | refl => exact hs
  | tail _ hlast ih =>
      cases hlast with
      | settle hk => exact ih.settle_of_not_group (by rw [hk]; rfl) _
      | after => exact ih.after _ rfl

theorem SignalSteps.calm {busy : Option TaskId} (h : s.SignalSteps s') (hs : s.Threads busy)
    (hc : s.Calm hit) : s'.Calm hit := by
  induction h with
  | refl => exact hc
  | tail hfirst hlast ih =>
      cases hlast with
      | settle hk => exact ih.settle_signal (SignalSteps.threads hfirst hs) hk _
      | after => exact ih.of_eq rfl rfl

end Scheduler

end HotSpec
