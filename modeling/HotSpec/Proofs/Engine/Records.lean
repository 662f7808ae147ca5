import HotSpec.Proofs.Engine.Sound

/-!
# What is recorded

Every event is recorded by certain steps only, so that the history of a run tells what the run has
done.  Lines of the log, failures and what scripts yield are recorded by any step.

Main definition:

- `Event.isOf`: whether what is done at a head may record an event.

Main results:

- Theorem `Rule.records`: rules record nothing but events of their heads.
- Theorem `Moves.mem_events`: what a step has added to the events.
-/

namespace HotSpec

/-- Whether what is done at a head may record an event. -/
def Event.isOf : Event → Head → Bool
  | .log _, _ | .failed _, _ | .yielded .., _ => true
  | .handled .., .work (.process ..) => true
  | .opened _, .frame (.reset _) (.value _) => true
  | .ready, .work (.inPage _) => true
  | .popped _, .work (.drain ..) | .writing _, .work (.drain ..) => true
  | .writing label, .frame (.changed label') (.value _) => label = label'
  | .settled label, .frame (.written _ _ label' _) (.value _) => label = label'
  | .asserting label, .work (.verify label' _ .before) => label = label'
  | .asserted label missed, .frame (.asserted _ _ label') o =>
      label = label' ∧ missed = !o.isValue
  | .passed, .frame .raced (.value _) | .halted _, .frame .raced (.fault _) => true
  | _, _ => false

theorem Event.isOf_of_minor {e : Event} (h : e.isMinor = true) (head : Head) :
    e.isOf head = true := by
  cases e <;> first | rfl | cases h

namespace World

variable {w w' w₁ w₂ w₃ : World} {head : Head}

/-- Whether a world has recorded nothing but events of a head since another one. -/
def Records (head : Head) (w w' : World) : Prop :=
  ∃ new, w'.history = new ++ w.history ∧ ∀ e ∈ new, e.isOf head = true

theorem Records.refl (head : Head) (w : World) : w.Records head w := ⟨[], rfl, by simp⟩

theorem Records.of_history (h : w'.history = w.history) : w.Records head w' := ⟨[], h, by simp⟩

theorem Records.trans (h₁ : w₁.Records head w₂) (h₂ : w₂.Records head w₃) :
    w₁.Records head w₃ := by
  obtain ⟨new₁, hnew₁, hof₁⟩ := h₁
  obtain ⟨new₂, hnew₂, hof₂⟩ := h₂
  refine ⟨new₂ ++ new₁, by rw [hnew₂, hnew₁, List.append_assoc], ?_⟩
  intro e he
  rcases List.mem_append.mp he with he | he
  · exact hof₂ e he
  · exact hof₁ e he

theorem Records.one {e : Event} (h : e.isOf head = true) (hhistory : w'.history = e :: w.history) :
    w.Records head w' := ⟨[e], hhistory, by simpa using h⟩

theorem Records.of_steady (h : w.Steady w') : w.Records head w' := by
  obtain ⟨new, hnew, hminor⟩ := h.history
  exact ⟨new, hnew, fun e he => Event.isOf_of_minor (hminor e he) head⟩

end World

variable {head : Head} {w w' : World} {turn : Turn}

theorem Asks.records (h : Asks head w turn w') : w.Records head w' := by
  cases h with
  | start => exact .one (e := .log _) rfl rfl
  | opened => exact .one (e := .opened _) rfl rfl
  | together hsubs hrun =>
      refine .of_history ?_
      rw [World.spawnAll_world hrun]
      rfl
  | _ => exact .of_history rfl

/-- Rules record nothing but events of their heads. -/
theorem Rule.records (h : Rule head w turn w') : w.Records head w' := by
  cases h with
  | asks h => exact h.records
  | reply r hhead h => exact .of_steady h.steady
  | pass hf h => exact .of_steady h.steady
  | call hcall h => exact .of_steady h.steady
  | resume h => exact .of_steady h.steady
  | answered r hp hy hc h => exact (World.Records.one rfl rfl).trans (.of_steady h.steady)
  | commanded hp hy hcall h => exact (World.Records.one rfl rfl).trans (.of_steady h.steady)
  | discarded hp hy hc => exact .one rfl rfl
  | met hsettled => exact .of_steady (w.steady_unhearing _)
  | unheard => exact .of_steady (w.steady_unhearing _)
  | @raced o =>
      cases o with
      | value v => exact .one rfl rfl
      | fault f => exact .one rfl rfl
      | stopped => exact .refl _ w
  | load h => exact .of_steady h.steady
  | ready hlabel h => exact .one rfl rfl
  | checked hlabel h => exact .one rfl rfl
  | unchecked f hlabel h hother => exact .one rfl rfl
  | popped h => exact .one rfl rfl
  | @writing until? last label e queue _ h =>
      have hpop : w.Records (.work (.drain until? false last)) (w.popping label queue) :=
        .one rfl rfl
      exact hpop.trans (.one rfl rfl)
  | written => exact .one (by simp [Event.isOf]) rfl
  | verifyHook => exact .one (by simp [Event.isOf]) rfl
  | verify h => exact .one (by simp [Event.isOf]) rfl
  | assertedLast => exact .one (by simp [Event.isOf, Outcome.isValue]) rfl
  | assertedNext h => exact .one (by simp [Event.isOf, Outcome.isValue]) rfl
  | @assertedNot _ _ _ o _ h =>
      refine .one ?_ rfl
      cases o with
      | value v => exact absurd rfl (h v)
      | _ => simp [Event.isOf, Outcome.isValue]
  | changed h => exact .one (by simp [Event.isOf]) rfl
  | _ => exact .refl _ w

namespace Machine

variable {m m' : Machine} {t : TaskId} {stack : List Frame} {new : List (List Frame)}

/-- What a step has added to the events. -/
theorem Moves.mem_events (h : m.Moves t head stack turn new w' m') {e : Event}
    (he : e ∈ m'.world.events) : e ∈ m.world.events ∨ e.isOf head = true := by
  obtain ⟨added, hadded, hof⟩ := h.rule.records
  unfold World.events at he ⊢
  rw [List.mem_reverse, h.history, hadded] at he
  rcases List.mem_append.mp he with he | he
  · exact .inr (hof e he)
  · exact .inl (List.mem_reverse.mpr he)

/-- A step that leaves all frames adds nothing but minor events. -/
theorem Rests.mem_events (h : m.Rests m') {e : Event} (he : e ∈ m'.world.events) :
    e ∈ m.world.events ∨ e.isMinor = true := by
  obtain ⟨added, hadded, hminor⟩ := h.history
  unfold World.events at he ⊢
  rw [List.mem_reverse, hadded] at he
  rcases List.mem_append.mp he with he | he
  · exact .inr (hminor e he)
  · exact .inl (List.mem_reverse.mpr he)

/-- What has happened has happened. -/
theorem Sound.events_mono (hm : m.Sound) (hstep : m.step = some m') {e : Event}
    (he : e ∈ m.world.events) : e ∈ m'.world.events := by
  have hmem : e ∈ m.world.history := List.mem_reverse.mp he
  refine List.mem_reverse.mpr ?_
  rcases hm.moves_or_rests hstep with ⟨t, head, stack, turn, new, w', hmoves⟩ | hrests
  · obtain ⟨added, hadded, -⟩ := hmoves.rule.records
    rw [hmoves.history, hadded]
    exact List.mem_append_right _ hmem
  · obtain ⟨added, hadded, -⟩ := hrests.history
    rw [hadded]
    exact List.mem_append_right _ hmem

theorem Steps.events_mono (hm : m.Sound) (h : m.Steps m') {e : Event}
    (he : e ∈ m.world.events) : e ∈ m'.world.events := by
  refine (Steps.invariant (P := fun m => m.Sound ∧ e ∈ m.world.events) h ⟨hm, he⟩ ?_).2
  rintro m₁ m₂ hstep ⟨hsound, hmem⟩
  exact ⟨hsound.step hstep, hsound.events_mono hstep hmem⟩

end Machine

end HotSpec
