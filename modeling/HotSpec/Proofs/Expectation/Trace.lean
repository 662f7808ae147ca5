import HotSpec.Proofs.Engine.Records

/-!
# What rules do to the pending expectations

The history of a world, seen by the events that matter for its expectations, and the effect of every
rule on the pending ones and on these events.

Main definitions:

- `World.trace`: the events of a kind, in order.
- `World.popped`, `World.openings`, `World.discards`: labels that were taken, queues that were opened,
  and commands that dropped them.
- `QueueStep`: the five ways in which a rule treats the pending expectations.

Main result:

- Theorem `queueStep_rule`: every rule is one of these ways.
-/

namespace HotSpec

/-! ## Traces -/

namespace Event

/-- The label that was taken from the pending ones. -/
def popped? : Event → Option String
  | .popped label => some label
  | _ => none

/-- The labels that became pending. -/
def opened? : Event → Option (List String)
  | .opened labels => some labels
  | _ => none

/-- The command that has dropped all pending expectations. -/
def discard? : Event → Option Command
  | .handled .run c => if c.type = Command.discard.type then some c else none
  | _ => none

end Event

namespace World

variable {α : Type} {w w' : World}

/-- The events of a kind, in order. -/
def trace (f : Event → Option α) (w : World) : List α := w.events.filterMap f

/-- The labels that were taken from the pending ones. -/
def popped (w : World) : List String := w.trace Event.popped?

/-- The labels that became pending, by occasion. -/
def openings (w : World) : List (List String) := w.trace Event.opened?

/-- The commands that have dropped all pending expectations. -/
def discards (w : World) : List Command := w.trace Event.discard?

theorem trace_congr (f : Event → Option α) (h : w'.history = w.history) :
    w'.trace f = w.trace f := by
  unfold trace events
  rw [h]

theorem trace_record (f : Event → Option α) (e : Event) (h : w'.history = e :: w.history) :
    w'.trace f = w.trace f ++ (f e).toList := by
  unfold trace events
  rw [h, List.reverse_cons, List.filterMap_append]
  cases hf : f e <;> simp [hf]

/-- Nothing is traced of events that do not matter. -/
theorem trace_append (f : Event → Option α) {new : List Event}
    (h : w'.history = new ++ w.history) (hnew : ∀ e ∈ new, f e = none) :
    w'.trace f = w.trace f := by
  unfold trace events
  rw [h, List.reverse_append, List.filterMap_append]
  have hnone : new.reverse.filterMap f = [] := by
    rw [List.filterMap_eq_nil_iff]
    intro e he
    exact hnew e (List.mem_reverse.mp he)
  rw [hnone, List.append_nil]

end World

/-! ## Worlds with the same pending expectations -/

/-- A world with the same pending expectations, that were come by in the same way. -/
structure World.SameQueue (w w' : World) : Prop where
  pending : w'.session.pending = w.session.pending
  popped : w'.popped = w.popped
  openings : w'.openings = w.openings
  discards : w'.discards = w.discards
  /-- No label comes to be expected twice. -/
  expects : w.session.expects.keys.Nodup → w'.session.expects.keys.Nodup

namespace World.SameQueue

variable {w w₁ w₂ w₃ : World}

theorem refl (w : World) : w.SameQueue w := ⟨rfl, rfl, rfl, rfl, id⟩

theorem trans (h₁ : w₁.SameQueue w₂) (h₂ : w₂.SameQueue w₃) : w₁.SameQueue w₃ where
  pending := h₂.pending.trans h₁.pending
  popped := h₂.popped.trans h₁.popped
  openings := h₂.openings.trans h₁.openings
  discards := h₂.discards.trans h₁.discards
  expects h := h₂.expects (h₁.expects h)

/-- Minor events do not matter. -/
theorem of_minor (hsession : w₁.session.Keeps w₂.session)
    (h : ∃ new, w₂.history = new ++ w₁.history ∧ ∀ e ∈ new, e.isMinor = true) :
    w₁.SameQueue w₂ := by
  obtain ⟨new, hnew, hminor⟩ := h
  refine ⟨hsession.pending, trace_append _ hnew ?_, trace_append _ hnew ?_,
    trace_append _ hnew ?_, hsession.expects⟩ <;>
  · intro e he
    have hmem := hminor e he
    cases e <;> first | rfl | cases hmem

theorem of_steady (h : w₁.Steady w₂) : w₁.SameQueue w₂ := of_minor h.session h.history

/-- Other events do not matter either. -/
theorem record (w : World) {e : Event} (hpopped : e.popped? = none) (hopened : e.opened? = none)
    (hdiscard : e.discard? = none) : w.SameQueue (w.record e) := by
  refine ⟨rfl, ?_, ?_, ?_, id⟩
  · exact (trace_record _ e rfl).trans (by rw [hpopped]; exact List.append_nil _)
  · exact (trace_record _ e rfl).trans (by rw [hopened]; exact List.append_nil _)
  · exact (trace_record _ e rfl).trans (by rw [hdiscard]; exact List.append_nil _)

end World.SameQueue

/-! ## Rules -/

/-- What a rule does to the pending expectations. -/
inductive QueueStep : Head → World → Turn → World → Prop
  | same {head turn w w'} (h : w.SameQueue w') : QueueStep head w turn w'
  /-- All expectations become pending. -/
  | opens {first v turn w w'} (hpending : w'.session.pending = some w.session.expects)
      (hopenings : w'.openings = w.openings ++ [w.session.expects.keys])
      (hpopped : w'.popped = w.popped) (hdiscards : w'.discards = w.discards) :
      QueueStep (.frame (.reset first) (.value v)) w turn w'
  /-- The first pending expectation is taken. -/
  | pops {until? already last label e queue turn w w'}
      (h : w.session.pending = some ((label, e) :: queue))
      (hpending : w'.session.pending = some queue) (hpopped : w'.popped = w.popped ++ [label])
      (hopenings : w'.openings = w.openings) (hdiscards : w'.discards = w.discards) :
      QueueStep (.work (.drain until? already last)) w turn w'
  /-- A command drops all pending expectations. -/
  | discards {p y turn w w'} (hpending : w'.session.pending = none)
      (hdiscards : w'.discards ≠ []) (hpopped : w'.popped = w.popped)
      (hopenings : w'.openings = w.openings) : QueueStep (.work (.process p y)) w turn w'
  /-- The initial label is not the first one: all pending expectations are dropped. -/
  | refuses {first w w'} (f : Fault) (hpending : w'.session.pending = none)
      (hpopped : w'.popped = w.popped) (hopenings : w'.openings = w.openings)
      (hdiscards : w'.discards = w.discards) :
      QueueStep (.work (.inPage first)) w (.give (.fault f)) w'

theorem Commands.type_ne_discard {phase : Phase} {c : Command} {frames : List Frame}
    (h : Commands phase c frames) : c.type ≠ Command.discard.type := by
  cases h with
  | flush hc =>
      rw [hc]
      decide
  | _ => simp [Command.type]

theorem Event.discard?_handled {phase : Phase} {c : Command}
    (h : phase = .run → c.type ≠ Command.discard.type) :
    (Event.handled phase c).discard? = none := by
  cases phase with
  | prepare => rfl
  | run => exact if_neg (h rfl)

theorem World.sameQueue_handled (w : World) {phase : Phase} {c : Command}
    (h : phase = .run → c.type ≠ Command.discard.type) :
    w.SameQueue (w.record (.handled phase c)) :=
  .record w rfl rfl (Event.discard?_handled h)

/-- The start of the run phase leaves the pending expectations. -/
theorem World.sameQueue_starting (w : World) : w.SameQueue w.starting :=
  ⟨rfl, (trace_record _ _ rfl).trans (List.append_nil _),
    (trace_record _ _ rfl).trans (List.append_nil _),
    (trace_record _ _ rfl).trans (List.append_nil _), id⟩

/-- All expectations become pending when the page is about to be loaded. -/
theorem World.opens_racing (w : World) (first : Option Command) :
    (w.racing first).session.pending = some w.session.expects ∧
      (w.racing first).openings = w.openings ++ [w.session.expects.keys] ∧
      (w.racing first).popped = w.popped ∧ (w.racing first).discards = w.discards := by
  refine ⟨rfl, trace_record Event.opened? (.opened _) rfl, ?_, ?_⟩
  · exact (trace_record _ _ rfl).trans (List.append_nil _)
  · exact (trace_record _ _ rfl).trans (List.append_nil _)

theorem World.popped_popping (w : World) (label : String)
    (queue : List (String × Expectation)) :
    (w.popping label queue).popped = w.popped ++ [label] :=
  trace_record Event.popped? (.popped label) rfl

/-- What is asked of a scheduler leaves the pending expectations, except that they are opened. -/
theorem queueStep_asks {head : Head} {w w' : World} {turn : Turn} (h : Asks head w turn w') :
    QueueStep head w turn w' := by
  cases h with
  | sleep => exact .same ⟨rfl, rfl, rfl, rfl, id⟩
  | together hsubs hrun =>
      rw [World.spawnAll_world hrun]
      exact .same ⟨rfl, rfl, rfl, rfl, id⟩
  | cancelled hopen => exact .same ⟨rfl, rfl, rfl, rfl, id⟩
  | hear => exact .same ⟨rfl, rfl, rfl, rfl, id⟩
  | heard hopen => exact .same ⟨rfl, rfl, rfl, rfl, id⟩
  | start hstarted => exact .same w.sameQueue_starting
  | @opened first v =>
      obtain ⟨hpending, hopenings, hpopped, hdiscards⟩ := w.opens_racing first
      exact .opens hpending hopenings hpopped hdiscards

/-- Every rule treats the pending expectations in one of these ways. -/
theorem queueStep_rule {head : Head} {w w' : World} {turn : Turn} (h : Rule head w turn w') :
    QueueStep head w turn w' := by
  cases h with
  | asks h => exact queueStep_asks h
  | reply r hhead h => exact .same (.of_steady h.steady)
  | pass hf h => exact .same (.of_steady h.steady)
  | call hcall h => exact .same (.of_steady h.steady)
  | resume h => exact .same (.of_steady h.steady)
  | answered r hp hy hc h => exact .same ((w.sameQueue_handled hc).trans (.of_steady h.steady))
  | commanded hp hy hcall h =>
      exact .same ((w.sameQueue_handled fun _ => hcall.type_ne_discard).trans (.of_steady h.steady))
  | @discarded p y c _ hp hy hc =>
      refine .discards rfl ?_ ?_ ?_
      · have hevent : (Event.handled .run c).discard? = some c := if_pos hc
        intro hnil
        have htrace := (World.trace_record Event.discard? (.handled .run c) rfl).symm.trans hnil
        rw [hevent] at htrace
        simp at htrace
      · exact (World.trace_record _ _ rfl).trans (List.append_nil _)
      · exact (World.trace_record _ _ rfl).trans (List.append_nil _)
  | pause => exact .same (.refl w)
  | joined hopen => exact .same (.refl w)
  | collected => exact .same (.refl w)
  | met hsettled => exact .same (.of_steady (w.steady_unhearing _))
  | unheard => exact .same (.of_steady (w.steady_unhearing _))
  | @raced o =>
      cases o with
      | value v => exact .same (.record w rfl rfl rfl)
      | fault f => exact .same (.record w rfl rfl rfl)
      | stopped => exact .same (.refl w)
  | load h => exact .same (.of_steady h.steady)
  | ready hlabel h => exact .same (.record w rfl rfl rfl)
  | checked hlabel h => exact .same (.record w rfl rfl rfl)
  | unchecked f hlabel h hother =>
      have hready := World.SameQueue.record w (e := .ready) rfl rfl rfl
      exact .refuses f rfl hready.popped hready.openings hready.discards
  | drained h => exact .same (.refl w)
  | @popped until? last label e queue _ h =>
      refine .pops h rfl (w.popped_popping label queue) ?_ ?_
      · exact (World.trace_record _ _ rfl).trans (List.append_nil _)
      · exact (World.trace_record _ _ rfl).trans (List.append_nil _)
  | @writing until? last label e queue _ h =>
      have hwriting := World.SameQueue.record (w.popping label queue) (e := .writing label)
        rfl rfl rfl
      refine .pops h rfl ?_ ?_ ?_
      · exact hwriting.popped.trans (w.popped_popping label queue)
      · exact hwriting.openings.trans
          ((World.trace_record _ _ rfl).trans (List.append_nil _))
      · exact hwriting.discards.trans
          ((World.trace_record _ _ rfl).trans (List.append_nil _))
  | written => exact .same (.record w rfl rfl rfl)
  | verifyHook => exact .same (.record w rfl rfl rfl)
  | verify h => exact .same (.record w rfl rfl rfl)
  | assertedLast => exact .same (.record w rfl rfl rfl)
  | assertedNext h => exact .same (.record w rfl rfl rfl)
  | assertedNot h => exact .same (.record w rfl rfl rfl)
  | changed h => exact .same (.record w rfl rfl rfl)

end HotSpec
