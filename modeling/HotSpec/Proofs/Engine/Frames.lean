import HotSpec.Proofs.Engine.Steady
import HotSpec.Proofs.Scheduler.Turns

/-!
# The frames of tasks

What every task of a machine goes on with, whether it has its turn or not.  A step changes the frames
of one task only: it takes the first one and puts others in its place.

Main definitions:

- `Machine.frames`: the frames of a task.
- `Frame.isPlain`: whether a frame does not wait for anything.

Main results:

- Theorem `Rule.quiet_or_asks`: rules are quiet, or ask something of the scheduler.
- Theorem `frames_follow`: a step changes the frames of the task that has its turn.
-/

namespace HotSpec

/-! ## Frames -/

/-- The frames of a task that has its turn, with the work that is to be done. -/
def Control.frames : Control → List Frame
  | .work w stack => .begin w :: stack
  | .outcome _ stack => stack

/-- The frames that a step puts in the place of the first one. -/
def Turn.frames : Turn → List Frame
  | .give _ => []
  | .call w frames => .begin w :: frames
  | .await _ frames | .pause frames => frames

/-- The future that a turn ends at. -/
def Turn.future? : Turn → Option FutureId
  | .await f _ => some f
  | _ => none

/-- What a task is at after a step, if it still has its turn. -/
def Turn.control (turn : Turn) (stack : List Frame) : Option Control :=
  match turn with
  | .give o => some (.outcome o stack)
  | .call w frames => some (.work w (frames ++ stack))
  | .await .. | .pause _ => none

/-- The frame that a head is made of. -/
def Head.first : Head → Frame
  | .work w => .begin w
  | .frame f _ => f

@[simp]
theorem Head.frames_control (head : Head) (stack : List Frame) :
    (head.control stack).frames = head.first :: stack := by
  cases head <;> rfl

namespace Machine

/-- The frames of a task. -/
def frames (m : Machine) (t : TaskId) : Option (List Frame) :=
  match m.current with
  | some (u, c) => if t = u then some c.frames else m.world.scheduler.stack? t
  | none => m.world.scheduler.stack? t

theorem frames_current {m : Machine} {t : TaskId} {c : Control} (h : m.current = some (t, c)) :
    m.frames t = some c.frames := by
  unfold frames
  rw [h]
  exact if_pos rfl

theorem frames_of_ne {m : Machine} {t u : TaskId} {c : Control} (h : m.current = some (t, c))
    (hne : u ≠ t) : m.frames u = m.world.scheduler.stack? u := by
  unfold frames
  rw [h]
  exact if_neg hne

theorem frames_idle {m : Machine} (h : m.current = none) (u : TaskId) :
    m.frames u = m.world.scheduler.stack? u := by
  unfold frames
  rw [h]

end Machine

/-- Whether a frame is none of those that wait for something that a task has asked for. -/
def Frame.isPlain : Frame → Bool
  | .joined .. | .collected .. | .heard .. | .unheard .. | .raced => false
  | _ => true

/-! ## What rules put in the place of a frame -/

theorem Begins.plain {first : Option Command} {frames : List Frame} (h : Begins first frames) :
    ∀ f ∈ frames, f.isPlain = true := by
  cases h <;> simp [Frame.isPlain]

theorem Calls.plain {head : Head} {frames : List Frame} (h : Calls head frames) :
    ∀ f ∈ frames, f.isPlain = true := by
  cases h with
  | opened h => exact h.plain
  | _ => simp [Frame.isPlain]

theorem Commands.plain {phase : Phase} {c : Command} {frames : List Frame}
    (h : Commands phase c frames) : ∀ f ∈ frames, f.isPlain = true := by
  cases h <;> simp [Frame.isPlain]

theorem resumed_plain (p : Processor) (g : Nat) (adv : Advance) :
    (∀ f frames, resumed p g adv ≠ .await f frames) ∧
      ∀ f ∈ (resumed p g adv).frames, f.isPlain = true := by
  unfold resumed
  split <;> simp [Turn.reply, Turn.frames, Frame.isPlain]

/-- A rule that asks nothing of the scheduler is quiet, and waits for nothing but the next round. -/
theorem Rule.quiet_or_asks {head : Head} {w w' : World} {turn : Turn} (h : Rule head w turn w') :
    (w.Quiet w' ∧ (∀ f frames, turn ≠ .await f frames) ∧
      ∀ f ∈ turn.frames, f.isPlain = true) ∨ Asks head w turn w' := by
  have hrecord (e : Event) : w.Quiet (w.record e) := .note w w.session (e :: w.history)
  have hgive (o : Outcome) : (∀ f frames, Turn.give o ≠ .await f frames) ∧
      ∀ f ∈ (Turn.give o).frames, f.isPlain = true := by simp [Turn.frames]
  have hcalls {work : Work} {frames : List Frame}
      (hplain : ∀ f ∈ Frame.begin work :: frames, f.isPlain = true) :
      (∀ f frames', Turn.call work frames ≠ .await f frames') ∧
        ∀ f ∈ (Turn.call work frames).frames, f.isPlain = true := ⟨by simp, hplain⟩
  cases h with
  | asks h => exact .inr h
  | reply r hhead h => exact .inl ⟨h.steady.toQuiet, hgive _⟩
  | pass hf h => exact .inl ⟨h.steady.toQuiet, hgive _⟩
  | call hcall h => exact .inl ⟨h.steady.toQuiet, hcalls hcall.plain⟩
  | resume h => exact .inl ⟨h.steady.toQuiet, resumed_plain _ _ _⟩
  | answered r hp hy hc h => exact .inl ⟨(hrecord _).trans h.steady.toQuiet, hgive _⟩
  | commanded hp hy hcall h =>
      exact .inl ⟨(hrecord _).trans h.steady.toQuiet, hcalls hcall.plain⟩
  | discarded hp hy hc => exact .inl ⟨.note w _ _, hgive _⟩
  | pause => exact .inl ⟨.refl w, by simp, by simp [Turn.frames]⟩
  | joined hopen => exact .inl ⟨.refl w, hgive _⟩
  | collected => exact .inl ⟨.refl w, hgive _⟩
  | met hsettled => exact .inl ⟨(w.steady_unhearing _).toQuiet, hgive _⟩
  | unheard => exact .inl ⟨(w.steady_unhearing _).toQuiet, hgive _⟩
  | @raced o =>
      cases o with
      | value v => exact .inl ⟨hrecord _, hgive _⟩
      | fault f => exact .inl ⟨hrecord _, hgive _⟩
      | stopped => exact .inl ⟨.refl w, hgive _⟩
  | load h => exact .inl ⟨h.steady.toQuiet, hcalls (by simp [Frame.isPlain])⟩
  | ready hlabel h => exact .inl ⟨hrecord _, hcalls h.plain⟩
  | checked hlabel h => exact .inl ⟨hrecord _, hcalls (by simp [Frame.isPlain])⟩
  | unchecked f hlabel h hother => exact .inl ⟨.note w _ _, hgive _⟩
  | drained h => exact .inl ⟨.refl w, hgive _⟩
  | popped h => exact .inl ⟨.note w _ _, hcalls (by simp [Frame.isPlain])⟩
  | writing h => exact .inl ⟨.note w _ _, hcalls (by simp [Frame.isPlain])⟩
  | written => exact .inl ⟨hrecord _, hcalls (by simp [Frame.isPlain])⟩
  | verifyHook => exact .inl ⟨hrecord _, hcalls (by simp [Frame.isPlain])⟩
  | verify h => exact .inl ⟨hrecord _, hcalls (by simp [Frame.isPlain])⟩
  | assertedLast => exact .inl ⟨hrecord _, hgive _⟩
  | assertedNext h => exact .inl ⟨hrecord _, hcalls (by simp [Frame.isPlain])⟩
  | assertedNot h => exact .inl ⟨hrecord _, hgive _⟩
  | changed h => exact .inl ⟨hrecord _, hcalls (by simp [Frame.isPlain])⟩

/-! ## What a task does with a turn -/

namespace Machine

variable {t : TaskId} {stack : List Frame} {turn : Turn} {w : World}

/-- The task that makes a step goes on with what it has put in the place of its first frame. -/
theorem frames_follow (ht : t < w.scheduler.tasks.length)
    (hopen : ∀ f frames, turn = .await f frames → w.scheduler.outcome? f = none) (u : TaskId) :
    (follow t stack turn w).frames u =
      if u = t then some (turn.frames ++ stack) else w.scheduler.stack? u := by
  cases turn with
  | give o => rfl
  | call work frames => rfl
  | pause frames => exact Scheduler.stack?_pause ht _ u
  | await f frames =>
      have heq : follow t stack (.await f frames) w =
          ⟨w.withScheduler (·.park t f (frames ++ stack)), none⟩ := by
        simp only [follow, hopen f frames rfl]
      rw [heq]
      exact Scheduler.stack?_park ht f _ u

theorem current_follow
    (hopen : ∀ f frames, turn = .await f frames → w.scheduler.outcome? f = none) :
    (follow t stack turn w).current = (turn.control stack).map (Prod.mk t) := by
  cases turn with
  | give o => rfl
  | call work frames => rfl
  | pause frames => rfl
  | await f frames => simp only [follow, hopen f frames rfl, Turn.control, Option.map_none]

/-- At the end of a turn only the scheduler changes. -/
theorem world_follow : (follow t stack turn w).world =
    { w with scheduler := (follow t stack turn w).world.scheduler } := by
  cases turn with
  | give o => rfl
  | call work frames => rfl
  | pause frames => rfl
  | await f frames =>
      cases houtcome : w.scheduler.outcome? f with
      | none => simp only [follow, houtcome, World.withScheduler]
      | some o => simp only [follow, houtcome]

theorem extends_follow : w.scheduler.Extends 0 (follow t stack turn w).world.scheduler := by
  cases turn with
  | give o => exact (Scheduler.Grows.refl _).toExtends
  | call work frames => exact (Scheduler.Grows.refl _).toExtends
  | pause frames => exact Scheduler.extends_pause _ _
  | await f frames =>
      cases houtcome : w.scheduler.outcome? f with
      | none =>
          simp only [follow, houtcome]
          exact Scheduler.extends_park _ _ _
      | some o =>
          simp only [follow, houtcome]
          exact (Scheduler.Grows.refl _).toExtends

theorem outcome?_follow (f : FutureId) :
    (follow t stack turn w).world.scheduler.outcome? f = w.scheduler.outcome? f := by
  cases turn with
  | give o => rfl
  | call work frames => rfl
  | pause frames => exact Scheduler.outcome?_pause _ _ f
  | await g frames =>
      cases houtcome : w.scheduler.outcome? g with
      | none =>
          simp only [follow, houtcome]
          exact Scheduler.outcome?_park _ _ _ f
      | some o => simp only [follow, houtcome]

theorem kind_follow (f : FutureId) :
    (follow t stack turn w).world.scheduler.kind f = w.scheduler.kind f := by
  cases turn with
  | give o => rfl
  | call work frames => rfl
  | pause frames => exact Scheduler.kind_pause _ _ f
  | await g frames =>
      cases houtcome : w.scheduler.outcome? g with
      | none =>
          simp only [follow, houtcome]
          exact Scheduler.kind_park _ _ _ f
      | some o => simp only [follow, houtcome]

/-- The task that makes a step waits for the future that its turn ends at. -/
theorem awaiting_follow (ht : t < w.scheduler.tasks.length)
    (hopen : ∀ f frames, turn = .await f frames → w.scheduler.outcome? f = none)
    (hnone : w.scheduler.awaiting t = none) (u : TaskId) :
    (follow t stack turn w).world.scheduler.awaiting u =
      if u = t then turn.future? else w.scheduler.awaiting u := by
  have hsame : w.scheduler.awaiting u = if u = t then none else w.scheduler.awaiting u := by
    split
    · next hu =>
        rw [hu]
        exact hnone
    · rfl
  cases turn with
  | give o => exact hsame
  | call work frames => exact hsame
  | pause frames => exact (Scheduler.awaiting_pause _ _ u).trans hsame
  | await f frames =>
      simp only [follow, hopen f frames rfl]
      exact Scheduler.awaiting_park ht f _ u

end Machine

end HotSpec
