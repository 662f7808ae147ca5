import HotSpec.Fault.Basic

/-!
# Outcomes

What a piece of work comes to: a value, a fault, or nothing because it was stopped.  Being stopped
is no fault: a script cannot catch it.
-/

namespace HotSpec

/-- What a piece of work comes to. -/
inductive Outcome
  | value (value : Value)
  | fault (fault : Fault)
  | stopped
  deriving Inhabited

/-- What a command is answered with. -/
abbrev Reply := Except Fault Value

namespace Outcome

/-- Work that comes to nothing but its end. -/
def finished : Outcome := .value .nothing

/-- The outcome of a reply. -/
def ofReply : Reply → Outcome
  | .ok v => .value v
  | .error f => .fault f

/-- Whether an outcome is a fault. -/
def isFault : Outcome → Bool
  | .fault _ => true
  | _ => false

/-- Whether work was stopped. -/
def isStopped : Outcome → Bool
  | .stopped => true
  | _ => false

/-- An outcome as a reply, at the end of everything. -/
def toReply : Outcome → Reply
  | .value v => .ok v
  | .fault f => .error f
  | .stopped => .error (.given ⟨.other "CancelledError", ""⟩)

@[simp]
theorem toReply_ofReply (r : Reply) : (ofReply r).toReply = r := by cases r <;> rfl

end Outcome

end HotSpec
