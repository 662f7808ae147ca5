/-!
# Checked data

Data that is checked before it is used.  A check that fails may give reasons; checks of several
parts are all made, so that the reasons of all parts come together.

Main definitions:

- `Checked`: the outcome of a check.
- `Checked.both`, `Checked.all`: checks of several parts.
- `Checked.either`: a check with an alternative.
-/

namespace HotSpec

/-- The outcome of a check: what was made of the data, or the reasons for refusing it. -/
abbrev Checked (α : Type) := Except (List String) α

namespace Checked

variable {α β : Type}

/-- The reasons for a refusal, none for an acceptance. -/
def reasons : Checked α → List String
  | .ok _ => []
  | .error reasons => reasons

/-- Refuse without a reason. -/
def refuse : Checked α := .error []

/-- What an option holds. -/
def ofOption : Option α → Checked α
  | some a => .ok a
  | none => refuse

/-- What is made of accepted data. -/
def map (f : α → β) (a : Checked α) : Checked β := Except.map f a

/-- Check two parts. -/
def both (a : Checked α) (b : Checked β) : Checked (α × β) :=
  match a, b with
  | .ok a, .ok b => .ok (a, b)
  | a, b => .error (a.reasons ++ b.reasons)

/-- Check a list of parts. -/
def all : List (Checked α) → Checked (List α)
  | [] => .ok []
  | a :: as => (both a (all as)).map fun (a, as) => a :: as

/-- Check an alternative where a check fails. -/
def either (a b : Checked α) : Checked α :=
  match a, b with
  | .ok a, _ => .ok a
  | .error _, .ok b => .ok b
  | .error r, .error s => .error (r ++ s)

/-- A check whose subject may be missing. -/
def optional (a : Option (Checked α)) (missing : α) : Checked α := a.getD (.ok missing)

/-- A list of parts is accepted exactly if each of its parts is. -/
theorem isOk_all (parts : List (Checked α)) :
    (all parts).isOk = parts.all Except.isOk := by
  induction parts with
  | nil => rfl
  | cons part parts ih =>
    cases part <;> cases h : all parts <;>
      simp_all [all, both, map, Except.map, Except.isOk, Except.toBool]

end Checked

end HotSpec
