import HotSpec.Plugin.Basic

/-!
# Values that are made anew

Values as a script writes them may hold records that are not checked yet and runs of routines that
are not begun yet.  Each time a script reaches such a value it is made anew: records are checked,
and every run becomes a generator of its own.

Main definitions:

- `Maker`: the generators made so far.
- `Value.make`: a value with all its parts made.
-/

namespace HotSpec

/-- The generators made so far, from a first number on. -/
structure Maker where
  first : Nat
  made : List Routine
  deriving Inhabited

/-- What is made with a maker, or the fault that stands in its way. -/
abbrev Making (α : Type) := StateT Maker (Except Fault) α

/-- A generator for a new run of a routine. -/
def Maker.begin (r : Routine) : Making Value := fun maker =>
  .ok (.generator (maker.first + maker.made.length) r.name,
    { maker with made := maker.made ++ [r] })

/-- What was made of checked data. -/
def Making.ofChecked {α : Type} (checked : Checked α) : Making α :=
  StateT.lift checked.toExcept

mutual

/-- A value with all its parts made. -/
def Value.make : Value → Making Value
  | .list items => return .list (← makeItems items)
  | .tuple items => return .tuple (← makeItems items)
  | .set items => return .set (← makeItems items)
  | .dict rows => return .dict (← makeRows rows)
  | .mixture strings values => return .mixture strings (← makeItems values)
  | .fresh r => Maker.begin r
  | .stepFields fields => do
    let fields ← makeFields fields
    return .step (← Making.ofChecked (Step.ofFields fields))
  | .handlerFields fields => do
    let fields ← makeFields fields
    return .handler (← Making.ofChecked (Handler.ofFields fields))
  | v => return v

/-- Items with all their parts made. -/
def makeItems : List Value → Making (List Value)
  | [] => return []
  | item :: items => return (← item.make) :: (← makeItems items)

/-- Rows with all their parts made. -/
def makeRows : List (Value × Value) → Making (List (Value × Value))
  | [] => return []
  | (key, value) :: rows => return (← key.make, ← value.make) :: (← makeRows rows)

/-- Fields with all their parts made. -/
def makeFields : List (String × Value) → Making (List (String × Value))
  | [] => return []
  | (name, value) :: fields => return (name, ← value.make) :: (← makeFields fields)

end

/-- A value made where no script runs. -/
def Value.made (v : Value) : Except Fault Value := (v.make.run ⟨0, []⟩).map Prod.fst

end HotSpec
