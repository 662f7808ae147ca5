import HotSpec.Spec.Step

/-!
# Plugins

A plugin is a named list of command handlers.  A handler names a type of commands and handles it
in at least one of the two phases of a test.

Main definitions:

- `Handler.ofFields`, `Plugin.ofFields`: handlers and plugins given as records.
-/

namespace HotSpec

namespace Handler

/-- Why a handler without a phase is refused. -/
def noHandlerReason (name : String) : String :=
  "command " ++ Text.quoted name ++ " has no handler"

/-- An optional field that has to be callable. -/
def phaseOf (fields : Fields) (name : String) : Checked (Option Value) :=
  match fields.get? name with
  | none => .ok none
  | some v => (Checked.ofOption v.toCallable?).map some

/-- A field that has to be a text that is not empty. -/
def nameOf (fields : Fields) : Checked String :=
  Checked.ofOption (((fields.lookup "name").bind Value.toText?).filter (· ≠ ""))

/-- The handler of a record: it handles at least one phase. -/
def ofFields (fields : Fields) : Checked Handler := do
  let (_, name, init, run) ← Checked.both (fields.only ["name", "init", "run"])
    (Checked.both (nameOf fields) (Checked.both (phaseOf fields "init") (phaseOf fields "run")))
  if init.isNone && run.isNone then .error [noHandlerReason name] else .ok ⟨name, init, run⟩

/-- A handler given as a value: a handler or its record. -/
def ofValue : Value → Checked Handler
  | .handler h => .ok h
  | .handlerFields fields => ofFields fields
  | v =>
    match v with
    | .dict _ => (Checked.ofOption v.toFields?).bind ofFields
    | _ => Checked.refuse

end Handler

/-- A named list of handlers. -/
structure Plugin where
  name : String
  version : Int
  handlers : List Handler
  deriving Inhabited

namespace Plugin

/-- The plugin of a record. -/
def ofFields (fields : Fields) : Checked Plugin := do
  let version := match fields.lookup "version" with
    | none => .ok 1
    | some v => Checked.ofOption v.toInt?
  let handlers := match fields.lookup "commands" with
    | none => .ok []
    | some v =>
      match v.toItems? with
      | some items => Checked.all (items.map Handler.ofValue)
      | none => Checked.refuse
  let (_, name, version, handlers) ← Checked.both (fields.only ["name", "version", "commands"])
    (Checked.both (Handler.nameOf fields) (Checked.both version handlers))
  return ⟨name, version, handlers⟩

end Plugin

end HotSpec
