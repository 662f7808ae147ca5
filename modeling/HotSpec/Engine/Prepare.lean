import HotSpec.Engine.Call

/-!
# Preparing a test

Commands that only change what is known of the test: registered specs and expectations, initial
files, templates and policies.

Main definitions:

- `Engine.changedFiles`: the contents that changes stand for.
- `Engine.prepare`: a command of the first phase.
- `missingPart?`: what a command lacks of which nothing but the type is known.
-/

namespace HotSpec

/-- The part of a command that its handler asks for first, by type.  A command of which nothing but
the type is known lacks it. -/
def commandParts : Table String := [
  ("spec", "source"), ("$$set_spec", "spec"), ("spec.expect", "expects"), ("spec.before", "label"),
  ("spec.after", "label"), ("init", "inits"), ("templates", "templates"), ("change", "changes"),
  ("page", "path"), ("inner_text", "selector"), ("before_load", "sub"), ("effect", "effect"),
  ("wait", "delay"), ("cons.ignore_warnings", "ignore"), ("cons.ignore_errors", "ignore"),
  ("cons.wait", "timeout")]

/-- The fault of a command that lacks a part, if its type asks for one. -/
def missingPart? (type : String) : Option Fault :=
  (commandParts.get? type).map fun part =>
    .noAttribute ("'BaseCommand' object has no attribute " ++ Text.quoted part)

namespace Engine

/-! ## Files -/

/-- The contents that changes stand for: a file with a template takes its text from it, and a mark
of removal stands for nothing. -/
def changedFiles : Table Value → Engine (Table Value)
  | [] => return []
  | (path, value) :: rest => do
    let value ← match value, (← get).session.templates.get? path with
      | .removed, _ => pure .nothing
      | value, some template => content template [value]
      | value, none => pure value
    return (path, value) :: (← changedFiles rest)

/-- Divide initial files: what can be called becomes a template and is called for its content, all
else is left for changes. -/
def initialFiles (files changes : Table Value) : Table Value → Engine (Table Value × Table Value)
  | [] => return (files, changes)
  | (path, value) :: rest => do
    if value.isCallable then
      change (·.withSession fun s => { s with templates := s.templates.put path value })
      initialFiles (files.put path (← content value [])) changes rest
    else initialFiles files (changes.put path value) rest

/-- The files of a label as values. -/
def variantValues (label : String) : Engine (Table Value) := do
  return ((← get).session.variantFiles label).map fun (path, text) => (path, .text text)

/-! ## Handlers -/

/-- Register contents by path. -/
def fileVariants (file : Option String) : Table FileContent → Except Fault (Table (Table String))
  | [] => .ok []
  | (path, .text text) :: rest => do
    let variants ← Spec.compileFile text file
    return (path, variants) :: (← fileVariants file rest)
  | (path, .variants variants) :: rest => do return (path, variants) :: (← fileVariants file rest)

/-- Append steps to the expectations of labels, in turn. -/
def addSteps : List (String × Value) → Engine Unit
  | [] => return ()
  | (label, expected) :: pairs => do
    let step ← ofExcept (Step.ofExpectation expected)
    change (·.withSession fun s =>
      { s with expects := s.expects.put label ((s.expectation label).addStep step) })
    addSteps pairs

/-- Set a hook of a label. -/
def setHook (after : Bool) (label : String) (sub : Value) : Engine Unit :=
  change (·.withSession fun s =>
    let e := s.expectation label
    let e := if after then { e with after := some sub } else { e with before := some sub }
    { s with expects := s.expects.put label e })

/-- Take the files of a label as initial files; only one label can be the initial one. -/
def initLabel (label : String) : Engine Unit := do
  match (← get).session.initLabel with
  | some previous => fail (.usage (.repeatedInit previous))
  | none =>
    let files ← variantValues label
    change (·.withSession fun s =>
      { s with initLabel := some label, inits := s.inits.merge files })

/-- Take initial files. -/
def initFiles (inits : Table Value) : Engine Unit := do
  let (files, changes) ← initialFiles [] [] inits
  let files := files.merge (← changedFiles changes)
  change (·.withSession fun s => { s with inits := s.inits.merge files })

/-- Register a compiled spec. -/
def install (spec : CompiledSpec) : Engine Unit := change (·.withSession (·.install spec))

/-- The state of the test, as a value. -/
def state : Engine Value := do return .session (← get).session.shown

/-- A command that is handled in the same way in both phases; there is nothing to do for others. -/
def configure : Command → Engine Value
  | .templates table => do
    change (·.withSession fun s => { s with templates := s.templates.merge table })
    return .nothing
  | .ignore errors policy => do
    change (·.withSession fun s => { s with console := s.console.extend errors policy })
    return .nothing
  | .debug => state
  | .named type =>
    match missingPart? type with
    | some fault => fail fault
    | none => state
  | _ => return .nothing

/-- A command of the first phase. -/
def prepare (c : Command) : Engine Value := do
  let file := (← get).session.file
  match c with
  | .spec source => install (← ofExcept (Spec.compile source false file))
  | .mapping files => install ⟨none, ← ofExcept (fileVariants file files), []⟩
  | .setSpec spec => install spec
  | .expect pairs => addSteps pairs
  | .hook after label sub => setHook after label sub
  | .init (.label label) => initLabel label
  | .init (.files files) => initFiles files
  | .beforeLoad sub => change (·.withSession fun s => { s with beforeLoad := some sub })
  | c => return (← configure c)
  return .nothing

end Engine

end HotSpec
