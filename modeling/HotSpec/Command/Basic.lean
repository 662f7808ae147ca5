import HotSpec.Console.Policy

/-!
# Commands

What a test script asks of the engine, with all parts checked.

Main definitions:

- `Command`: the commands, by what they ask for.
- `Command.type`: the type by which a registry finds the handler of a command.
-/

namespace HotSpec

/-- The content of a file in the mapping form of a spec: a text with conditions, or the content by
label. -/
inductive FileContent
  | text (content : String)
  | variants (contents : Table String)
  deriving Inhabited

/-- What initial files and changes are given by: a label, or contents by path. -/
inductive Target
  | label (label : String)
  | files (files : Table Value)
  deriving Inhabited

/-- Commands. -/
inductive Command
  /-- Register a spec given as a source. -/
  | spec (source : Spec.Source)
  /-- Register contents by path. -/
  | mapping (files : Table FileContent)
  /-- Install a compiled spec. -/
  | setSpec (spec : CompiledSpec)
  /-- Append steps to the expectations of labels. -/
  | expect (pairs : List (String × Value))
  /-- Set the hook before or after the steps of a label. -/
  | hook (after : Bool) (label : String) (sub : Value)
  /-- Assert all pending expectations. -/
  | flush
  /-- Drop all pending expectations. -/
  | discard
  /-- Set the initial files. -/
  | init (target : Target)
  /-- Write files and wait for the update. -/
  | change (target : Target)
  /-- Register templates of contents by path. -/
  | templates (templates : Table Value)
  /-- Sleep for some seconds. -/
  | sleep (delay : Float)
  /-- Await what a value stands for. -/
  | await (operand : Value)
  /-- Get an attribute of the page, or call it. -/
  | page (path : List String) (args : List Value) (options : Table Value)
  /-- Read the text of an element. -/
  | innerText (selector : String)
  /-- Get the state of the test. -/
  | debug
  /-- Change a policy on console messages. -/
  | ignore (errors : Bool) (change : Policy)
  /-- Wait for a console message. -/
  | consoleWait (timeout : Float) (matchers : List Value)
  /-- Set what runs before the page is loaded. -/
  | beforeLoad (sub : Value)
  /-- Call a function with the state of the test. -/
  | call (function : Value)
  /-- Have an effect on the running test. -/
  | effect (effect : Effect)
  /-- A command of which nothing but the type is known. -/
  | named (type : String)
  deriving Inhabited

namespace Command

/-- The type of a command. -/
def type : Command → String
  | .spec _ | .mapping _ => "spec"
  | .setSpec _ => "$$set_spec"
  | .expect _ => "spec.expect"
  | .hook after .. => if after then "spec.after" else "spec.before"
  | .flush => "spec.flush"
  | .discard => "spec.discard"
  | .init _ => "init"
  | .change _ => "change"
  | .templates _ => "templates"
  | .sleep _ | .await _ => "wait"
  | .page .. => "page"
  | .innerText _ => "inner_text"
  | .debug => "debug"
  | .ignore errors _ => if errors then "cons.ignore_errors" else "cons.ignore_warnings"
  | .consoleWait .. => "cons.wait"
  | .beforeLoad _ => "before_load"
  | .call _ | .effect _ => "effect"
  | .named type => type

end Command

/-! ## Effects by purpose -/

namespace Effect

/-- Click a button. -/
def clickButton (selector : Option Value) : Effect := .click (selector.getD (.text "button"))

/-- Click a link, to an address if one is given. -/
def clickLink (href : Option Value) : Effect :=
  match href with
  | some v => .click (.text (if v.truthy then "a[href=\"" ++ v.plain ++ "\"]" else "a"))
  | none => .click (.text "a")

/-- Expect at least one error of the page. -/
def expectPageErrors (message : Option String) : Effect := .pageErrors (.bool true) none message

/-- Expect one error of the page. -/
def expectPageError (pattern : Value) (message : Option String) : Effect :=
  .pageErrors pattern (some 1) message

/-- Expect no error of the page any more. -/
def expectNoPageError (message : Option String) : Effect := .pageErrors (.bool false) none message

/-- Expect one load of the page. -/
def expectPageLoad (message : Option String) : Effect := .pageLoads (.int 1) message

/-- Expect no load of the page any more. -/
def expectNoPageLoad (message : Option String) : Effect := .pageLoads (.bool false) message

end Effect

end HotSpec
