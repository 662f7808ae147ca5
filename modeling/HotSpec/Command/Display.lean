import HotSpec.Command.Request

/-!
# Commands as text

How commands appear inside messages: under the name of their record, with all its parts.

Main definitions:

- `Command.recordName`: the name of the record of a command.
- `Yielded.shown`: the text of what a script yielded.
-/

namespace HotSpec

/-- The name of a function that has an effect, with the name of the function that made it. -/
def Effect.functionName : Effect → String
  | .own .. => "effect"
  | .click _ => "click.<locals>.effect"
  | .goto _ => "goto.<locals>.effect"
  | .gotoState _ => "goto_state.<locals>.effect"
  | .pageErrors .. => "_expect_page_errors.<locals>.effect"
  | .pageLoads .. => "expect_page_loads.<locals>.effect"

namespace Command

/-- The name of the record of a command. -/
def recordName : Command → String
  | .spec _ | .mapping _ => "SpecCommand"
  | .setSpec _ => "SetSpecCommand"
  | .expect _ => "ExpectCommand"
  | .hook .. => "HookCommand"
  | .flush => "FlushCommand"
  | .discard => "DiscardCommand"
  | .init _ => "InitCommand"
  | .change _ => "ChangeCommand"
  | .templates _ => "TemplatesCommand"
  | .sleep _ | .await _ => "WaitCommand"
  | .page .. => "PageCommand"
  | .innerText _ => "InnerTextCommand"
  | .debug => "DebugCommand"
  | .ignore .. => "ConsoleIgnoreCommand"
  | .consoleWait .. => "ConsoleWaitCommand"
  | .beforeLoad _ => "BeforeLoadCommand"
  | .call _ | .effect _ => "EffectCommand"
  | .named _ => "BaseCommand"

/-- The content of a file as a value. -/
def contentValue : FileContent → Value
  | .text s => .text s
  | .variants t => .ofTable (t.map fun (label, s) => (label, .text s))

/-- A target as a value. -/
def targetValue : Target → Value
  | .label label => .text label
  | .files files => .ofTable files

/-- The text of an anchored value. -/
def anchoredText (a : Spec.Anchored) : String :=
  s!"AnchoredValue(index={a.index}, value=" ++ a.value.shown ++ ")"

/-- The parts of a command after its type, by name, as text. -/
def parts : Command → Table String
  | .spec source => [("source", Text.quoted (String.ofList source.text)),
      ("values", "[" ++ commas (source.values.map anchoredText) ++ "]"), ("files", "None")]
  | .mapping files => [("source", "None"), ("values", "[]"),
      ("files", (Value.ofTable (files.map fun (path, c) => (path, contentValue c))).shown)]
  | .setSpec _ => []
  | .expect pairs => [("expects", (Value.list (pairs.map fun (label, v) =>
      .tuple [.text label, v])).shown)]
  | .hook _ label sub => [("label", Text.quoted label), ("sub", sub.shown)]
  | .init target => [("inits", (targetValue target).shown)]
  | .change target => [("changes", (targetValue target).shown)]
  | .templates table => [("templates", (Value.ofTable table).shown)]
  | .sleep delay => [("delay", (Value.float delay).shown), ("awaitable", "None")]
  | .await operand => [("delay", "None"), ("awaitable", operand.shown)]
  | .page path args options => [("path", (Value.tuple (path.map .text)).shown),
      ("args", (Value.tuple args).shown), ("kwargs", (Value.ofTable options).shown)]
  | .innerText selector => [("selector", Text.quoted selector)]
  | .ignore _ policy => [("ignore", policy.toValue.shown)]
  | .consoleWait timeout matchers => [("timeout", (Value.float timeout).shown),
      ("matchers", (Value.list matchers).shown)]
  | .beforeLoad sub => [("sub", sub.shown)]
  | .call f => [("effect", f.shown)]
  | .effect _ | .flush | .discard | .debug | .named _ => []

/-- The text of a command. -/
def shown (c : Command) : String :=
  c.recordName ++ "(" ++ commas ((("type", Text.quoted c.type) :: c.parts).map fun (name, text) =>
    name ++ "=" ++ text) ++ ")"

end Command

/-- The text of what a script yielded: a function for an effect, which is no command yet. -/
def Yielded.shown : Yielded → String
  | .value v => v.shown
  | .command (.effect e) => "<function " ++ e.functionName ++ ">"
  | .command c => c.shown

end HotSpec
