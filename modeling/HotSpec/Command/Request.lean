import HotSpec.Command.Basic
import HotSpec.Value.Making

/-!
# Requests into commands

A script names what it wants by a request.  Its parts are checked when the script reaches it, and
only then is there a command.

Main definitions:

- `labelOf`, `targetOf`, `policyOf`, …: the checks of single parts.
- `Command.ofValue`: the command that a value yielded by itself stands for.
- `Request.build`: the command of a request.
-/

namespace HotSpec

/-! ## Parts -/

/-- A value as a label that is not empty. -/
def labelOf (v : Value) : Checked String :=
  match Spec.toLabel v with
  | .ok label => if label = "" then Checked.refuse else .ok label
  | .error fault => .error [fault.text]

/-- A value as a text. -/
def textOf (v : Value) : Checked String := Checked.ofOption v.toText?

/-- A value as a dictionary whose keys and values are checked. -/
def tableOf {α : Type} (key : Value → Checked String) (value : Value → Checked α) :
    Value → Checked (Table α)
  | .dict rows =>
    (Checked.all (rows.map fun row => Checked.both (key row.1) (value row.2))).map Table.ofRows
  | _ => Checked.refuse

/-- A value as the content of a file. -/
def contentOf (v : Value) : Checked FileContent :=
  ((textOf v).map FileContent.text).either ((tableOf labelOf textOf v).map FileContent.variants)

/-- A value as a label or as contents by path. -/
def targetOf (v : Value) : Checked Target :=
  ((labelOf v).map Target.label).either ((tableOf textOf .ok v).map Target.files)

/-- A value as a sub handler. -/
def subOf (v : Value) : Checked Value := Checked.ofOption v.toSubHandler?

/-- The matcher that a value stands for. -/
def matcherOf : Value → Checked Matcher
  | .regex r => .ok (.pattern r)
  | v => (textOf v).map .text

/-- The change of a policy that matchers stand for: none of them stand for all messages, and a
single flag for itself. -/
def policyOf : List Value → Checked Policy
  | [] => .ok (.flag true)
  | [.bool all] => .ok (.flag all)
  | matchers => (Checked.all (matchers.map matcherOf)).map .list

/-- A pair of a label and an expectation. -/
def pairOf : List Value → Checked (String × Value)
  | [label, expected] => (labelOf label).map (·, expected)
  | [label] => (Checked.both (labelOf label) Checked.refuse).map fun (label, v) => (label, v)
  | _ => Checked.refuse

/-- The items of a value that is unpacked as a pair. -/
def unpack : Value → Except Fault (List Value)
  | .list items | .tuple items | .set items => .ok items
  | .text s => .ok (s.toList.map fun c => .text (String.singleton c))
  | .bytes b => .ok (b.map fun byte => .int byte.toNat)
  | .dict rows => .ok (rows.map Prod.fst)
  | .mixture strings values => .ok [.list (strings.map .text), .list values]
  | v => .error (.type (.notIterable v.fullTypeName))

/-- A number that is not below a bound, or that has to be above it. -/
def numberFrom (v : Value) (bound : Float) (open? : Bool) : Checked Float :=
  match v.toFloat? with
  | some x => if (if open? then x ≤ bound else x < bound) then Checked.refuse else .ok x
  | none => Checked.refuse

/-- The seconds that a console message is waited for where nothing else is said. -/
def defaultTimeout : Float := 0.05

/-- A wait for a console message: a number in front of the matchers is the timeout. -/
def consoleWaitOf (matchers : List Value) (timeout : Option Value) : Checked Command :=
  let (timeout, matchers) : Option Value × List Value := match matchers with
    | .int n :: rest => (some (.int n), rest)
    | .float x :: rest => (some (.float x), rest)
    | _ => (timeout.filter (!· matches .nothing), matchers)
  match timeout with
  | none => .ok (.consoleWait defaultTimeout matchers)
  | some v => (numberFrom v 0.0 true).map fun x => .consoleWait x matchers

/-! ## Commands -/

/-- The command that a value yielded by itself stands for: a function is called with the state. -/
def Command.ofValue (v : Value) : Except Fault Command :=
  if v.isCallable then .ok (.call v) else .error (.usage (.notCommand v))

/-- The pairs of a list of them. -/
def pairsCommand (v : Value) : Except Fault Command := do
  match v.toItems? with
  | none => .error (.usage .noExpectation)
  | some items =>
    let pairs ← items.mapM unpack
    ((Checked.all (pairs.map pairOf)).map Command.expect).toExcept

/-- The command that registers a spec. -/
def specCommand : Value → Except Fault Command
  | .dict rows => ((tableOf textOf contentOf (.dict rows)).map Command.mapping).toExcept
  | v => (Spec.Source.of v).map .spec

/-- The command that registers templates. -/
def templatesCommand : Value → Except Fault Command
  | .dict rows =>
    ((tableOf textOf (fun v => Checked.ofOption v.toCallable?) (.dict rows)).map
      Command.templates).toExcept
  | v => .error (.type (.notIterable v.fullTypeName))

/-- The command that asserts an expectation, or a list of pairs without one. -/
def expectCommand (label expected : Value) : Except Fault Command :=
  match expected with
  | .nothing =>
    match label with
    | .list _ | .tuple _ | .mixture .. => pairsCommand label
    | _ => .error (.usage .noExpectation)
  | expected => ((pairOf [label, expected]).map fun pair => Command.expect [pair]).toExcept

/-- The command of a wait: numbers are seconds. -/
def waitCommand (operand : Value) : Except Fault Command :=
  match operand with
  | .int _ | .float _ => ((numberFrom operand 0.0 false).map Command.sleep).toExcept
  | v => .ok (.await v)

/-- The command of a path into the page; names that start with a line are no part of the page. -/
def pageCommand (path : List String) (args : List Value) (options : Table Value) :
    Except Fault Command :=
  match path.find? (·.startsWith "_") with
  | some name => .error (.noAttribute name)
  | none => .ok (.page path args options)

/-- What a script yields: a value by itself, or a command. -/
inductive Yielded
  | value (value : Value)
  | command (command : Command)
  deriving Inhabited

/-- What a request yields, with all its parts made. -/
def Request.build : Request → Making Yielded
  | .bare v => return .value (← v.make)
  | .effect e => return .command (.effect e)
  | .spec v => do command (specCommand (← v.make))
  | .expect label expected => do command (expectCommand (← label.make) (← expected.make))
  | .hook after label sub => do
    let label ← label.make
    let sub ← sub.make
    command ((Checked.both (labelOf label) (subOf sub)).map fun (label, sub) =>
      Command.hook after label sub).toExcept
  | .flush => return .command .flush
  | .discard => return .command .discard
  | .init v => do command ((targetOf (← v.make)).map Command.init).toExcept
  | .change v => do command ((targetOf (← v.make)).map Command.change).toExcept
  | .templates v => do command (templatesCommand (← v.make))
  | .wait v => do command (waitCommand (← v.make))
  | .page path args options => do
    command (pageCommand path (← makeItems args) (← makeFields options))
  | .innerText v => do command ((textOf (← v.make)).map Command.innerText).toExcept
  | .debug => return .command .debug
  | .beforeLoad v => do command ((subOf (← v.make)).map Command.beforeLoad).toExcept
  | .ignore errors matchers => do
    command ((policyOf (← makeItems matchers)).map (Command.ignore errors)).toExcept
  | .consoleWait matchers timeout => do
    let matchers ← makeItems matchers
    let timeout ← match timeout with
      | some v => some <$> v.make
      | none => pure none
    command (consoleWaitOf matchers timeout).toExcept
  | .named v => do command ((textOf (← v.make)).map Command.named).toExcept
where
  /-- A command that is yielded. -/
  command (result : Except Fault Command) : Making Yielded :=
    StateT.lift (result.map Yielded.command)

/-- The command that something yielded stands for. -/
def Yielded.toCommand : Yielded → Except Fault Command
  | .value v => Command.ofValue v
  | .command c => .ok c

end HotSpec
