import HotSpec.Fault.Kind
import HotSpec.Html.Expected

/-!
# Values and scripts

What test scripts compute with.  A script is data: a list of instructions, each of which acts on
the page at once or yields a request and waits for its answer.  Values carry scripts (as
routines), scripts carry requests, and requests carry values, so they are defined together.

A value as written in a script may ask for something new each time it is reached: `fresh` for a
new run of a routine, `stepFields` and `handlerFields` for records whose fields are checked when
they are made.  `Value.make` replaces them by `generator`, `step` and `handler`.
-/

namespace HotSpec

mutual

/-- Values. -/
inductive Value
  | nothing
  | bool (b : Bool)
  | int (n : Int)
  | float (x : Float)
  | text (s : String)
  | bytes (bytes : List UInt8)
  | list (items : List Value)
  | tuple (items : List Value)
  | set (items : List Value)
  | dict (rows : List (Value × Value))
  | regex (r : Regex)
  | removed
  | thing
  | fault (given : GivenFault)
  | mixture (strings : List String) (values : List Value)
  | callback (c : Callback)
  | asyncCallback (c : Callback)
  | template (name : String) (text : String) (default : Option Value)
  | routine (r : Routine)
  | fresh (r : Routine)
  | generator (id : Nat) (name : String)
  | awaitable (name : String)
  | stepFields (fields : List (String × Value))
  | step (s : Step)
  | handlerFields (fields : List (String × Value))
  | handler (h : Handler)
  | page
  | keyboard
  | session (shown : String)

/-- One step of an expectation: expected HTML, a sub to run, or a plain function to call. -/
inductive Step
  | html (expected : Html.Expected)
  | sub (sub : Value)
  | function (function : Value)

/-- The handlers of a command, by phase. -/
structure Handler where
  name : String
  init : Option Value
  run : Option Value

/-- A function given by what a call of it does: act, fail or answer, at once or after a sleep. -/
structure Callback where
  name : String
  actions : List Action
  failure : Option GivenFault
  delay : Option Float
  answer : Value

/-- A named script with the answer of its end. -/
structure Routine where
  name : String
  script : List Instr
  answer : Value

/-- Actions that a script, a function or the environment performs at once. -/
inductive Action
  | console (type text : String)
  | pageError (message : String)
  | error (kind : Option FaultKind) (message : String)
  | load
  | log (text : String)
  | setElement (selector html : String)
  | unsetElement (selector : String)
  | fail (kind : Option FaultKind) (message : String)
  | post (sub : Value)
  | raise (given : GivenFault)
  | later (delay : Float) (actions : List Action)

/-- Instructions of a script. -/
inductive Instr
  | act (action : Action)
  | stop (answer : Value)
  | ask (request : Request) (caught : Bool) (wanted : Option Value)

/-- What an instruction yields, before its parts are checked. -/
inductive Request
  | bare (value : Value)
  | effect (effect : Effect)
  | spec (spec : Value)
  | expect (label expected : Value)
  | hook (after : Bool) (label sub : Value)
  | flush
  | discard
  | init (inits : Value)
  | change (changes : Value)
  | templates (templates : Value)
  | wait (operand : Value)
  | page (path : List String) (args : List Value) (options : List (String × Value))
  | innerText (selector : Value)
  | debug
  | beforeLoad (sub : Value)
  | ignore (errors : Bool) (matchers : List Value)
  | consoleWait (matchers : List Value) (timeout : Option Value)
  | named (type : Value)

/-- Effects on the running test. -/
inductive Effect
  | own (actions : List Action) (failure : Option GivenFault) (answer : Value)
  | click (selector : Value)
  | goto (url : String)
  | gotoState (url : Value)
  | pageErrors (expected : Value) (limit : Option Int) (message : Option String)
  | pageLoads (expected : Value) (message : Option String)

end

instance : Inhabited Value := ⟨.nothing⟩
instance : Inhabited Step := ⟨.html default⟩
instance : Inhabited Callback := ⟨⟨"", [], none, none, .nothing⟩⟩
instance : Inhabited Routine := ⟨⟨"", [], .nothing⟩⟩
instance : Inhabited Action := ⟨.load⟩
instance : Inhabited Instr := ⟨.act .load⟩
instance : Inhabited Request := ⟨.flush⟩
instance : Inhabited Effect := ⟨.goto ""⟩

/-- Scripts. -/
abbrev Script := List Instr

namespace Value

/-! ## Kinds of values -/

/-- Whether a value can be called. -/
def isCallable : Value → Bool
  | .callback _ | .asyncCallback _ | .template .. | .routine _ => true
  | _ => false

/-- Whether a value is a routine or an asynchronous function, which make a step of their own. -/
def isSub : Value → Bool
  | .routine _ | .asyncCallback _ => true
  | _ => false

/-- Whether a value can be run as a sub handler: something callable, or a list of subs. -/
def isSubHandler : Value → Bool
  | .list _ | .tuple _ | .mixture .. => true
  | v => v.isCallable

/-- The name of a callable value. -/
def name? : Value → Option String
  | .callback c | .asyncCallback c => some c.name
  | .template name .. => some name
  | .routine r => some r.name
  | _ => none

/-- The name of the type of a value. -/
def typeName : Value → String
  | .nothing => "NoneType"
  | .bool _ => "bool"
  | .int _ => "int"
  | .float _ => "float"
  | .text _ => "str"
  | .bytes _ => "bytes"
  | .list _ => "list"
  | .tuple _ => "tuple"
  | .set _ => "set"
  | .dict _ => "dict"
  | .regex _ => "Pattern"
  | .removed => "_Removed"
  | .thing => "Opaque"
  | .fault given => given.kind.name
  | .mixture .. => "Template"
  | .callback _ | .asyncCallback _ | .template .. | .routine _ => "function"
  | .fresh _ | .generator .. => "generator"
  | .awaitable _ => "coroutine"
  | .stepFields _ | .step _ => "Step"
  | .handlerFields _ | .handler _ => "CommandHandler"
  | .page => "FakePage"
  | .keyboard => "FakeKeyboard"
  | .session _ => "TestState"

/-- The name of the type of a value with the module of the type, where messages show it. -/
def fullTypeName : Value → String
  | .regex _ => "re.Pattern"
  | v => v.typeName

/-- An optional value as a value: nothing for none. -/
def ofOption : Option Value → Value
  | some v => v
  | none => .nothing

/-- A table of values as a dictionary. -/
def ofTable (rows : List (String × Value)) : Value :=
  .dict (rows.map fun row => (.text row.1, row.2))

/-- An optional text as a value. -/
def ofText? : Option String → Value
  | some s => .text s
  | none => .nothing

end Value

/-- A token as a value. -/
def Html.Token.toValue : Html.Token → Value
  | .literal text => .text text
  | .pattern regex => .regex regex

/-- Expected HTML as a value. -/
def Html.Expected.toValue : Html.Expected → Value
  | .exact text => .text text
  | .tokens ts => .list (ts.map Html.Token.toValue)

namespace Step

/-- The name of the variant of a step. -/
def kind : Step → String
  | .html _ => "html"
  | .sub _ => "sub"
  | .function _ => "function"

/-- What a step holds, as a value. -/
def content : Step → Value
  | .html expected => expected.toValue
  | .sub v => v
  | .function v => v

end Step

end HotSpec
