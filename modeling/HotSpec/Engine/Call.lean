import HotSpec.Engine.Action

/-!
# Calls

What the call of a value does at once, and what is left to be awaited.

Main definitions:

- `Engine.call`: a call.
- `Engine.content`: a call whose answer is used as it is, without awaiting anything.
-/

namespace HotSpec

/-- What a call comes to at once: a value, or something to be awaited. -/
inductive Called
  | value (value : Value)
  | awaitable (a : Awaitable)
  deriving Inhabited

/-- A text with a value in the place of each pair of braces. -/
def fillHoles (value : List Char) : List Char → List Char
  | '\x7b' :: '\x7d' :: rest => value ++ fillHoles value rest
  | c :: rest => c :: fillHoles value rest
  | [] => []

namespace Engine

/-- Call a function: it acts at once, and its answer comes at once unless it sleeps. -/
def callCallback (c : Callback) : Engine Called := do
  log (.call c.name)
  perform c.actions
  match c.failure with
  | some given => fail (.given given)
  | none =>
    if c.delay.isSome then return .awaitable (.answer c)
    else return .value (← make c.answer.make)

/-- Call a template: its text with the value, or else with the default. -/
def callTemplate (name text : String) (default : Option Value) (args : List Value) :
    Engine Called := do
  let value ← match args.head? <|> default with
    | some v => make v.make
    | none => fail (.type (.missingArgument name))
  log (.template name value)
  return .value (.text (String.ofList (fillHoles value.plain.toList text.toList)))

/-- Call a value.  The call of a routine makes a run of it that nobody drives. -/
def call (f : Value) (args : List Value) : Engine Called :=
  match f with
  | .callback c => callCallback c
  | .asyncCallback c => return .awaitable (.body c)
  | .template name text default => callTemplate name text default args
  | .routine r => return .value (.fresh r)
  | f => fail (.type (.notCallable f.typeName))

/-- Call a value whose answer is used as it is. -/
def content (f : Value) (args : List Value) : Engine Value := do
  match ← call f args with
  | .value v => return v
  | .awaitable a => return .awaitable a.name

end Engine

end HotSpec
