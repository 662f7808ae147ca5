import HotSpec.Command.Display
import HotSpec.Engine.Advance
import HotSpec.Engine.Asserting
import HotSpec.Page.Address

/-!
# Handling commands

How the commands of a script are resolved, by phase.

Main definitions:

- `Engine.callMethod`, `Engine.apply`: what the page and the effects do at once.
- `Move.handle`: a command that a phase has a handler for.
- `Move.process`: something that a script yielded.
- `Move.resume`, `Move.sub`: scripts and other subs.
-/

namespace HotSpec

namespace Engine

/-! ## The page -/

/-- An argument by position or by name. -/
def argument (args : List Value) (options : Table Value) (i : Nat) (name : String) : Value :=
  Value.ofOption (args[i]? <|> options.get? name)

/-- A text repeated. -/
def repeated (text : String) (count : Int) : String :=
  String.join (List.replicate count.toNat text)

/-- Two numbers added and scaled, or two texts joined and repeated. -/
def addScaled (a b scale : Value) : Engine Value :=
  match a.number?, b.number?, scale.number? with
  | some (.inl m), some (.inl n), some (.inl k) => return .int ((m + n) * k)
  | some x, some y, some z =>
    let size : Int ⊕ Float → Float := fun
      | .inl n => Float.ofInt n
      | .inr x => x
    return .float ((size x + size y) * size z)
  | none, none, some (.inl k) =>
    match a, b with
    | .text s, .text t => return .text (repeated (s ++ t) k)
    | a, b => notAdded a b
  | _, _, _ => notAdded a b
where
  /-- The fault of two values that cannot be added. -/
  notAdded (a b : Value) : Engine Value :=
    fail (.type (.notAddable a.fullTypeName b.fullTypeName))

/-- Evaluate an expression on the page: its argument becomes the address. -/
def evaluate (expression arg : Value) : Engine Unit := do
  log (.evaluate expression arg)
  change (·.withSite fun site => { site with url := arg })

/-- Ask the page to do something. -/
def callMethod (m : Site.Method) (args : List Value) (options : Table Value) : Engine Value := do
  let arg (i : Nat) (name : String) : Value := argument args options i name
  match m with
  | .title => return .text "Fake page"
  | .visit => visit (arg 0 "url")
  | .click => log (.click (arg 0 "selector"))
  | .evaluate => evaluate (arg 0 "expression") (arg 1 "arg")
  | .press =>
    log (.press (arg 0 "key") options)
    return .text ("pressed " ++ (arg 0 "key").plain)
  | .add =>
    return ← addScaled (arg 0 "a") (arg 1 "b") ((args[2]? <|> options.get? "scale").getD (.int 1))
  | .boom => fail (.given ⟨.value, "page boom"⟩)
  return .nothing

/-- Get what a path leads to, or call it. -/
def reach (path : List String) (args : List Value) (options : Table Value) : Engine Value := do
  match (← get).site.reach path with
  | .error path => fail (.usage (.noAttribute path))
  | .ok (.method m) => callMethod m args options
  | .ok (.value v) =>
    if args.isEmpty && options.isEmpty then return v
    else fail (.usage (.notFunction path))

/-! ## Effects -/

/-- Go to an address as the page refers to it. -/
def navigate (text : String) : Engine Unit := do
  let page := match (← get).site.url with
    | .text url => url
    | _ => ""
  match Address.target? page text with
  | some url => visit (.text url)
  | none => fail (.given ⟨.value, "Invalid IPv6 URL"⟩)

/-- The expression that adds an address to the history of the page. -/
def pushExpression : String := "url => window.history.pushState(\x7b\x7d, \"\", url)"

/-- Begin a new epoch of expected errors; the first one also begins to claim errors. -/
def expectErrors (expected : Value) (limit : Option Int) (message : Option String) :
    Engine Unit := do
  match (← get).session.errors with
  | some counter =>
    change (·.withSession fun s => { s with errors := some (counter.reset expected limit message) })
  | none =>
    change (·.withSession fun s =>
      { s with errors := some (.start expected limit message), posts := s.posts ++ [.checkErrors],
               errorHandlers := s.errorHandlers ++ [.counter] })

/-- Begin a new epoch of expected loads; the first one also begins to count them. -/
def expectLoads (expected : Value) (message : Option String) : Engine Unit := do
  match (← get).session.loads with
  | some counter =>
    change (·.withSession fun s => { s with loads := some (counter.reset expected none message) })
  | none =>
    change (·.withSession fun s =>
      { s with loads := some (.start expected none message), posts := s.posts ++ [.checkLoads] })
    change (·.withSite (·.listen PageEvent.load.name .loads))

/-- Have an effect on the running test. -/
def apply : Effect → Engine Value
  | .own actions failure answer => do
    log .effect
    perform actions
    match failure with
    | some given => fail (.given given)
    | none => make answer.make
  | .click selector => do log (.click selector); return .nothing
  | .goto url => do navigate url; return .nothing
  | .gotoState url => do evaluate (.text pushExpression) url; return .nothing
  | .pageErrors expected limit message => do expectErrors expected limit message; return .nothing
  | .pageLoads expected message => do expectLoads expected message; return .nothing

end Engine

/-- Whether there is a handler of a phase. -/
def Phases.has (phases : Phases) : Phase → Bool
  | .prepare => phases.init
  | .run => phases.run

namespace Move

/-! ## Handlers -/

/-- A wait for a console message of which nothing is known: it listens for a moment and fails. -/
def hearNothing (fault : Fault) : Move := do
  let number := (← get).waits.length
  modify (·.withSite (·.listen consoleEvent (.wait number)))
  endHearing number (.fail fault)

/-- A command of the run phase of which nothing but the type is known. -/
def runNamed (type : String) : Move := do
  match missingPart? type with
  | some fault => if type = "cons.wait" then hearNothing fault else return .fail fault
  | none =>
    if type = Command.flush.type then return .call (.drain none false none) [.forget]
    else if type = Command.discard.type then
      modify (·.withSession Session.discard)
      return .done
    else giving (Engine.configure (.named type))

/-- A command of the run phase. -/
def runCommand : Command → Move
  | .flush => return .call (.drain none false none) [.forget]
  | .discard => do
    modify (·.withSession Session.discard)
    return .done
  | .change (.label label) => return .call (.drain (some label) false none) [.changed label]
  | .change (.files files) => ofEngine do
    return .call (.write (← Engine.changedFiles files)) []
  | .page path args options => giving (Engine.reach path args options)
  | .innerText selector => do return .give (.value ((← get).site.innerText selector))
  | .consoleWait timeout matchers => return .call (.hear timeout matchers) []
  | .call f => do callAndAwait f [.session (← get).session.shown]
  | .effect e => giving (Engine.apply e)
  | .named type => runNamed type
  | c => giving (Engine.configure c)

/-- A command that a phase has a handler for. -/
def handle (phase : Phase) (c : Command) : Move := do
  modify (·.record (.handled phase c))
  match c, phase with
  | .sleep delay, _ => return .call (.sleep delay) [.forget]
  | .await operand, _ => awaitOperand operand
  | c, .prepare => giving (Engine.prepare c)
  | c, .run => runCommand c

/-- Resolve a command in a phase.  In the first phase, a command without a handler of that phase
starts the run phase. -/
def resolve (phase : Phase) (c : Command) : Move := do
  match (← get).session.registry.get c.type with
  | .error fault => return .fail fault
  | .ok phases =>
    if phases.has phase then handle phase c
    else
      match phase with
      | .prepare => return .call (.start (some c)) []
      | .run => return .fail (.usage (.beforeLoadOnly c.type))

/-- Resolve a command by the handlers of a phase and nothing else. -/
def resolveAlone (phase : Phase) (c : Command) : Move := do
  match (← get).session.registry.get c.type with
  | .error fault => return .fail fault
  | .ok phases =>
    if phases.has phase then handle phase c else return .fail (.type (.notCallable "NoneType"))

/-- Double a number, or sleep as long as a record says. -/
def double (y : Yielded) : Move := do
  modify (·.record (.log (.command y)))
  let wrong : Turn := .fail (.notNumber y.shown)
  match y with
  | .value (.int n) => return .give (.value (.int (2 * n)))
  | .value (.bool b) => return .give (.value (.int (if b then 2 else 0)))
  | .value (.dict rows) =>
    match (Value.dict rows).toFields? with
    | none => return wrong
    | some fields =>
      match (fields.lookup "sleep").bind Value.toFloat? with
      | none => return wrong
      | some delay =>
        return .call (.sleep delay) [.give (Value.ofOption (fields.lookup "value"))]
  | _ => return wrong

/-- Resolve what a script yielded. -/
def process (p : Processor) (y : Yielded) : Move :=
  match p with
  | .doubling => double y
  | .phase phase =>
    match y.toCommand with
    | .ok c => resolve phase c
    | .error fault => return .fail fault
  | .handlers phase =>
    match y.toCommand with
    | .ok c => resolveAlone phase c
    | .error fault => return .fail fault

/-! ## Scripts and subs -/

/-- Resume a script with a reply: nothing is answered with nothing, and all else is resolved. -/
def resume (p : Processor) (g : Nat) (reply : Reply) : Move := do
  match ← modifyGet (·.advance g reply) with
  | .ends reply => return .reply reply
  | .yields (.value .nothing) => return .call (.resume p g (.ok .nothing)) []
  | .yields y => return .call (.process p y) [.answer p g]

/-- What a script yielded was resolved: answer the script, unless it was stopped. -/
def answer (p : Processor) (g : Nat) (o : Outcome) : Move := do
  match o with
  | .value v => return .call (.resume p g (.ok v)) []
  | .fault f => return .call (.resume p g (.error f)) []
  | .stopped => return .give .stopped

/-- Run a sub: subs of a list at the same time, scripts by resolving what they yield, and anything
else that can be called by calling it. -/
def sub (p : Processor) (v : Value) : Move := do
  match v with
  | .list subs | .tuple subs => return .call (.together p subs) []
  | .mixture strings values =>
    return .call (.together p [.list (strings.map .text), .list values]) []
  | .routine r =>
    let g ← modifyGet (·.begin r)
    return .call (.resume p g (.ok .nothing)) []
  | .generator g _ => return .call (.resume p g (.ok .nothing)) []
  | v => if v.isCallable then callAndAwait v [] else return .fail (.usage (.notSub v))

end Move

end HotSpec
