import HotSpec.Engine.Call

/-!
# Waiting

Work that waits: sleeps, functions that are awaited, several futures at the same time, and console
messages.

Main definitions:

- `Move`: a step of a task in a world.
- `Move.await`, `Move.called`: functions that are awaited.
- `Move.together`, `Move.join`, `Move.joined`, `Move.collected`: several futures at the same time.
- `Move.hear`, `Move.heard`, `Move.unheard`: the wait for a console message.
-/

namespace HotSpec

/-- A step of a task: it changes the world and comes to a turn. -/
abbrev Move := StateM World Turn

namespace Move

/-- The turn that something done at once comes to. -/
def ofEngine (e : Engine Turn) : Move := do
  match ← e.run with
  | .ok turn => return turn
  | .error fault => return .fail fault

/-- Give the value of something done at once. -/
def giving (e : Engine Value) : Move := do return .reply (← e.run)

/-- Do something at once that gives no value. -/
def doing (e : Engine Unit) : Move := giving (do e; return .nothing)

/-- Go on with a value, and pass on any other outcome. -/
def onValue (o : Outcome) (next : Value → Move) : Move :=
  match o with
  | .value v => next v
  | o => return .give o

/-- Change the scheduler and get a result of that. -/
def schedule {α : Type}
    (f : Scheduler (List Frame) Job → α × Scheduler (List Frame) Job) : StateM World α := do
  let w ← get
  let (a, scheduler) := f w.scheduler
  set { w with scheduler }
  return a

/-! ## Time -/

/-- Let some time pass; where there is none to pass, the next round is waited for. -/
def sleep (delay : Float) : Move := do
  if delay ≤ 0.0 then return .pause []
  else
    let f ← schedule fun s =>
      let (f, s) := s.newFuture .released
      (f, s.after delay (.release f))
    return .await f []

/-! ## Functions -/

/-- The body of an asynchronous function, after its sleep. -/
def body (c : Callback) : Move := giving do
  Engine.perform c.actions
  match c.failure with
  | some given => Engine.fail (.given given)
  | none => Engine.make c.answer.make

/-- Await something. -/
def await : Awaitable → Move
  | .answer c => return .call (.sleep (c.delay.getD 0.0)) [.slept c.name, .give c.answer]
  | .body c => do
    modify (·.record (.log (.call c.name)))
    match c.delay with
    | some delay => return .call (.sleep delay) [.slept c.name, .body c]
    | none => body c

/-- The sleep of a function is over. -/
def slept (name : String) (o : Outcome) : Move := do
  match o with
  | .value _ => modify (·.record (.log (.awake name)))
  | .stopped => modify (·.record (.log (.cancelled name)))
  | .fault _ => pure ()
  return .give o

/-- Give what a call came to, or await it. -/
def called : Called → Turn
  | .value v => .give (.value v)
  | .awaitable a => .call (.await a) []

/-- Call a value and await what can be awaited. -/
def callAndAwait (f : Value) (args : List Value) : Move :=
  ofEngine do return called (← Engine.call f args)

/-- Await what an operand stands for: something that can be called is called for it. -/
def awaitOperand (operand : Value) : Move := ofEngine do
  let unsupported : Fault := .usage (.badWait operand)
  if !operand.isCallable then Engine.fail unsupported
  else
    match ← Engine.call operand [] with
    | .value _ => Engine.fail unsupported
    | .awaitable a => return .call (.await a) []

/-! ## Several futures -/

/-- The outcome of several futures: the first fault in their order, or else the list of their
results, if it is asked for. -/
def outcomeOf (results : Bool) (outcomes : List Outcome) : Outcome :=
  match outcomes.find? Outcome.isFault with
  | some fault => fault
  | none =>
    if !results then .finished
    else if outcomes.any Outcome.isStopped then .stopped
    else .value (.list (outcomes.filterMap fun
      | .value v => some v
      | _ => none))

/-- The outcomes of settled futures. -/
def outcomes (members : List FutureId) : StateM World (List Outcome) := do
  return members.filterMap (← get).scheduler.outcome?

/-- Wait until one of several futures has failed or all are settled; `frames` get the outcome. -/
def join (members : List FutureId) (results : Bool) (frames : List Frame) : Move := do
  let g ← schedule (·.firstFault members)
  return .await g (.joined members results :: frames)

/-- One of several futures has failed or all are settled, or the wait was stopped.  Those that are
pending are cancelled and waited for. -/
def joined (members : List FutureId) (results : Bool) (o : Outcome) : Move := do
  let scheduler := (← get).scheduler
  let pending := members.filter fun f => !scheduler.isSettled f
  if pending.isEmpty then
    onValue o fun _ => return .give (outcomeOf results (← outcomes members))
  else
    modify (·.withScheduler (·.cancelAll pending))
    let g ← schedule (·.all pending)
    return .await g [.collected members results o]

/-- All of several futures are settled; `waited` is how the first wait for them ended. -/
def collected (members : List FutureId) (results : Bool) (waited o : Outcome) : Move :=
  onValue o fun _ => onValue waited fun _ => return .give (outcomeOf results (← outcomes members))

/-- Start subs in order, each as a task of its own. -/
def spawnAll (p : Processor) : List Value → StateM World (List FutureId)
  | [] => return []
  | sub :: subs => do
    let f ← schedule (·.spawn [.begin (.sub p sub)])
    return f :: (← spawnAll p subs)

/-- Run subs at the same time. -/
def together (p : Processor) (subs : List Value) : Move := do
  if subs.isEmpty then return .give (.value (.list []))
  else join (← spawnAll p subs) true []

/-! ## Console messages -/

/-- The event of console messages. -/
def consoleEvent : String := (PageEvent.console default).name

/-- Wait for a console message for some time. -/
def hear (timeout : Float) (matchers : List Value) : Move := do
  let w ← get
  let number := w.waits.length
  let (found, waiter) ← schedule fun s =>
    let (found, s) := s.newFuture .signal
    let (waiter, s) := s.newFuture .released
    ((found, waiter), (s.after timeout (.release waiter)).watch found (.release waiter))
  modify fun w => { w with waits := w.waits ++ [⟨matchers, found⟩] }
  modify (·.withSite (·.listen consoleEvent (.wait number)))
  return .await waiter [.heard number found]

/-- End a wait for a console message. -/
def endHearing (number : Nat) (turn : Turn) : Move := do
  modify (·.withSite (·.unlisten consoleEvent (.wait number)))
  return turn

/-- A console message came, time is up, or the wait was stopped.  A message that has come counts in
any case. -/
def heard (number : Nat) (found : FutureId) (o : Outcome) : Move := do
  if (← get).scheduler.isSettled found then endHearing number .done
  else
    let ended ← schedule fun s =>
      let (ended, s) := s.newFuture .released
      (ended, ((s.watch found (.release ended)).cancel found).2)
    return .await ended [.unheard number o.isStopped]

/-- The wait for a message was given up. -/
def unheard (number : Nat) (stopped : Bool) (o : Outcome) : Move :=
  endHearing number (if stopped || o.isStopped then .give .stopped else .fail .noMessage)

end Move

end HotSpec
