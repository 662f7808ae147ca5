import HotSpec.Console.Monitor
import HotSpec.Engine.Work
import HotSpec.Session.Basic

/-!
# The world of a run

Everything that a run depends on and changes: the session, the page and its environment, the console
monitor, the scripts that have begun, and the scheduler of tasks.

Main definitions:

- `World`: the state of a run.
- `Engine`: what is done at once, with a fault if it fails.
- `World.log`: the lines of the log so far.
-/

namespace HotSpec

/-- Where a script stands: before an instruction, at an instruction that waits for its answer, before
a command of a fixed list, or at its end. -/
inductive Progress
  | before (index : Nat) (rest : Script)
  | waiting (index : Nat) (caught : Bool) (wanted : Option Value) (rest : Script)
  | commands (rest : List Command)
  | ended
  deriving Inhabited

/-- A script that has begun. -/
structure Generator where
  name : String
  answer : Value
  progress : Progress
  deriving Inhabited

/-- A wait for a console message, with the future that is settled by it. -/
structure MessageWait where
  matchers : List Value
  found : FutureId
  deriving Inhabited

/-- The state of a run.  Subs of expectations are resolved by `processor`; the history has the latest
event in front. -/
structure World where
  scheduler : Scheduler (List Frame) Job
  environment : Environment
  site : Site
  session : Session
  processor : Processor
  monitor : Monitor
  verdict : Option FutureId
  failSignal : Option FutureId
  generators : List Generator
  waits : List MessageWait
  history : List Event
  deriving Inhabited

namespace World

/-- The world before a run. -/
def start (environment : Environment) (session : Session) : World where
  scheduler := .empty
  environment := environment
  site := environment.site
  session := session
  processor := .phase .run
  monitor := .start
  verdict := none
  failSignal := none
  generators := []
  waits := []
  history := []

/-- The events so far, in order. -/
def events (w : World) : List Event := w.history.reverse

/-- The lines of the log so far, in order. -/
def log (w : World) : List LogEntry := w.events.filterMap Event.entry?

/-- Change what the world knows of the test. -/
def withSession (w : World) (f : Session → Session) : World := { w with session := f w.session }

/-- Change the page. -/
def withSite (w : World) (f : Site → Site) : World := { w with site := f w.site }

/-- Change the scheduler. -/
def withScheduler (w : World) (f : Scheduler (List Frame) Job → Scheduler (List Frame) Job) :
    World :=
  { w with scheduler := f w.scheduler }

/-- Record an event. -/
def record (w : World) (e : Event) : World := { w with history := e :: w.history }

/-- Settle a future, if there is one. -/
def settle (w : World) (f : Option FutureId) (o : Outcome) : World :=
  match f with
  | some f => w.withScheduler (·.settle f o)
  | none => w

/-- Begin a script. -/
def begin (w : World) (r : Routine) : Nat × World :=
  (w.generators.length,
    { w with generators := w.generators ++ [⟨r.name, r.answer, .before 0 r.script⟩] })

end World

/-- What is done at once.  What was done before a fault stays done. -/
abbrev Engine (α : Type) := ExceptT Fault (StateM World) α

namespace Engine

/-- Do something in a world. -/
def exec {α : Type} (e : Engine α) (w : World) : Except Fault α × World := e.run w

/-- Change the world. -/
def change (f : World → World) : Engine Unit := modify f

/-- Record an event. -/
def record (e : Event) : Engine Unit := modify (·.record e)

/-- Write a line of the log. -/
def log (entry : LogEntry) : Engine Unit := record (.log entry)

/-- Fail. -/
def fail {α : Type} (f : Fault) : Engine α := throw f

/-- What a computation without effects comes to. -/
def ofExcept {α : Type} (r : Except Fault α) : Engine α := ExceptT.mk (pure r)

/-- Make something whose parts may be generators. -/
def make {α : Type} (m : Making α) : Engine α := do
  let first := (← get).generators.length
  let (a, maker) ← ofExcept (m.run ⟨first, []⟩)
  modify fun w => maker.made.foldl (fun w r => (w.begin r).2) w
  return a

end Engine

end HotSpec
