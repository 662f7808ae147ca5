import HotSpec.Command.Request

/-!
# What happens in a run

The history of a run.  Part of it is the log that a report shows: what scripts, functions, the page
and the environment did.  The rest says what became of commands and expectations, so that the order
of things can be spoken of.

Main definitions:

- `LogEntry`: the lines of the log.
- `Event`, `Event.entry?`: all that happens, and the part that the log shows.
-/

namespace HotSpec

/-- The two phases of a test: before its page is loaded, and after. -/
inductive Phase
  | prepare
  | run
  deriving Repr, DecidableEq, Inhabited

/-- The lines of the log. -/
inductive LogEntry
  | call (name : String)
  | awake (name : String)
  | cancelled (name : String)
  | template (name : String) (value : Value)
  | effect
  | command (yielded : Yielded)
  | result (place : String) (value : Value) (pending : Option (List String))
  | caught (place : String) (fault : Fault) (pending : Option (List String))
  | click (selector : Value)
  | visit (url : Value)
  | evaluate (expression argument : Value)
  | press (key : Value) (options : Table Value)
  | reset (files : Table Value)
  | write (files : Table Value)
  | loadPage (url : String)
  | pageDone
  | echo (text : String)
  | text (text : String)
  deriving Inhabited

/-- All that happens. -/
inductive Event
  /-- A line of the log. -/
  | log (entry : LogEntry)
  /-- A script yielded something and waits for its answer. -/
  | yielded (generator : Nat) (yielded : Yielded)
  /-- A handler of a phase got a command. -/
  | handled (phase : Phase) (command : Command)
  /-- The expectations of these labels became pending. -/
  | opened (labels : List String)
  /-- The page was handed over to the engine. -/
  | ready
  /-- The expectation of a label was taken from the pending ones. -/
  | popped (label : String)
  /-- The files of a label are being written. -/
  | writing (label : String)
  /-- The files of a label were written, and the environment has settled. -/
  | settled (label : String)
  /-- The expectation of a label is being asserted. -/
  | asserting (label : String)
  /-- The expectation of a label was asserted, with this outcome. -/
  | asserted (label : String) (failed : Bool)
  /-- The console monitor or the fail signal failed the test. -/
  | failed (fault : Fault)
  /-- The run phase has ended without a failure. -/
  | passed
  /-- The run phase has ended with a failure. -/
  | halted (fault : Fault)

/-- The line of the log that an event is, if it is one. -/
def Event.entry? : Event → Option LogEntry
  | .log entry => some entry
  | _ => none

end HotSpec
