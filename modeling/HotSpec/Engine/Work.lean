import HotSpec.Engine.Scheduler
import HotSpec.Page.Environment

/-!
# Work and frames

What a task does, as data.  A piece of work comes to an outcome, perhaps after waiting; a frame is
what a task goes on with once the work in front of it has come to one.  A task is a stack of frames.

Main definitions:

- `Processor`: how the commands of a script are resolved.
- `Work`, `Frame`: pieces of work and continuations.
- `Turn`: what a step of a task comes to.
-/

namespace HotSpec

/-- How the commands that a script yields are resolved: in a phase, where the first command without a
handler of the first phase starts the second; by the handlers of a phase and nothing else; or by
doubling numbers. -/
inductive Processor
  | phase (phase : Phase)
  | handlers (phase : Phase)
  | doubling
  deriving Repr, DecidableEq, Inhabited

/-- Where the assertion of an expectation stands. -/
inductive Stage
  | before
  | step (index : Nat)
  | after
  deriving Repr, DecidableEq, Inhabited

/-- Something that can be awaited: the answer of a function after its sleep, or the body of an
asynchronous function. -/
inductive Awaitable
  | answer (c : Callback)
  | body (c : Callback)
  deriving Inhabited

/-- The name of the function that something to be awaited comes from. -/
def Awaitable.name : Awaitable → String
  | .answer c | .body c => c.name

/-- Pieces of work. -/
inductive Work
  /-- Run the script of the test through both phases. -/
  | script
  /-- Start the run phase, with the command that asked for it. -/
  | start (first : Option Command)
  /-- Load the page and run the test on it. -/
  | load (first : Option Command)
  /-- Run the rest of the test on the page. -/
  | inPage (first : Option Command)
  /-- Run the hooks that were left for the end, from one on. -/
  | posts (index : Nat)
  /-- Resume a generator with a reply, and resolve what it yields until it ends. -/
  | resume (p : Processor) (generator : Nat) (reply : Reply)
  /-- Resolve what a script yielded. -/
  | process (p : Processor) (y : Yielded)
  /-- Run a sub. -/
  | sub (p : Processor) (sub : Value)
  /-- Run subs at the same time. -/
  | together (p : Processor) (subs : List Value)
  /-- Let some time pass. -/
  | sleep (delay : Float)
  /-- Await something. -/
  | await (a : Awaitable)
  /-- Wait for a console message. -/
  | hear (timeout : Float) (matchers : List Value)
  /-- Let the environment do its work. -/
  | deeds (deeds : List Deed)
  /-- Write files and wait for the environment to settle. -/
  | write (files : Table Value)
  /-- Assert pending expectations up to a label; `last` is the last one that was asserted. -/
  | drain (until? : Option String) (written : Bool) (last : Option String)
  /-- Assert an expectation from a stage on. -/
  | verify (label : String) (e : Expectation) (stage : Stage)

/-- What a task goes on with. -/
inductive Frame
  /-- Begin a piece of work. -/
  | begin (work : Work)
  /-- Forget the value of the work. -/
  | forget
  /-- The script is over in the first phase. -/
  | prepared
  /-- The environment was asked to start anew. -/
  | reset (first : Option Command)
  /-- The race of the page against its failures is over. -/
  | raced
  /-- The environment has closed the page. -/
  | unloaded
  /-- The initial label was asserted. -/
  | opened (first : Option Command)
  /-- The command that asked for the run phase was resolved. -/
  | firstDone
  /-- The script is over in the second phase. -/
  | scriptDone
  /-- All pending expectations were asserted. -/
  | flushed
  /-- A hook of the end has run. -/
  | posted (index : Nat)
  /-- The test on the page is over, in whatever way. -/
  | pageDone
  /-- A command was resolved: answer the generator that yielded it. -/
  | answer (p : Processor) (generator : Nat)
  /-- Among several futures one has failed or all are done. -/
  | joined (members : List FutureId) (results : Bool)
  /-- The futures that were pending are done; the wait itself had an outcome before. -/
  | collected (members : List FutureId) (results : Bool) (waited : Outcome)
  /-- The sleep of a function is over. -/
  | slept (name : String)
  /-- Give the answer of a function. -/
  | give (answer : Value)
  /-- Run the body of a function. -/
  | body (c : Callback)
  /-- A console message came, or time is up. -/
  | heard (number : Nat) (found : FutureId)
  /-- The wait for a message was given up: because time is up, or because it was stopped. -/
  | unheard (number : Nat) (stopped : Bool)
  /-- Go on with what the environment does. -/
  | deeds (deeds : List Deed)
  /-- Say what the environment was asked for, where it fails. -/
  | during (task : EnvironmentTask) (paths : List String)
  /-- The files of a pending label were written. -/
  | written (until? : Option String) (written : Bool) (label : String) (e : Expectation)
  /-- The expectation of a label was asserted. -/
  | asserted (until? : Option String) (written : Bool) (label : String)
  /-- Pending expectations were asserted up to a label that is to be changed to. -/
  | changed (label : String)
  /-- A stage of an expectation was run. -/
  | verified (label : String) (e : Expectation) (stage : Stage)

/-- What a step of a task comes to. -/
inductive Turn
  /-- An outcome for the next frame. -/
  | give (outcome : Outcome)
  /-- More work, with frames that get its outcome. -/
  | call (work : Work) (frames : List Frame)
  /-- A wait for a future, with frames that get its outcome. -/
  | await (future : FutureId) (frames : List Frame)
  /-- A wait for the next round. -/
  | pause (frames : List Frame)

namespace Turn

/-- Nothing more to do. -/
def done : Turn := .give .finished

/-- The outcome of a reply. -/
def reply (r : Reply) : Turn := .give (.ofReply r)

/-- A fault. -/
def fail (fault : Fault) : Turn := .give (.fault fault)

end Turn

/-- What a timer starts: actions, or the end of a burst of console messages. -/
inductive Job
  | act (actions : List Action)
  | expire (error : Bool)

end HotSpec
