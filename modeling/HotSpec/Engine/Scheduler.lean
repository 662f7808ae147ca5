import HotSpec.Engine.Outcome
import HotSpec.Text.Decimal

/-!
# The scheduler

Tasks that take turns.  A task runs until it waits for a future; futures are settled once, and
whoever watches one is told in the next round.  A round handles everything that was ready when it
began, and timers that are due; the clock moves only when nothing is ready.

The scheduler knows nothing of what tasks do: `Stack` is whatever a task goes on with, and `Job`
is whatever a timer starts.

Main definitions:

- `Scheduler.settle`, `Scheduler.watch`: futures and those who watch them.
- `Scheduler.gather`: a future that settles when others have.
- `Scheduler.cancel`: ask that a future settle without a result.
- `Scheduler.next`: what is handled next.
-/

namespace HotSpec

/-! ## Time -/

/-- Time in the smallest steps that a double can tell apart. -/
abbrev Ticks := Nat

namespace Ticks

/-- The number of ticks of a second, as a power of two. -/
def perSecond : Nat := 1074

/-- A time that never comes before any other. -/
def forever : Ticks := Nat.pow 2 2099

/-- The ticks of a number of seconds; negative numbers and those that are none count as zero. -/
def ofSeconds (x : Float) : Ticks :=
  let bits := x.toBits.toNat
  let magnitude := bits % Nat.pow 2 63
  if bits ≠ magnitude || 0x7ff * Nat.pow 2 52 < magnitude then 0
  else if magnitude = 0x7ff * Nat.pow 2 52 then forever
  else
    let b := Decimal.Binary.ofBits x.toBits
    b.mantissa * Nat.pow 2 (b.exponent + perSecond).toNat

/-- Timers that are due within a billionth of a second are due now. -/
def grain : Ticks := Nat.pow 2 perSecond / Nat.pow 10 9

end Ticks

/-! ## Futures and tasks -/

/-- Number of a future. -/
abbrev FutureId := Nat

/-- Number of a task. -/
abbrev TaskId := Nat

/-- Who is told when a future settles: a task that waits for it, a future that waits for several,
or a future that is released by it. -/
inductive Watcher
  | task (task : TaskId)
  | member (group : FutureId)
  | release (future : FutureId)
  deriving Repr, DecidableEq

/-- What settles a future: whoever has something to tell, a timer or another future that releases it,
the end of a task, the first fault among some futures or else the last of them, or all of some
futures. -/
inductive FutureKind
  | signal
  | released
  | task (task : TaskId)
  | firstFault (members : List FutureId) (left : Nat)
  | all (members : List FutureId) (left : Nat) (stopping : Bool)
  deriving Repr, DecidableEq

/-- A future: its outcome once it is settled, and who watches it until then. -/
structure Future where
  kind : FutureKind
  outcome : Option Outcome
  watchers : List Watcher

instance : Inhabited Future := ⟨⟨.signal, none, []⟩⟩

/-- Whether a future is settled. -/
def Future.settled (f : Future) : Bool := f.outcome.isSome

/-- A task: what it goes on with, the future of its end, the future that it waits for, and whether
it is to be stopped at its next turn. -/
structure Task (Stack : Type) where
  stack : Stack
  future : FutureId
  awaiting : Option FutureId
  stopping : Bool

/-- What can be handled: a turn of a task, news of a settled future, or a job. -/
inductive Handle (Job : Type)
  | turn (task : TaskId)
  | wake (task : TaskId) (future : FutureId)
  | told (group member : FutureId)
  | release (future : FutureId)
  | job (job : Job)

/-- Tasks that take turns: the time, all futures and tasks, what the present round has still to
handle, what the next round will, and timers by their time. -/
structure Scheduler (Stack Job : Type) where
  now : Ticks
  futures : List Future
  tasks : List (Task Stack)
  round : List (Handle Job)
  ready : List (Handle Job)
  timers : List (Ticks × Handle Job)

namespace Scheduler

variable {Stack Job : Type}

/-- A scheduler without tasks, at the beginning of time. -/
def empty : Scheduler Stack Job := ⟨0, [], [], [], [], []⟩

instance : Inhabited (Scheduler Stack Job) := ⟨empty⟩

/-! ## Futures -/

/-- A future; there is one that nobody settles for a number that was never given. -/
def future (s : Scheduler Stack Job) (f : FutureId) : Future := (s.futures[f]?).getD default

/-- The outcome of a future, if it is settled. -/
def outcome? (s : Scheduler Stack Job) (f : FutureId) : Option Outcome := (s.future f).outcome

/-- Whether a future is settled. -/
def isSettled (s : Scheduler Stack Job) (f : FutureId) : Bool := (s.future f).settled

/-- Change a future. -/
def setFuture (s : Scheduler Stack Job) (f : FutureId) (future : Future) : Scheduler Stack Job :=
  { s with futures := s.futures.set f future }

/-- Make a future. -/
def newFuture (s : Scheduler Stack Job) (kind : FutureKind) : FutureId × Scheduler Stack Job :=
  (s.futures.length, { s with futures := s.futures ++ [⟨kind, none, []⟩] })

/-- How a watcher is told of a future. -/
def handleOf (f : FutureId) : Watcher → Handle Job
  | .task t => .wake t f
  | .member g => .told g f
  | .release g => .release g

/-- Have something handled in the next round. -/
def enqueue (s : Scheduler Stack Job) (handles : List (Handle Job)) : Scheduler Stack Job :=
  { s with ready := s.ready ++ handles }

/-- Settle a future, unless it is settled. -/
def settle (s : Scheduler Stack Job) (f : FutureId) (o : Outcome) : Scheduler Stack Job :=
  let future := s.future f
  if future.settled then s
  else
    (s.setFuture f { future with outcome := some o, watchers := [] }).enqueue
      (future.watchers.map (handleOf f))

/-- Watch a future: whoever watches a settled one is told in the next round. -/
def watch (s : Scheduler Stack Job) (f : FutureId) (w : Watcher) : Scheduler Stack Job :=
  let future := s.future f
  if future.settled then s.enqueue [handleOf f w]
  else s.setFuture f { future with watchers := future.watchers ++ [w] }

/-- A future that waits for several others. -/
def gather (s : Scheduler Stack Job) (kind : FutureKind) (members : List FutureId) :
    FutureId × Scheduler Stack Job :=
  let (g, s) := s.newFuture kind
  (g, members.foldl (fun s f => s.watch f (.member g)) s)

/-- A future of the first fault among others, or else of the last of them. -/
def firstFault (s : Scheduler Stack Job) (members : List FutureId) :
    FutureId × Scheduler Stack Job :=
  s.gather (.firstFault members members.length) members

/-- A future of the last of several others. -/
def all (s : Scheduler Stack Job) (members : List FutureId) : FutureId × Scheduler Stack Job :=
  s.gather (.all members members.length false) members

/-- Tell a future that waits for several others of one of them. -/
def tell (s : Scheduler Stack Job) (g member : FutureId) : Scheduler Stack Job :=
  let future := s.future g
  let failed := (s.outcome? member).any Outcome.isFault
  match future.kind with
  | .firstFault members left =>
    let s := s.setFuture g { future with kind := .firstFault members (left - 1) }
    if left ≤ 1 || failed then s.settle g .finished else s
  | .all members left stopping =>
    let s := s.setFuture g { future with kind := .all members (left - 1) stopping }
    if left ≤ 1 then s.settle g (if stopping then .stopped else .finished) else s
  | _ => s

/-- Release a future that is settled in this way. -/
def release (s : Scheduler Stack Job) (f : FutureId) : Scheduler Stack Job :=
  match (s.future f).kind with
  | .released => s.settle f .finished
  | _ => s

/-! ## Tasks -/

/-- A task, if the number was given. -/
def task? (s : Scheduler Stack Job) (t : TaskId) : Option (Task Stack) := s.tasks[t]?

/-- Change a task. -/
def setTask (s : Scheduler Stack Job) (t : TaskId) (task : Task Stack) : Scheduler Stack Job :=
  { s with tasks := s.tasks.set t task }

/-- Make a task that has not begun, with the future of its end. -/
def newTask (s : Scheduler Stack Job) (stack : Stack) :
    (TaskId × FutureId) × Scheduler Stack Job :=
  let t := s.tasks.length
  let (f, s) := s.newFuture (.task t)
  ((t, f), { s with tasks := s.tasks ++ [⟨stack, f, none, false⟩] })

/-- Make a task that begins in the next round. -/
def spawn (s : Scheduler Stack Job) (stack : Stack) : FutureId × Scheduler Stack Job :=
  let ((t, f), s) := s.newTask stack
  (f, s.enqueue [.turn t])

/-- Mark a task as one to be stopped at its next turn. -/
def stopNext (s : Scheduler Stack Job) (t : TaskId) : Scheduler Stack Job :=
  match s.task? t with
  | some task => s.setTask t { task with stopping := true }
  | none => s

/-- Mark a future that waits for several others as stopping. -/
def markStopping (s : Scheduler Stack Job) (g : FutureId) : Scheduler Stack Job :=
  let future := s.future g
  match future.kind with
  | .all members left _ => s.setFuture g { future with kind := .all members left true }
  | _ => s

/-- Ask that a future settle without a result; with the news whether it is going to.  A task is
asked by way of what it waits for.  The depth of such ways is bounded by `fuel`. -/
def cancelWithin : (fuel : Nat) → FutureId → Scheduler Stack Job → Bool × Scheduler Stack Job
  | 0, _, s => (false, s)
  | fuel + 1, f, s =>
    if s.isSettled f then (false, s)
    else
      match (s.future f).kind with
      | .signal | .released | .firstFault .. => (true, s.settle f .stopped)
      | .all members .. =>
        let (any, s) := members.foldl (fun (any, s) member =>
          let (asked, s) := cancelWithin fuel member s
          (any || asked, s)) (false, s)
        (any, if any then s.markStopping f else s)
      | .task t =>
        match (s.task? t).bind Task.awaiting with
        | none => (true, s.stopNext t)
        | some awaited =>
          let (asked, s) := cancelWithin fuel awaited s
          (true, if asked then s else s.stopNext t)

/-- Ask that a future settle without a result; with the news whether it is going to. -/
def cancel (s : Scheduler Stack Job) (f : FutureId) : Bool × Scheduler Stack Job :=
  cancelWithin (s.futures.length + 1) f s

/-- Ask that futures settle without results. -/
def cancelAll (s : Scheduler Stack Job) (fs : List FutureId) : Scheduler Stack Job :=
  fs.foldl (fun s f => (s.cancel f).2) s

/-! ## Turns -/

/-- Begin a turn of a task: what it goes on with is taken from it, with the outcome that it is given.
A task that is to be stopped is given that in place of any other outcome. -/
def beginTurn [Inhabited Stack] (s : Scheduler Stack Job) (t : TaskId) (o : Outcome) :
    Option ((Stack × Outcome) × Scheduler Stack Job) :=
  (s.task? t).map fun task =>
    ((task.stack, if task.stopping then .stopped else o),
      s.setTask t { task with stack := default, awaiting := none, stopping := false })

/-- End a turn at a future that the task waits for. -/
def park (s : Scheduler Stack Job) (t : TaskId) (f : FutureId) (stack : Stack) :
    Scheduler Stack Job :=
  match s.task? t with
  | none => s
  | some task =>
    (s.watch f (.task t)).setTask t { task with stack, awaiting := some f }

/-- End a turn until the next round. -/
def pause (s : Scheduler Stack Job) (t : TaskId) (stack : Stack) : Scheduler Stack Job :=
  match s.task? t with
  | none => s
  | some task => (s.setTask t { task with stack }).enqueue [.turn t]

/-- End a task. -/
def finish (s : Scheduler Stack Job) (t : TaskId) (o : Outcome) : Scheduler Stack Job :=
  match s.task? t with
  | none => s
  | some task => s.settle task.future o

/-! ## Rounds -/

/-- Put a timer among others, after those of the same time. -/
def insertTimer (deadline : Ticks) (h : Handle Job) :
    List (Ticks × Handle Job) → List (Ticks × Handle Job)
  | [] => [(deadline, h)]
  | timer :: timers =>
    if deadline < timer.1 then (deadline, h) :: timer :: timers
    else timer :: insertTimer deadline h timers

/-- Have something handled after some time. -/
def after (s : Scheduler Stack Job) (delay : Float) (h : Handle Job) : Scheduler Stack Job :=
  { s with timers := insertTimer (s.now + Ticks.ofSeconds delay) h s.timers }

/-- Whether a timer is due at a time. -/
def isDue (now : Ticks) (timer : Ticks × Handle Job) : Bool := timer.1 < now + Ticks.grain

/-- Begin a round: all that is ready, and the timers that are due. -/
def beginRound (s : Scheduler Stack Job) : Scheduler Stack Job :=
  let due := s.timers.takeWhile (isDue s.now)
  { s with round := s.ready ++ due.map Prod.snd, ready := [],
           timers := s.timers.drop due.length }

/-- Move the clock to the first timer, if it lies ahead. -/
def advanceClock (s : Scheduler Stack Job) : Option (Scheduler Stack Job) :=
  match s.timers with
  | [] => none
  | timer :: _ => some { s with now := max s.now timer.1 }

/-- What is handled next at the present time; a new round begins where one is over. -/
def next? (s : Scheduler Stack Job) : Option (Handle Job × Scheduler Stack Job) :=
  let s := if s.round.isEmpty then s.beginRound else s
  match s.round with
  | [] => none
  | h :: round => some (h, { s with round })

/-- What is handled next; the clock moves where nothing is ready.  There is nothing to handle only
if there is no timer either. -/
def next (s : Scheduler Stack Job) : Option (Handle Job × Scheduler Stack Job) :=
  match s.next? with
  | some step => some step
  | none => s.advanceClock.bind next?

end Scheduler

end HotSpec
