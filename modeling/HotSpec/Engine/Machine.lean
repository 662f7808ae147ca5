import HotSpec.Engine.Testing

/-!
# The machine

A run as a sequence of small steps.  A step lets the task whose turn it is do one piece of work or
take one outcome; where no task has its turn, it handles what the scheduler has next.

Main definitions:

- `Work.run`, `Frame.take`: what every piece of work and every frame does.
- `Machine.step`: a small step.
- `Machine.runTask`: steps up to the end of a task.
- `Machine.settle`: steps until nothing is ready any more.

Main result:

- `runTask_add`: a run that has ended does not depend on the number of steps allowed.
-/

namespace HotSpec

/-! ## Work and frames -/

/-- What a piece of work does. -/
def Work.run : Work → Move
  | .script => Move.script
  | .start first => Move.start first
  | .load first => Move.load first
  | .inPage first => Move.inPage first
  | .posts index => Move.posts index
  | .resume p g reply => Move.resume p g reply
  | .process p y => Move.process p y
  | .sub p v => Move.sub p v
  | .together p subs => Move.together p subs
  | .sleep delay => Move.sleep delay
  | .await a => Move.await a
  | .hear timeout matchers => Move.hear timeout matchers
  | .deeds ds => Move.deeds ds
  | .write files => Move.write files
  | .drain until? already last => Move.drain until? already last
  | .verify label e stage => Move.verify label e stage

/-- What a frame does with the outcome of the work in front of it. -/
def Frame.take (o : Outcome) : Frame → Move
  | .begin work => Move.onValue o fun _ => return .call work []
  | .forget => Move.onValue o fun _ => return .done
  | .prepared => Move.prepared o
  | .reset first => Move.afterReset first o
  | .raced => Move.raced o
  | .unloaded => Move.unloaded o
  | .opened first => Move.opened first o
  | .firstDone => Move.firstDone o
  | .scriptDone => Move.scriptDone o
  | .flushed => Move.flushed o
  | .posted index => Move.posted index o
  | .pageDone => Move.pageDone o
  | .answer p g => Move.answer p g o
  | .joined members results => Move.joined members results o
  | .collected members results waited => Move.collected members results waited o
  | .slept name => Move.slept name o
  | .give v => Move.onValue o fun _ => Move.giving (Engine.make v.make)
  | .body c => Move.onValue o fun _ => Move.body c
  | .heard number found => Move.heard number found o
  | .unheard number stopped => Move.unheard number stopped o
  | .deeds ds => Move.onValue o fun _ => return .call (.deeds ds) []
  | .during task paths => Move.during task paths o
  | .written until? already label e => Move.written until? already label e o
  | .asserted until? already label => Move.asserted until? already label o
  | .changed label => Move.changed label o
  | .verified label e stage => Move.verified label e stage o

/-! ## Steps -/

/-- What a task is at: a piece of work or an outcome, with the frames that come after it. -/
inductive Control
  | work (work : Work) (stack : List Frame)
  | outcome (o : Outcome) (stack : List Frame)

/-- A world, and the task whose turn it is. -/
structure Machine where
  world : World
  current : Option (TaskId × Control)

namespace Machine

/-- A task at the end of a turn. -/
def follow (t : TaskId) (stack : List Frame) (turn : Turn) (w : World) : Machine :=
  match turn with
  | .give o => ⟨w, some (t, .outcome o stack)⟩
  | .call work frames => ⟨w, some (t, .work work (frames ++ stack))⟩
  | .pause frames => ⟨w.withScheduler (·.pause t (frames ++ stack)), none⟩
  | .await f frames =>
    match w.scheduler.outcome? f with
    | some o => ⟨w, some (t, .outcome o (frames ++ stack))⟩
    | none => ⟨w.withScheduler (·.park t f (frames ++ stack)), none⟩

/-- A turn of a task begins, with an outcome for it. -/
def beginTurn (w : World) (t : TaskId) (o : Outcome) : Machine :=
  match w.scheduler.beginTurn t o with
  | none => ⟨w, none⟩
  | some ((stack, o), scheduler) => ⟨{ w with scheduler }, some (t, .outcome o stack)⟩

/-- Handle something that the scheduler has.  A failure of actions that a timer started is nobody's
business. -/
def handle (w : World) : Handle Job → Machine
  | .turn t => beginTurn w t .finished
  | .wake t f => beginTurn w t ((w.scheduler.outcome? f).getD .stopped)
  | .told g member => ⟨w.withScheduler (·.tell g member), none⟩
  | .release f => ⟨w.withScheduler (·.release f), none⟩
  | .job (.act actions) => ⟨((Engine.perform actions).exec w).2, none⟩
  | .job (.expire error) => ⟨w.tellMonitor (.expired error), none⟩

/-- A step of the task whose turn it is, if there is one. -/
def stepTask (m : Machine) : Option Machine :=
  match m.current with
  | none => none
  | some (t, .work work stack) =>
    let (turn, w) := work.run.run m.world
    some (follow t stack turn w)
  | some (t, .outcome o []) => some ⟨m.world.withScheduler (·.finish t o), none⟩
  | some (t, .outcome o (frame :: stack)) =>
    let (turn, w) := (frame.take o).run m.world
    some (follow t stack turn w)

/-- A step at the present time, if there is anything to do. -/
def stepNow (m : Machine) : Option Machine :=
  match m.stepTask with
  | some m => some m
  | none =>
    m.world.scheduler.next?.map fun (h, scheduler) => handle { m.world with scheduler } h

/-- A step; the clock moves where nothing is ready. -/
def step (m : Machine) : Option Machine :=
  match m.stepTask with
  | some m => some m
  | none =>
    m.world.scheduler.next.map fun (h, scheduler) => handle { m.world with scheduler } h

/-! ## Runs -/

/-- How a run up to the end of a task ends: with its outcome, at a point where nothing can ever
happen, or because the steps allowed are used up. -/
inductive Ending
  | done (o : Outcome) (w : World)
  | stuck (w : World)
  | exhausted (w : World)

/-- Steps up to the settlement of a future. -/
def runTask (f : FutureId) : (steps : Nat) → Machine → Ending
  | 0, m => .exhausted m.world
  | steps + 1, m =>
    match m.current, m.world.scheduler.outcome? f with
    | none, some o => .done o m.world
    | _, _ =>
      match m.step with
      | none => .stuck m.world
      | some m => runTask f steps m

/-- Steps until nothing is ready at the present time. -/
def settle : (steps : Nat) → Machine → World
  | 0, m => m.world
  | steps + 1, m =>
    match m.stepNow with
    | none => m.world
    | some m => settle steps m

/-- Begin a piece of work as a task of its own, whose turn it is. -/
def ofWork (w : World) (work : Work) : FutureId × Machine :=
  let ((t, f), scheduler) := w.scheduler.newTask []
  (f, ⟨{ w with scheduler }, some (t, .work work [])⟩)

theorem runTask_add {f : FutureId} {steps : Nat} {m : Machine} {o : Outcome} {w : World}
    (h : runTask f steps m = .done o w) (more : Nat) : runTask f (steps + more) m = .done o w := by
  induction steps generalizing m with
  | zero => simp [runTask] at h
  | succ steps ih =>
    rw [Nat.succ_add]
    unfold runTask at h ⊢
    split
    · next h₁ h₂ => simpa [h₁, h₂] using h
    · next hn =>
      split at h
      · next h₁ h₂ => exact absurd h₂ (hn _ h₁)
      · split at h
        · simp at h
        · next m' hm => simpa [hm] using ih h

end Machine

end HotSpec
