import HotSpec.Proofs.Engine.Acts

/-!
# The rules of a step

What a task does in one step, said once.  Most steps change the world by acts only: they reply, pass
an outcome on, or call more work as the tables of calls say.  The other steps have a rule each.

Main definitions:

- `Head`: a piece of work that is to be done, or a frame that takes an outcome.
- `Calls`, `Commands`: what work calls, and what the commands of a script call.
- `Phase.sets`, `World.Answers`: which commands register something, and what handlers do at once.
- `Asks`: what a head asks of the scheduler.
- `Rule`: what a head may do in a world.

That everything is done by a rule is proved elsewhere.
-/

namespace HotSpec

/-- What a task is at: a piece of work, or a frame with its outcome. -/
inductive Head
  | work (work : Work)
  | frame (frame : Frame) (o : Outcome)

/-- What is done at a head. -/
def Head.run : Head → Move
  | .work w => w.run
  | .frame f o => f.take o

/-! ## Calls -/

/-- What the page is given to do at its beginning. -/
inductive Begins (first : Option Command) : List Frame → Prop
  | command {c} (h : first = some c) :
      Begins first [.begin (.process Move.onPage (.command c)), .firstDone]
  | script (h : first = none) :
      Begins first [.begin (.resume Move.onPage scriptNumber (.ok .nothing)), .scriptDone]

/-- What work and frames call without any further effect than acts: the new work comes first. -/
inductive Calls : Head → List Frame → Prop
  | script : Calls (.work .script)
      [.begin (.resume (.phase .prepare) scriptNumber (.ok .nothing)), .prepared]
  | postSub {i v} : Calls (.work (.posts i)) [.begin (.sub Move.onPage v), .posted i]
  | postNext {i} : Calls (.work (.posts i)) [.begin (.posts (i + 1))]
  | double {y d v} : Calls (.work (.process .doubling y)) [.begin (.sleep d), .give v]
  | start {y c} : Calls (.work (.process (.phase .prepare) y)) [.begin (.start (some c))]
  | list {p v subs} : Calls (.work (.sub p v)) [.begin (.together p subs)]
  | generator {p v g} : Calls (.work (.sub p v)) [.begin (.resume p g (.ok .nothing))]
  | call {p v a} : Calls (.work (.sub p v)) [.begin (.await a)]
  | answered {c d n v} :
      Calls (.work (.await (.answer c))) [.begin (.sleep d), .slept n, .give v]
  | delayed {c d n} : Calls (.work (.await (.body c))) [.begin (.sleep d), .slept n, .body c]
  | chore {c ds} : Calls (.work (.deeds (.chore c :: ds))) [.begin (.deeds ds)]
  | nap {c d ds} : Calls (.work (.deeds (.chore c :: ds))) [.begin (.sleep d), .deeds ds]
  | openPage {ds} : Calls (.work (.deeds (.openPage :: ds))) [.begin (.deeds ds)]
  | beforeLoad {v ds} :
      Calls (.work (.deeds (.openPage :: ds))) [.begin (.sub Move.onPage v), .deeds ds]
  | handOver {first ds} : Calls (.work (.deeds (.handOver first :: ds)))
      [.begin (.inPage first), .pageDone, .deeds ds]
  | write {files cs paths} : Calls (.work (.write files))
      [.begin (.deeds (List.map Deed.chore cs)), .during .update paths]
  | verifySub {l e st p v} (h : st ≠ .before) :
      Calls (.work (.verify l e st)) [.begin (.sub p v), .verified l e st]
  | verifyNext {l e st st'} (h : st ≠ .before) (h' : Move.nextStage e st = some st') :
      Calls (.work (.verify l e st)) [.begin (.verify l e st')]
  | begin {work v} : Calls (.frame (.begin work) (.value v)) [.begin work]
  | prepared {v} : Calls (.frame .prepared (.value v)) [.begin (.start none), .forget]
  | opened {first v frames} (h : Begins first frames) :
      Calls (.frame (.opened first) (.value v)) frames
  | firstDone {o r} (h : o ≠ .stopped) : Calls (.frame .firstDone o)
      [.begin (.resume Move.onPage scriptNumber r), .scriptDone]
  | scriptDone {v} :
      Calls (.frame .scriptDone (.value v)) [.begin (.drain none false none), .flushed]
  | flushed {v} : Calls (.frame .flushed (.value v)) [.begin (.posts 0)]
  | posted {i v} : Calls (.frame (.posted i) (.value v)) [.begin (.posts (i + 1))]
  | answer {p g o r} (h : o ≠ .stopped) : Calls (.frame (.answer p g) o) [.begin (.resume p g r)]
  | deeds {ds v} : Calls (.frame (.deeds ds) (.value v)) [.begin (.deeds ds)]
  | verified {l e st st' v} (h' : Move.nextStage e st = some st') :
      Calls (.frame (.verified l e st) (.value v)) [.begin (.verify l e st')]

/-- What a command calls in a phase. -/
inductive Commands : Phase → Command → List Frame → Prop
  | sleep {phase d} : Commands phase (.sleep d) [.begin (.sleep d), .forget]
  | await {phase v a} : Commands phase (.await v) [.begin (.await a)]
  | flush {c} (h : c.type = Command.flush.type) :
      Commands .run c [.begin (.drain none false none), .forget]
  | change {l} :
      Commands .run (.change (.label l)) [.begin (.drain (some l) false none), .changed l]
  | write {files files'} : Commands .run (.change (.files files)) [.begin (.write files')]
  | hear {d ms} : Commands .run (.consoleWait d ms) [.begin (.hear d ms)]
  | call {f a} : Commands .run (.call f) [.begin (.await a)]

/-- Whether a command is handled in a phase by registering something, if only by chance nothing. -/
def Phase.sets : Phase → Command → Bool
  | .prepare, .sleep _ | .prepare, .await _ => false
  | .prepare, _ => true
  | .run, .templates _ | .run, .ignore .. => true
  | .run, _ => false

/-- How a command of a phase is handled that registers something. -/
def Engine.setting : Phase → Command → Engine Value
  | .prepare => prepare
  | .run => configure

/-- Whether work came to a value. -/
def Outcome.isValue : Outcome → Bool
  | .value _ => true
  | _ => false

/-- Whether a head may reply with a value or a fault, after acts only. -/
def Head.replies : Head → Bool
  | .work (.start _) | .work (.posts _) | .work (.process ..) | .work (.sub ..)
  | .work (.together ..) | .work (.await _) | .work (.deeds _) | .work (.verify ..) => true
  | .frame .forget o | .frame .prepared o | .frame .unloaded o | .frame (.give _) o
  | .frame (.body _) o | .frame (.changed _) o => o.isValue
  | .frame (.during ..) o | .frame (.verified ..) o => !o.isStopped
  | _ => false

/-- Whether a frame passes on an outcome that is none of its own. -/
def Frame.passes : Frame → Outcome → Bool
  | .slept _, _ | .pageDone, _ => true
  | .raced, _ | .joined .., _ | .collected .., _ | .heard .., _ | .unheard .., _
  | .asserted .., _ => false
  | .firstDone, o | .answer .., o | .during .., o | .verified .., o => o.isStopped
  | _, o => !o.isValue

/-- The phase whose handlers resolve commands. -/
def Processor.phase? : Processor → Option Phase
  | .phase p | .handlers p => some p
  | .doubling => none

/-! ## Worlds -/

/-- What becomes of a script that is resumed. -/
inductive World.Advances (w : World) (g : Nat) : Advance → World → Prop
  | stays {w' reply} (h : w.Acts w') : Advances w g (.ends reply) w'
  | ends {w' reply} (h : w.Acts w') : Advances w g (.ends reply) (w'.setProgress g .ended)
  | yields {w' p y} (h : w.Acts w') :
      Advances w g (.yields y) ((w'.setProgress g p).record (.yielded g y))

/-- What a handler does at once: it acts, or registers something. -/
inductive World.Answers (w : World) (phase : Phase) (c : Command) : Reply → World → Prop
  | acts {r w'} (hset : phase.sets c = false) (h : w.Acts w') : Answers w phase c r w'
  | sets (hset : phase.sets c = true) : Answers w phase c
      ((Engine.setting phase c).exec w).1 ((Engine.setting phase c).exec w).2

/-- What a task does about a script that was resumed. -/
def resumed (p : Processor) (g : Nat) : Advance → Turn
  | .ends reply => .reply reply
  | .yields (.value .nothing) => .call (.resume p g (.ok .nothing)) []
  | .yields y => .call (.process p y) [.answer p g]

namespace World

/-- The number of the second future that is made from now on. -/
def secondFuture (w : World) : FutureId := (w.scheduler.newFuture .signal).2.futures.length

/-- The world once the run phase has started. -/
def starting (w : World) : World :=
  { w with
    session := { w.session with started := true }
    scheduler := ((w.scheduler.newFuture .signal).2.newFuture .signal).2
    processor := Move.onPage
    monitor := .start
    verdict := some w.scheduler.futures.length
    failSignal := some w.secondFuture
    history := .log (.reset w.session.inits) :: w.history }

/-- The world once the expectations are pending. -/
def opening (w : World) : World :=
  (w.withSession Session.openQueue).record (.opened w.session.expects.keys)

/-- The futures of a race with a page that is being loaded: the load, the verdict of the monitor, and
the fail signal. -/
def racers (w : World) : List FutureId :=
  w.scheduler.futures.length :: w.verdict.toList ++ w.failSignal.toList

/-- The world of a race with a page that is being loaded. -/
def racing (w : World) (first : Option Command) : World :=
  w.opening.withScheduler fun s => ((s.spawn [.begin (.load first)]).2.firstFault w.racers).2

/-- The future that a race waits for. -/
def race (w : World) (first : Option Command) : FutureId :=
  ((w.scheduler.spawn [.begin (.load first)]).2.firstFault w.racers).1

/-- How the run phase has ended. -/
def ended (w : World) : Outcome → World
  | .value _ => w.record .passed
  | .fault f => w.record (.halted f)
  | .stopped => w

/-- The world once an expectation was taken from the pending ones. -/
def popping (w : World) (label : String) (queue : List (String × Expectation)) : World :=
  ({ w with session := { w.session with pending := some queue } }).record (.popped label)

/-- The files of a label as values. -/
def labelFiles (w : World) (label : String) : Table Value :=
  (w.session.variantFiles label).map fun (path, text) => (path, .text text)

/-- The futures among several that are not settled yet. -/
def open? (w : World) (members : List FutureId) : List FutureId :=
  members.filter fun f => !w.scheduler.isSettled f

/-- The outcome of several settled futures. -/
def jointOutcome (w : World) (members : List FutureId) (results : Bool) : Outcome :=
  Move.outcomeOf results (members.filterMap w.scheduler.outcome?)

/-- The world once a wait for a console message has begun. -/
def hearing (w : World) (timeout : Float) (matchers : List Value) : World :=
  { w with
    scheduler := (((w.scheduler.newFuture .signal).2.newFuture .released).2.after timeout
      (.release w.secondFuture)).watch w.scheduler.futures.length (.release w.secondFuture)
    waits := w.waits ++ [⟨matchers, w.scheduler.futures.length⟩]
    site := w.site.listen Move.consoleEvent (.wait w.waits.length) }

/-- The world once a wait for a console message has ended. -/
def unhearing (w : World) (n : Nat) : World := w.withSite (·.unlisten Move.consoleEvent (.wait n))

end World

/-- One outcome after another: the second one counts if the first one is a value. -/
def Outcome.andThen : Outcome → Outcome → Outcome
  | .value _, o => o
  | o, _ => o

/-! ## Rules -/

/-- What a head asks of the scheduler beyond acts: signals, a sleep, other tasks, or a wait. -/
inductive Asks : Head → World → Turn → World → Prop
  | sleep {d w} : Asks (.work (.sleep d)) w (.await w.scheduler.futures.length [])
      (w.withScheduler fun s => (s.newFuture .released).2.after d (.release s.futures.length))
  /-- Subs start, each as a task of its own. -/
  | together {p subs fs w w'} (hsubs : subs ≠ []) (h : (Move.spawnAll p subs).run w = (fs, w')) :
      Asks (.work (.together p subs)) w (.await (w'.scheduler.firstFault fs).1 [.joined fs true])
        (w'.withScheduler fun s => (s.firstFault fs).2)
  /-- Several futures are cancelled, those that are open. -/
  | cancelled {members results o w} (h : w.open? members ≠ []) :
      Asks (.frame (.joined members results) o) w
        (.await ((w.scheduler.cancelAll (w.open? members)).all (w.open? members)).1
          [.collected members results o])
        (w.withScheduler fun s => ((s.cancelAll (w.open? members)).all (w.open? members)).2)
  | hear {timeout matchers w} : Asks (.work (.hear timeout matchers)) w
      (.await w.secondFuture [.heard w.waits.length w.scheduler.futures.length])
      (w.hearing timeout matchers)
  /-- The wait for a console message is over before one has come. -/
  | heard {n found o w} (h : w.scheduler.isSettled found = false) :
      Asks (.frame (.heard n found) o) w
        (.await w.scheduler.futures.length [.unheard n o.isStopped])
        (w.withScheduler fun s => ((((s.newFuture .released).2.watch found
          (.release s.futures.length)).cancel found).2))
  /-- The run phase starts. -/
  | start {first w} (h : w.session.started = false) : Asks (.work (.start first)) w
      (.call (.deeds (w.environment.resetDeeds w.session.inits))
        [.during .reset w.session.inits.keys, .reset first]) w.starting
  /-- The expectations become pending, and the page is loaded. -/
  | opened {first v w} : Asks (.frame (.reset first) (.value v)) w
      (.await (w.race first) [.joined w.racers false, .raced]) (w.racing first)

/-- What a head may do in a world. -/
inductive Rule : Head → World → Turn → World → Prop
  | reply {head w w'} (r : Reply) (hhead : head.replies = true) (h : w.Acts w') :
      Rule head w (.give (.ofReply r)) w'
  | pass {f o w w'} (hf : f.passes o = true) (h : w.Acts w') : Rule (.frame f o) w (.give o) w'
  | call {head work frames w w'} (hcall : Calls head (.begin work :: frames)) (h : w.Acts w') :
      Rule head w (.call work frames) w'
  | asks {head w turn w'} (h : Asks head w turn w') : Rule head w turn w'
  /-- A script goes on. -/
  | resume {p g reply adv w w'} (h : w.Advances g adv w') :
      Rule (.work (.resume p g reply)) w (resumed p g adv) w'
  /-- A command is resolved at once. -/
  | answered {p y phase c w w'} (r : Reply) (hp : p.phase? = some phase) (hy : y.toCommand = .ok c)
      (hc : phase = .run → c.type ≠ Command.discard.type)
      (h : (w.record (.handled phase c)).Answers phase c r w') :
      Rule (.work (.process p y)) w (.give (.ofReply r)) w'
  /-- A command needs more work. -/
  | commanded {p y phase c work frames w w'} (hp : p.phase? = some phase)
      (hy : y.toCommand = .ok c) (hcall : Commands phase c (.begin work :: frames))
      (h : (w.record (.handled phase c)).Acts w') :
      Rule (.work (.process p y)) w (.call work frames) w'
  /-- A command drops all pending expectations. -/
  | discarded {p y c w} (hp : p.phase? = some .run) (hy : y.toCommand = .ok c)
      (hc : c.type = Command.discard.type) : Rule (.work (.process p y)) w .done
        ((w.record (.handled .run c)).withSession Session.discard)
  | pause {d w} : Rule (.work (.sleep d)) w (.pause []) w
  /-- Several futures are settled. -/
  | joined {members results o w} (h : w.open? members = []) :
      Rule (.frame (.joined members results) o) w
        (.give (o.andThen (w.jointOutcome members results))) w
  | collected {members results waited o w} : Rule (.frame (.collected members results waited) o) w
      (.give (o.andThen (waited.andThen (w.jointOutcome members results)))) w
  /-- A console message has come. -/
  | met {n found o w} (h : w.scheduler.isSettled found = true) :
      Rule (.frame (.heard n found) o) w .done (w.unhearing n)
  /-- The wait for a console message was stopped, or time is up. -/
  | unheard {n stopped o w} : Rule (.frame (.unheard n stopped) o) w
      (.give (if stopped || o.isStopped then .stopped else .fault .noMessage)) (w.unhearing n)
  /-- The run phase is over. -/
  | raced {o w} : Rule (.frame .raced o) w (.give o) (w.ended o)
  | load {first w w'} (h : w.Acts w') : Rule (.work (.load first)) w
      (.call (.deeds (w.environment.loadDeeds w.session.settings.pageUrl first)) [.unloaded]) w'
  /-- The page is there, and no label is the initial one. -/
  | ready {first work frames w} (hlabel : w.session.initLabel = none)
      (h : Begins first (.begin work :: frames)) :
      Rule (.work (.inPage first)) w (.call work frames) (w.record .ready)
  /-- The page is there, and the initial label is the first pending one, or none is pending. -/
  | checked {first label w} (hlabel : w.session.initLabel = some label)
      (h : ∀ first queue, w.session.pending = some (first :: queue) → first.1 = label) :
      Rule (.work (.inPage first)) w (.call (.drain (some label) true none) [.opened first])
        (w.record .ready)
  /-- The page is there, but the initial label is not the first pending one. -/
  | unchecked {first label other queue w} (f : Fault) (hlabel : w.session.initLabel = some label)
      (h : w.session.pending = some (other :: queue)) (hother : other.1 ≠ label) :
      Rule (.work (.inPage first)) w (.give (.fault f))
        ((w.record .ready).withSession Session.discard)
  /-- Nothing is pending any more. -/
  | drained {until? already last w}
      (h : w.session.pending = none ∨ w.session.pending = some []) :
      Rule (.work (.drain until? already last)) w (Move.lastLabel last) w
  /-- A pending expectation is asserted without a write. -/
  | popped {until? last label e queue w} (h : w.session.pending = some ((label, e) :: queue)) :
      Rule (.work (.drain until? true last)) w
        (.call (.verify label e .before) [.asserted until? true label]) (w.popping label queue)
  /-- The files of a pending expectation are written. -/
  | writing {until? last label e queue w} (h : w.session.pending = some ((label, e) :: queue)) :
      Rule (.work (.drain until? false last)) w
        (.call (.write (w.labelFiles label)) [.written until? false label e])
        ((w.popping label queue).record (.writing label))
  | written {until? already label e v w} : Rule (.frame (.written until? already label e) (.value v)) w
      (.call (.verify label e .before) [.asserted until? already label]) (w.record (.settled label))
  /-- The assertion of an expectation begins. -/
  | verifyHook {label e v p w} : Rule (.work (.verify label e .before)) w
      (.call (.sub p v) [.verified label e .before]) (w.record (.asserting label))
  | verify {label e stage w} (h : Move.nextStage e .before = some stage) :
      Rule (.work (.verify label e .before)) w (.call (.verify label e stage) [])
        (w.record (.asserting label))
  /-- An expectation was asserted. -/
  | assertedLast {already label v w} :
      Rule (.frame (.asserted (some label) already label) (.value v)) w
        (Move.lastLabel (some label)) (w.record (.asserted label false))
  | assertedNext {until? already label v w} (h : until? ≠ some label) :
      Rule (.frame (.asserted until? already label) (.value v)) w
        (.call (.drain until? already (some label)) []) (w.record (.asserted label false))
  | assertedNot {until? already label o w} (h : ∀ v, o ≠ .value v) :
      Rule (.frame (.asserted until? already label) o) w (.give o) (w.record (.asserted label true))
  /-- A label that was not pending is written. -/
  | changed {label v w} (h : v ≠ .text label) : Rule (.frame (.changed label) (.value v)) w
      (.call (.write (w.labelFiles label)) []) (w.record (.writing label))

end HotSpec
