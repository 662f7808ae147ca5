import HotSpec.Engine.Handling

/-!
# Testing on the page

The run phase of a test: the sources are reset, the page is loaded, the script goes on, and at last
all pending expectations are asserted.  What happens on the page races the console monitor and the
fail signal.

Main definitions:

- `Move.script`, `Move.start`: the two phases.
- `Move.load`, `Move.inPage`, `Move.posts`: what is done while the page lives.
- `Move.raced`: how the run phase ended.
- `Move.deeds`: what the environment does in turn.
-/

namespace HotSpec

/-- The script of a test is the first that begins. -/
def scriptNumber : Nat := 0

namespace Move

/-- How commands are resolved on the page. -/
def onPage : Processor := .phase .run

/-! ## Phases -/

/-- Run the script of the test through both phases. -/
def script : Move :=
  return .call (.resume (.phase .prepare) scriptNumber (.ok .nothing)) [.prepared]

/-- The script is over: a test that expects something starts its run phase all the same. -/
def prepared (o : Outcome) : Move :=
  onValue o fun _ => do
    let session := (← get).session
    if !session.started && !session.expects.isEmpty then return .call (.start none) [.forget]
    else return .done

/-- Start the run phase, with the command that asked for it. -/
def start (first : Option Command) : Move := do
  let w ← get
  if w.session.started then return .fail (.usage .alreadyStarted)
  else
    modify (·.withSession fun s => { s with started := true })
    let verdict ← schedule (·.newFuture .signal)
    let failSignal ← schedule (·.newFuture .signal)
    modify fun w => { w with
      processor := onPage, monitor := .start, verdict := some verdict
      failSignal := some failSignal }
    let inits := w.session.inits
    modify (·.record (.log (.reset inits)))
    return .call (.deeds (w.environment.resetDeeds inits))
      [.during .reset inits.keys, .reset first]

/-- The sources are reset: the page is loaded, in a race with the monitor and the fail signal. -/
def afterReset (first : Option Command) (o : Outcome) : Move :=
  onValue o fun _ => do
    modify (·.withSession Session.openQueue)
    modify fun w => w.record (.opened (w.session.pendingLabels.getD []))
    let loading ← schedule (·.spawn [.begin (.load first)])
    let w ← get
    join (loading :: w.verdict.toList ++ w.failSignal.toList) false [.raced]

/-- The race is over: with it the run phase, which has passed or has failed. -/
def raced (o : Outcome) : Move := do
  match o with
  | .value _ => modify (·.record .passed)
  | .fault f => modify (·.record (.halted f))
  | .stopped => pure ()
  return .give o

/-! ## The page -/

/-- Load the page and run the test on it. -/
def load (first : Option Command) : Move := do
  let w ← get
  let url := w.session.settings.pageUrl
  modify (·.record (.log (.loadPage url)))
  return .call (.deeds (w.environment.loadDeeds url first)) [.unloaded]

/-- The environment has closed the page. -/
def unloaded (o : Outcome) : Move :=
  onValue o fun _ => do
    modify World.closePage
    return .done

/-- The test is ready for the command that asked for the run phase, and for what comes after it. -/
def begin (first : Option Command) : Move :=
  match first with
  | some c => return .call (.process onPage (.command c)) [.firstDone]
  | none => return .call (.resume onPage scriptNumber (.ok .nothing)) [.scriptDone]

/-- Run the rest of the test on the page: where a label is the initial one, it has to be the first
pending one, and is asserted on the files that the page was loaded with. -/
def inPage (first : Option Command) : Move := do
  modify (·.record .ready)
  let w ← get
  match w.session.initLabel with
  | none => begin first
  | some label =>
    let (session, checked) := w.session.ensureFirst label
    set { w with session }
    match checked with
    | .ok () => return .call (.drain (some label) true none) [.opened first]
    | .error fault => return .fail fault

/-- The initial label was asserted. -/
def opened (first : Option Command) (o : Outcome) : Move := onValue o fun _ => begin first

/-- The command that asked for the run phase was resolved: the script gets the answer. -/
def firstDone (o : Outcome) : Move := do
  match o with
  | .value v => return .call (.resume onPage scriptNumber (.ok v)) [.scriptDone]
  | .fault f => return .call (.resume onPage scriptNumber (.error f)) [.scriptDone]
  | .stopped => return .give .stopped

/-- The script is over: all that is pending is asserted. -/
def scriptDone (o : Outcome) : Move :=
  onValue o fun _ => return .call (.drain none false none) [.flushed]

/-- All that was pending is asserted: the hooks of the end are run. -/
def flushed (o : Outcome) : Move := onValue o fun _ => return .call (.posts 0) []

/-- The end of the page, however it came about: whoever waits for a failure need not wait any
longer. -/
def pageDone (o : Outcome) : Move := do
  modify World.closePage
  return .give o

/-! ## Hooks of the end -/

/-- Fail the test if a text says why, and whoever asked for it too. -/
def failWith (text : Option String) : Engine Unit := do
  match text with
  | none => return ()
  | some text =>
    Engine.signal (.failure text)
    Engine.fail (.failure text)

/-- Check the counter of errors. -/
def checkErrors : Engine Unit := do
  failWith ((← get).session.errors.bind Counter.missingError?)

/-- Stop counting loads and check their counter. -/
def checkLoads : Engine Unit := do
  Engine.change (·.withSite (·.unlisten PageEvent.load.name .loads))
  failWith ((← get).session.loads.bind Counter.wrongLoads?)

/-- Run the hooks of the end in turn, from one on, with those that come up meanwhile. -/
def posts (index : Nat) : Move := do
  let checkThen (e : Engine Unit) : Move := ofEngine do
    e
    return .call (.posts (index + 1)) []
  match (← get).session.posts[index]? with
  | none => return .done
  | some (.sub v) => return .call (.sub onPage v) [.posted index]
  | some .checkErrors => checkThen checkErrors
  | some .checkLoads => checkThen checkLoads

/-- A hook of the end has run. -/
def posted (index : Nat) (o : Outcome) : Move :=
  onValue o fun _ => return .call (.posts (index + 1)) []

/-! ## Deeds of the environment -/

/-- Do something at once and go on with the rest. -/
def doingThen (e : Engine Unit) (rest : List Deed) : Move :=
  ofEngine do
    e
    return .call (.deeds rest) []

/-- The page is there but not loaded: the monitor begins to listen, and what was set to run before
the load is run. -/
def openPage (rest : List Deed) : Move := do
  let w ← get
  match w.monitor.attach with
  | .error fault => return .fail fault
  | .ok monitor =>
    set ({ w with monitor }.listenMonitor)
    match w.session.beforeLoad with
    | none => return .call (.deeds rest) []
    | some v => return .call (.sub onPage v) [.deeds rest]

/-- What the environment does on its own, before the rest. -/
def chore (rest : List Deed) : Chore → Move
  | .fail given => return .fail (.given given)
  | .sleep delay => return .call (.sleep delay) [.deeds rest]
  | .act actions => doingThen (Engine.perform actions) rest
  | .clear => doingThen (Engine.change (·.withSite fun s => { s with files := [] })) rest
  | .install files =>
    doingThen (Engine.change fun w => w.withSite fun s => w.environment.install s files) rest
  | .leave => doingThen (Engine.log .pageDone) rest

/-- What the environment does, in turn. -/
def deeds : List Deed → Move
  | [] => return .done
  | .chore c :: rest => chore rest c
  | .openPage :: rest => openPage rest
  | .handOver first :: rest => return .call (.inPage first) [.pageDone, .deeds rest]

end Move

end HotSpec
