import HotSpec.Engine.World

/-!
# Actions

What scripts, functions and the environment do at once: the page tells something to whoever listens
to it, elements change, the test is failed, or timers are set.

Main definitions:

- `World.tellMonitor`: the console monitor hears something.
- `Engine.signal`: the test is failed by its fail signal.
- `Engine.emit`: the page tells something to all who listen.
- `Engine.perform`: actions in turn.
-/

namespace HotSpec

namespace World

/-- The events that the console monitor listens to. -/
def monitorEvents : List String := ["console", "pageerror", "error"]

/-- Let the monitor listen to the page. -/
def listenMonitor (w : World) : World :=
  w.withSite fun site => monitorEvents.foldl (fun site event => site.listen event .monitor) site

/-- Take the monitor off the page. -/
def unlistenMonitor (w : World) : World :=
  w.withSite fun site => monitorEvents.foldl (fun site event => site.unlisten event .monitor) site

/-- Pass a new verdict of the monitor on to those who wait for it. -/
def passVerdict (w : World) (before after : Option (Option Fault)) : World :=
  match before, after with
  | none, some none => w.settle w.verdict .finished
  | none, some (some fault) => (w.record (.failed fault)).settle w.verdict (.fault fault)
  | _, _ => w

/-- The console monitor hears something, under the policy in force. -/
def tellMonitor (w : World) (signal : Monitor.Signal) : World :=
  let (monitor, reaction) := w.monitor.step w.session.console signal
  let before := w.monitor.verdict
  let w := { w with monitor }
  let w := if reaction.detach then w.unlistenMonitor else w
  let w := match reaction.timer with
    | some error =>
      w.withScheduler (·.after w.session.settings.bufferDelay (.job (.expire error)))
    | none => w
  w.passVerdict before monitor.verdict

/-- Let go of the monitor and of the fail signal at the end of the page. -/
def closePage (w : World) : World := (w.tellMonitor .close).settle w.failSignal .finished

end World

namespace Engine

/-! ## Failing the test -/

/-- Fail the test by its fail signal; where there is none yet, whoever does so fails. -/
def signal (fault : Fault) : Engine Unit := do
  let w ← get
  match w.failSignal with
  | none => fail fault
  | some f =>
    if w.scheduler.isSettled f then return ()
    else
      record (.failed fault)
      change (·.settle (some f) (.fault fault))

/-- Fail the test if there is a text to do so with. -/
def signalText : Option String → Engine Unit
  | some text => signal (.failure text)
  | none => return ()

/-! ## Telling listeners -/

/-- Whether a handler claims an error of the page. -/
def claimBy (text : String) : ErrorHandler → Engine Bool
  | .text part => return Counter.occurs part.toList text.toList
  | .counter => do
    match (← get).session.errors with
    | none => return false
    | some counter =>
      let (counter, claimed) := counter.claim text
      change (·.withSession fun s => { s with errors := some counter })
      ofExcept claimed

/-- Whether one of some handlers claims an error; those after it are not asked. -/
def claim (text : String) : List ErrorHandler → Engine Bool
  | [] => return false
  | h :: handlers => do
    if ← claimBy text h then return true else claim text handlers

/-- The monitor is told something by the page. -/
def deliverMonitor : PageEvent → Engine Unit
  | .console message => do
    if (← get).session.settings.console then log (.echo message.echo)
    change (·.tellMonitor (.message message))
  | .pageError text => do
    let claimed ← claim text (← get).session.errorHandlers
    change (·.tellMonitor (.pageError text claimed))
  | .error none text => change (·.tellMonitor (.error (.page ("Page error: " ++ text))))
  | .error (some kind) text => change (·.tellMonitor (.error (.given ⟨kind, text⟩)))
  | .load => return ()

/-- A wait for a console message is told something: it listens again if it waits for something
else. -/
def deliverWait (number : Nat) : PageEvent → Engine Unit
  | .console message => do
    let listener := Listener.wait number
    change (·.withSite (·.unlisten "console" listener))
    match (← get).waits[number]? with
    | none => return ()
    | some wait =>
      if wait.matchers.any message.meets then change (·.settle (some wait.found) .finished)
      else change (·.withSite (·.listen "console" listener))
  | _ => return ()

/-- The counter of loads is told of a load. -/
def deliverLoads : Engine Unit := do
  match (← get).session.loads with
  | none => return ()
  | some counter =>
    let (counter, failure) := counter.load
    change (·.withSession fun s => { s with loads := some counter })
    signalText (← ofExcept failure)

/-- Tell something to a listener. -/
def deliver (event : PageEvent) : Listener → Engine Unit
  | .monitor => deliverMonitor event
  | .wait number => deliverWait number event
  | .loads => deliverLoads

/-- Tell something to listeners in turn. -/
def deliverAll (event : PageEvent) : List Listener → Engine Unit
  | [] => return ()
  | l :: listeners => do
    deliver event l
    deliverAll event listeners

/-- The page tells something to all who listen at that moment. -/
def emit (event : PageEvent) : Engine Unit := do
  deliverAll event ((← get).site.listenersOf event.name)

/-- Go to another address. -/
def visit (url : Value) : Engine Unit := do
  log (.visit url)
  change (·.withSite fun site => { site with url })
  emit .load

/-! ## Actions -/

/-- The failure that an action gives. -/
def failureOf (kind : Option FaultKind) (message : String) : Fault :=
  match kind with
  | some kind => .given ⟨kind, message⟩
  | none => .failure message

/-- Do a single thing. -/
def act : Action → Engine Unit
  | .console type text => emit (.console ⟨type, text⟩)
  | .pageError message => emit (.pageError message)
  | .error kind message => emit (.error kind message)
  | .load => emit .load
  | .log text => log (.text text)
  | .setElement selector html =>
    change (·.withSite fun site => { site with elements := site.elements.put selector html })
  | .unsetElement selector =>
    change (·.withSite fun site => { site with elements := site.elements.erase selector })
  | .fail kind message => signal (failureOf kind message)
  | .post sub => do
    let sub ← make sub.make
    change (·.withSession fun s => { s with posts := s.posts ++ [.sub sub] })
  | .raise given => fail (.given given)
  | .later delay actions => change (·.withScheduler (·.after delay (.job (.act actions))))

/-- Do things in turn, up to the first that fails. -/
def perform : List Action → Engine Unit
  | [] => return ()
  | a :: actions => do
    act a
    perform actions

end Engine

end HotSpec
