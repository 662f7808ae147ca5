import HotSpec.Engine.Prepare
import HotSpec.Engine.Waiting

/-!
# Asserting expectations

Pending expectations are asserted strictly in their order: each is taken from the front, its files
are written, and once the environment has settled its hook, its steps and its other hook are run.

Main definitions:

- `Engine.rendered`: the HTML under test.
- `Move.write`, `Move.deeds`: what the environment is asked for.
- `Move.drain`, `Move.written`, `Move.asserted`: pending expectations up to a label.
- `Move.verify`, `Move.verified`: a single expectation.
-/

namespace HotSpec

/-! ## The HTML under test -/

namespace World

/-- The element under test, and whether it is the one in focus. -/
def tested (w : World) : String × Bool :=
  let settings := w.session.settings
  if settings.focus ≠ "" && w.site.elements.has settings.focus then (settings.focus, true)
  else (settings.appRoot, false)

/-- The HTML under test, in normal form.  Outside the focus it starts with a required prefix, which
is left out. -/
def rendered (w : World) : Except Fault String :=
  let (selector, focused) := w.tested
  let html := (w.site.elements.get? selector).getD ""
  if html = "" then .ok ""
  else
    match w.session.settings.appPrefix with
    | some start =>
      if start ≠ "" && !focused then
        (Html.stripPrefix (Html.normal html) (Html.normal start)).mapError .mismatch
      else .ok (Html.normal html)
    | none => .ok (Html.normal html)

/-- The place of a fault in the expectation of a label. -/
def placeAt (w : World) (label : String) (e : Expectation) (stage : Stage) (element : Value) :
    Place :=
  let (step, kind) : Option Value × String := match stage with
    | .before => (none, "before")
    | .step i => (some (.int i), ((e.steps[i]?).map Step.kind).getD "")
    | .after => (none, "after")
  { Place.inFile w.session.file with label := some (.text label), step, kind := some kind, element }

/-- Blame a part of an expectation for a failed assertion; other faults are left as they are. -/
def blame (w : World) (label : String) (e : Expectation) (stage : Stage) (element : Value)
    (f : Fault) : Fault :=
  if f.kind = .assertion then .expectation e.title f.text (w.placeAt label e stage element) else f

/-- Why the HTML under test does not meet an expectation, if it does not. -/
def htmlFault? (w : World) (label : String) (e : Expectation) (stage : Stage)
    (expected : Html.Expected) : Option Fault :=
  match w.rendered with
  | .error f => some (w.blame label e stage .nothing f)
  | .ok actual =>
    match expected.check actual with
    | .ok () => none
    | .error mismatch =>
      let element := Value.ofTable [("expected", expected.toValue), ("actual", .text actual)]
      some (w.blame label e stage element (.mismatch mismatch))

/-- Say what the environment was asked for, unless a fault of the engine says enough. -/
def environmentFault (w : World) (task : EnvironmentTask) (paths : List String) (f : Fault) :
    Fault :=
  if f.isEngine then f
  else
    .environment task f.text { Place.inFile w.session.file with
      element := .list ((paths.mergeSort (· ≤ ·)).map .text) }

end World

namespace Move

/-! ## The environment -/

/-- Write files and wait for the environment to settle. -/
def write (files : Table Value) : Move := do
  let w ← get
  let number := w.site.writes
  set ((w.withSite fun site => { site with writes := number + 1 }).record (.log (.write files)))
  return .call (.deeds (w.environment.writeDeeds number files)) [.during .update files.keys]

/-- The environment has done what it was asked for, or has failed. -/
def during (task : EnvironmentTask) (paths : List String) (o : Outcome) : Move := do
  match o with
  | .value _ => return .done
  | .fault f => return .fail ((← get).environmentFault task paths f)
  | .stopped => return .give .stopped

/-- Write the files of a label. -/
def writeVariant (label : String) (frames : List Frame) : Move := do
  modify (·.record (.writing label))
  let w ← get
  return .call (.write ((w.session.variantFiles label).map fun (path, text) => (path, .text text)))
    frames

/-! ## The pending expectations -/

/-- The last label that was asserted, as an outcome. -/
def lastLabel (last : Option String) : Turn := .give (.value (Value.ofText? last))

/-- Assert pending expectations up to a label. -/
def drain (until? : Option String) (already : Bool) (last : Option String) : Move := do
  let w ← get
  match w.session.pop? with
  | none => return lastLabel last
  | some ((label, e), session) =>
    set ({ w with session }.record (.popped label))
    if already then return .call (.verify label e .before) [.asserted until? already label]
    else writeVariant label [.written until? already label e]

/-- The files of a pending label were written. -/
def written (until? : Option String) (already : Bool) (label : String) (e : Expectation)
    (o : Outcome) : Move :=
  onValue o fun _ => do
    modify (·.record (.settled label))
    return .call (.verify label e .before) [.asserted until? already label]

/-- The expectation of a label was asserted. -/
def asserted (until? : Option String) (already : Bool) (label : String) (o : Outcome) : Move := do
  modify (·.record (.asserted label !(o matches .value _)))
  onValue o fun _ =>
    if until? = some label then return lastLabel (some label)
    else return .call (.drain until? already (some label)) []

/-- Pending expectations were asserted up to a label; one that was not pending is written now. -/
def changed (label : String) (o : Outcome) : Move :=
  onValue o fun
    | .text last => if last = label then return .done else writeVariant label []
    | _ => writeVariant label []

/-! ## A single expectation -/

/-- The stage after a stage. -/
def nextStage (e : Expectation) : Stage → Option Stage
  | .before => some (if e.steps.isEmpty then .after else .step 0)
  | .step i => some (if i + 1 < e.steps.length then .step (i + 1) else .after)
  | .after => none

/-- The end of a stage: the next one, or the end of the expectation. -/
def afterStage (label : String) (e : Expectation) (stage : Stage) : Turn :=
  match nextStage e stage with
  | some stage => .call (.verify label e stage) []
  | none => .done

/-- Run a sub of an expectation. -/
def verifySub (label : String) (e : Expectation) (stage : Stage) (sub : Option Value) : Move := do
  match sub with
  | none => return afterStage label e stage
  | some sub =>
    return .call (.sub (← get).processor sub) [.verified label e stage]

/-- Assert an expectation from a stage on. -/
def verify (label : String) (e : Expectation) (stage : Stage) : Move := do
  match stage with
  | .before =>
    modify (·.record (.asserting label))
    verifySub label e stage e.before
  | .after => verifySub label e stage e.after
  | .step i =>
    match e.steps[i]? with
    | none => return afterStage label e stage
    | some (.html expected) =>
      match (← get).htmlFault? label e stage expected with
      | none => return afterStage label e stage
      | some f => return .fail f
    | some (.sub sub) | some (.function sub) => verifySub label e stage (some sub)

/-- A sub of an expectation was run. -/
def verified (label : String) (e : Expectation) (stage : Stage) (o : Outcome) : Move := do
  match o with
  | .value _ => return afterStage label e stage
  | .fault f => return .fail ((← get).blame label e stage .nothing f)
  | .stopped => return .give .stopped

end Move

end HotSpec
