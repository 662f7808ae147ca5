import HotSpec.Console.Counter
import HotSpec.Plugin.Registry
import HotSpec.Settings.Basic

/-!
# Test sessions

What one test knows: the specs and the expectations that its script registered, the expectations
that are still pending, and what it has set about the console and the page.

Main definitions:

- `Session`: the state of a test.
- `Session.install`, `Session.mergeExpectation`: specs and expectations, registered.
- `Session.variantFiles`: the files of a label.
- `Session.queue`, `Session.openQueue`, `Session.ensureFirst`: the pending expectations.

Main results:

- `Expectation.steps_merge`: expectations of one label are merged by their steps in order.
-/

namespace HotSpec

/-- What runs once all pending expectations are asserted: a sub, or a check of counted events. -/
inductive PostHook
  | sub (sub : Value)
  | checkErrors
  | checkLoads
  deriving Inhabited

/-- Who may claim an error of the page: the counter of errors, or whoever waits for a text. -/
inductive ErrorHandler
  | counter
  | text (part : String)
  deriving Repr, DecidableEq, Inhabited

/-- The state of a test. -/
structure Session where
  settings : Settings
  registry : Registry
  file : Option String
  templates : Table Value
  specs : Table (Table String)
  inits : Table Value
  expects : Table Expectation
  pending : Option (List (String × Expectation))
  console : ConsolePolicy
  beforeLoad : Option Value
  started : Bool
  initLabel : Option String
  errors : Option Counter
  loads : Option Counter
  posts : List PostHook
  errorHandlers : List ErrorHandler
  deriving Inhabited

/-- An expectation with a later one of the same label: steps come after steps, and what the later
one sets takes the place of what was set before. -/
def Expectation.merge (current later : Expectation) : Expectation where
  title := later.title.filter (· ≠ "") <|> current.title
  before := later.before <|> current.before
  after := later.after <|> current.after
  steps := current.steps ++ later.steps

@[simp]
theorem Expectation.steps_merge (current later : Expectation) :
    (current.merge later).steps = current.steps ++ later.steps := rfl

namespace Session

/-- The state at the start of a test. -/
def start (settings : Settings) (registry : Registry) (file : Option String) : Session where
  settings := settings
  registry := registry
  file := file
  templates := []
  specs := []
  inits := []
  expects := []
  pending := none
  console := .strict
  beforeLoad := none
  started := false
  initLabel := none
  errors := none
  loads := none
  posts := []
  errorHandlers := []

/-! ## Text -/

/-- Texts as a list inside messages. -/
def shownTexts (texts : List String) : String := "[" ++ commas (texts.map Text.quoted) ++ "]"

/-- The text of a session inside messages. -/
def shown (s : Session) : String :=
  "TestState(started=" ++ (Value.bool s.started).shown ++ ", specs=" ++
    shownTexts s.specs.keys ++ ", expects=" ++ shownTexts s.expects.keys ++ ", page_url=" ++
    Text.quoted s.settings.pageUrl ++ ")"

/-! ## Specs and expectations -/

/-- Register an expectation of a label. -/
def mergeExpectation (s : Session) (label : String) (e : Expectation) : Session :=
  let merged := match s.expects.get? label with
    | some current => current.merge e
    | none => e
  { s with expects := s.expects.put label merged }

/-- Register a compiled spec. -/
def install (s : Session) (spec : CompiledSpec) : Session :=
  spec.expects.foldl (fun s row => s.mergeExpectation row.1 row.2)
    { s with specs := s.specs.merge spec.files }

/-- The expectation of a label, empty if there is none yet. -/
def expectation (s : Session) (label : String) : Expectation :=
  (s.expects.get? label).getD .empty

/-- The content of a file for a label: that of the label, or else that for any label; an empty
content counts as none. -/
def contentFor? (variants : Table String) (label : String) : Option String :=
  let filled (content : Option String) : Option String := content.filter (· ≠ "")
  filled (variants.get? label) <|> filled (variants.get? Spec.anyLabel)

/-- The files of a label. -/
def variantFiles (s : Session) (label : String) : Table String :=
  s.specs.filterMap fun (path, variants) =>
    (contentFor? variants label).map fun content => (path, content)

/-! ## Pending expectations -/

/-- Make all registered expectations pending. -/
def openQueue (s : Session) : Session := { s with pending := some s.expects }

/-- Drop all pending expectations. -/
def discard (s : Session) : Session := { s with pending := none }

/-- The labels that are pending. -/
def pendingLabels (s : Session) : Option (List String) :=
  s.pending.map fun queue => queue.map Prod.fst

/-- Take the first pending expectation. -/
def pop? (s : Session) : Option ((String × Expectation) × Session) :=
  match s.pending with
  | some (first :: queue) => some (first, { s with pending := some queue })
  | _ => none

/-- Require that a label is the first of the pending ones.  They are dropped if it is not, so that
they do not fail once more at the end. -/
def ensureFirst (s : Session) (label : String) : Session × Except Fault Unit :=
  match s.pending with
  | some ((first, _) :: _) =>
    if first = label then (s, .ok ()) else (s.discard, .error (.usage (.initOrder first label)))
  | _ => (s, .ok ())

theorem pop?_eq_some_iff {s s' : Session} {first : String × Expectation} :
    s.pop? = some (first, s') ↔
      ∃ queue, s.pending = some (first :: queue) ∧ s' = { s with pending := some queue } := by
  cases h : s.pending with
  | none => simp [pop?, h]
  | some queue => cases queue <;> simp [pop?, h, eq_comm, and_assoc]

end Session

end HotSpec
