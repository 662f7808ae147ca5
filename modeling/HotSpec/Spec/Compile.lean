import HotSpec.Spec.Section
import HotSpec.Table

/-!
# Compiled specs

A compiled spec holds the content of each file by label and an expectation per label.  The
anchored values of the source go back to the places they were written at: patterns become tokens
of expected HTML, subs become steps, and callables on condition lines become hooks.

Main definitions:

- `Expectation`, `CompiledSpec`: what a spec compiles to.
- `shift`, `applyRegexes`: the values of a range, and a text divided by its patterns.
- `compile`, `compileFile`: compiled sources and compiled contents.
-/

namespace HotSpec

/-- What is asserted after the update of a label: a hook, steps, and another hook. -/
structure Expectation where
  title : Option String
  before : Option Value
  after : Option Value
  steps : List Step
  deriving Inhabited

namespace Expectation

/-- An expectation of nothing. -/
def empty : Expectation := ⟨none, none, none, []⟩

/-- An expectation with one step more. -/
def addStep (e : Expectation) (step : Step) : Expectation :=
  { e with steps := e.steps ++ [step] }

end Expectation

/-- The contents of files by label, and the expectations by label. -/
structure CompiledSpec where
  title : Option String
  files : Table (Table String)
  expects : Table Expectation
  deriving Inhabited

namespace Spec

open HotSpec.Text
open Html (Token Expected)

/-- The label of contents that no condition narrows. -/
def anyLabel : String := "*"

/-! ## Files -/

/-- The text of a section under a label: the parts without a label and those of the label. -/
def Section.textFor (s : Section) (label : String) : List Char :=
  (s.parts.filter fun part => part.label.all (· == label)).flatMap Part.text

/-- The contents of a file by label: of all its labels, or of any label where it has none. -/
def Section.variants (s : Section) : Table String :=
  if s.parts.isEmpty then []
  else
    let labels := if s.labels.isEmpty then [anyLabel] else s.labels
    labels.map fun label => (label, String.ofList (s.textFor label))

/-- The contents by label of a file given without a header. -/
def compileFile (content : String) (file : Option String) : Except Fault (Table String) :=
  match Section.of content.toList false (linesOf content.toList) with
  | .ok s => .ok s.variants
  | .error refusal => .error (Refusal.fault content.toList file refusal)

/-! ## Values of a range -/

/-- Take the values of a range off a queue.  A value in front of the range is in no range at all:
its offset is the error. -/
def shift (start stop : Nat) : List Anchored → Except Nat (List Anchored) × List Anchored
  | [] => (.ok [], [])
  | value :: values =>
    if value.index < start then (.error value.index, value :: values)
    else if stop ≤ value.index then (.ok [], value :: values)
    else
      let (taken, left) := shift start stop values
      (taken.map (value :: ·), left)

/-- A text as a token, unless it is blank. -/
def literalToken? (text : List Char) : List Token :=
  if blank text then [] else [.literal (String.ofList text)]

/-- Divide a text that starts at an offset by the patterns among values: the tokens between and
at the patterns, and the values that are none. -/
def applyRegexes (start : Nat) (text : List Char) : List Anchored → List Token × List Anchored
  | [] => (literalToken? text, [])
  | value :: values =>
    match value.value with
    | .regex regex =>
      let cut := value.index - start
      let (tokens, rest) := applyRegexes (start + cut) (text.drop cut) values
      (literalToken? (text.take cut) ++ .pattern regex :: tokens, rest)
    | _ =>
      let (tokens, rest) := applyRegexes start text values
      (tokens, value :: rest)

/-! ## Blocks -/

/-- Steps of a block before the lines of their label are put around them. -/
inductive BlockStep
  | html (tokens : List Token)
  | sub (value : Value)
  deriving Inhabited

/-- Whether a step of a block holds HTML. -/
def BlockStep.isHtml : BlockStep → Bool
  | .html _ => true
  | .sub _ => false

/-- The step made of a text of a block from an offset on, with the patterns up to its end. -/
def textStep (part : Part) (left : Nat) (text : List Char) (regexes : List Anchored) :
    Except Refusal (List BlockStep × List Anchored) :=
  match shift part.start (left + text.length) regexes with
  | (.error index, _) => .error (.valueOutside, index)
  | (.ok taken, regexes) =>
    let tokens := (applyRegexes left text taken).1
    .ok (if tokens.isEmpty then [] else [.html tokens], regexes)

/-- The steps of a block from an offset on: each sub ends the HTML in front of it. -/
def splitSteps (part : Part) : (left : Nat) → (subs regexes : List Anchored) →
    Except Refusal (List BlockStep)
  | left, [], regexes =>
    if left < part.stop then
      (textStep part left (part.text.drop (left - part.start)) regexes).map Prod.fst
    else .ok []
  | left, sub :: subs, regexes =>
    if sub.role = .function then .error (.functionInBlock, sub.index)
    else if left < sub.index then do
      let text := (part.text.take (sub.index - part.start)).drop (left - part.start)
      let (steps, regexes) ← textStep part left text regexes
      let rest ← splitSteps part sub.index subs regexes
      return steps ++ .sub sub.value :: rest
    else do
      let rest ← splitSteps part left subs regexes
      return .sub sub.value :: rest

/-- The steps of a block with its values. -/
def blockSteps (part : Part) (values : List Anchored) : Except Refusal (List BlockStep) :=
  splitSteps part part.start (values.filter Anchored.isCallable)
    (values.filter fun value => !value.isCallable)

/-! ## Expectations -/

/-- What is known of the expectation of a label while its section is read. -/
structure Draft where
  title : Option String
  lines : List (List Token)
  /-- The steps of the block, with the number of lines in front of it. -/
  steps : Option (List BlockStep × Nat)
  before : Option Value
  after : Option Value
  deriving Inhabited

namespace Draft

/-- Nothing known yet. -/
def empty : Draft := ⟨none, [], none, none, none⟩

/-- A draft with one line more. -/
def addLine (d : Draft) (line : List Token) : Draft := { d with lines := d.lines ++ [line] }

/-- A draft with a hook in its first free place, if there is one. -/
def addHook? (d : Draft) (hook : Value) : Option Draft :=
  match d.before, d.after with
  | none, _ => some { d with before := some hook }
  | some _, none => some { d with after := some hook }
  | some _, some _ => none

/-- Whether a draft has a line that is not empty. -/
def hasHtml (d : Draft) : Bool := d.lines.any fun line => !line.isEmpty

/-- A draft with the callables of a condition line as hooks. -/
def addHooks (d : Draft) : List Anchored → Except Refusal Draft
  | [] => .ok d
  | value :: values =>
    match d.addHook? value.value with
    | some d => d.addHooks values
    | none => .error (.tooManyHooks, value.index)

/-- The draft of a label with one of its parts. -/
def addPart (d : Draft) (part : Part) (values : List Anchored) : Except Refusal Draft :=
  let d := if part.title.isSome then { d with title := part.title } else d
  if values.isEmpty then .ok (d.addLine [.literal (String.ofList part.text)])
  else if part.block then
    if d.steps.isSome then .error (.tooManyBlocks, part.start)
    else do
      let steps ← blockSteps part values
      return { d with steps := some (steps, d.lines.length) }
  else
    let (tokens, rest) := applyRegexes part.start part.text values
    (if tokens.isEmpty then d else d.addLine tokens).addHooks rest

/-- The expectation of a label: the lines of the label stand around each step of HTML. -/
def finish (label : String) (d : Draft) : Except Fault Expectation :=
  match d.steps with
  | none => .ok ⟨d.title, d.before, d.after, [.html (Expected.ofLines d.lines)]⟩
  | some (steps, index) =>
    if d.hasHtml && !steps.any BlockStep.isHtml then .error (.spec (.ignoredHtml label) none)
    else
      let around (tokens : List Token) : Expected :=
        Expected.ofLines (d.lines.take index ++ tokens :: d.lines.drop index)
      .ok ⟨d.title, d.before, d.after, steps.map fun
        | .html tokens => .html (around tokens)
        | .sub value => .sub value⟩

end Draft

/-- Drafts of labels, in order. -/
abbrev Drafts := Table Draft

/-- The drafts with one part of the section, and the values left. -/
def addToDrafts (drafts : Drafts) (part : Part) (queue : List Anchored) :
    Except Refusal (Drafts × List Anchored) :=
  match shift part.start part.stop queue with
  | (.error index, _) => .error (.valueOutside, index)
  | (.ok values, queue) =>
    match part.label with
    | none =>
      let (tokens, rest) := applyRegexes part.start part.text values
      match rest with
      | value :: _ => .error (.valueOutside, value.index)
      | [] => .ok (drafts.map fun row => (row.1, row.2.addLine tokens), queue)
    | some label => do
      let draft ← ((drafts.get? label).getD .empty).addPart part values
      return (drafts.put label draft, queue)

/-- The drafts of all parts of the section, and the values left. -/
def draftsOf (drafts : Drafts) : List Part → List Anchored →
    Except Refusal (Drafts × List Anchored)
  | [], queue => .ok (drafts, queue)
  | part :: parts, queue => do
    let (drafts, queue) ← addToDrafts drafts part queue
    draftsOf drafts parts queue

/-- The expectations of drafts. -/
def finishDrafts : Drafts → Except Fault (Table Expectation)
  | [] => .ok []
  | (label, draft) :: drafts => do
    let expectation ← draft.finish label
    let rest ← finishDrafts drafts
    return (label, expectation) :: rest

/-! ## Specs -/

/-- A refusal or a result as a result with faults at their places. -/
def locate {α : Type} (source : List Char) (file : Option String) :
    Except Refusal α → Except Fault α
  | .ok a => .ok a
  | .error refusal => .error (Refusal.fault source file refusal)

/-- The expectations of a section, and the values left. -/
def compileExpectations (source : List Char) (file : Option String) (values : List Anchored)
    (s : Section) : Except Fault (Table Expectation × List Anchored) := do
  let drafts := s.labels.map fun label => (label, Draft.empty)
  let (drafts, left) ← locate source file (draftsOf drafts s.parts values)
  let expects ← finishDrafts drafts
  return (expects, left)

/-- The compiled form of an outline. -/
def compileOutline (source : Source) (file : Option String) (outline : Outline) :
    Except Fault CompiledSpec := do
  let files := Table.ofRows (outline.files.map fun (path, content) => (path, content.variants))
  let (expects, left) ← match outline.expectations with
    | some s => compileExpectations source.text file source.values s
    | none => .ok ([], source.values)
  match left with
  | value :: _ => .error (Refusal.fault source.text file (.valueOutside, value.index))
  | [] => return ⟨outline.title, files, expects⟩

/-- Compile a source.  A full spec has a title and expects something. -/
def compile (source : Source) (full : Bool) (file : Option String) : Except Fault CompiledSpec := do
  let outline ← locate source.text file (Outline.of source.text full)
  let compiled ← compileOutline source file outline
  if full && compiled.expects.isEmpty then .error (.spec (.noAssertions compiled.title) none)
  else return compiled

/-- Compile a spec given as any value. -/
def compileValue (spec : Value) (full : Bool) (file : Option String) :
    Except Fault CompiledSpec := do
  let source ← Source.of spec
  compile source full file

/-- The title of a full spec, read without compiling it. -/
def readTitle (source : List Char) (file : Option String) : Except Fault String :=
  locate source file (titleOf source)

end Spec

end HotSpec
