import HotSpec.Spec.Step

/-!
# Compiling with guards

Some operations make sense only for some arguments: the least of some numbers, the difference of two
offsets, a piece of a text, the draft of a label, and all that is made of checked fields.  Here a spec is
compiled with a guard in front of each of them, which fails with a mishap of its own where the operation is
used outside of its domain.  Tokens and steps are values up to the end, where they are checked like the ones
that a test script gives.

Main definitions:

- `Mishap`, `Guarded`: what can go wrong, and results for which it can.
- `Guarded.least`, `Guarded.minus`, `Guarded.slice`, `Guarded.find`, `Guarded.named`: the guards.
- `Guarded.compileValue`: a spec compiled with guards.
-/

namespace HotSpec.Spec

open HotSpec.Text

/-! ## Guards -/

/-- What comes of an operation that is used outside of its domain, or of a spec that is refused. -/
inductive Mishap (ε : Type)
  | refused (refusal : ε)
  /-- The least of no numbers. -/
  | noLeast
  /-- An offset in front of the one it is counted from. -/
  | negative
  /-- A piece that is not inside. -/
  | outside
  /-- A key that a table does not have. -/
  | missing (key : String)
  /-- Fields that are not valid. -/
  | invalid (reasons : List String)
  /-- A value that is no source, or no token. -/
  | unfit (fault : Fault)

/-- A mishap where another refusal is given. -/
def Mishap.map {ε δ : Type} (f : ε → δ) : Mishap ε → Mishap δ
  | refused refusal => refused (f refusal)
  | noLeast => noLeast
  | negative => negative
  | outside => outside
  | missing key => missing key
  | invalid reasons => invalid reasons
  | unfit fault => unfit fault

/-- A result, unless something goes wrong. -/
abbrev Guarded (ε α : Type) := Except (Mishap ε) α

namespace Guarded

variable {ε α : Type}

/-- A result of operations without guards. -/
def lift : Except ε α → Guarded ε α
  | .ok a => .ok a
  | .error e => .error (.refused e)

/-- The least of some numbers. -/
def least : List Nat → Guarded ε Nat
  | [] => .error .noLeast
  | n :: ns => .ok (ns.foldl min n)

/-- The difference of two offsets. -/
def minus (index start : Nat) : Guarded ε Nat :=
  if start ≤ index then .ok (index - start) else .error .negative

/-- The piece of a list between two offsets. -/
def slice (list : List α) (start stop : Nat) : Guarded ε (List α) :=
  if start ≤ stop ∧ stop ≤ list.length then .ok ((list.take stop).drop start) else .error .outside

/-- The value of a key that has to be there. -/
def find (t : Table α) (key : String) : Guarded ε α :=
  match t.get? key with
  | some a => .ok a
  | none => .error (.missing key)

/-- A label or a path, which must not be empty. -/
def named (text : String) : Guarded ε String :=
  if text = "" then .error (.invalid []) else .ok text

/-- What is made of checked fields. -/
def checked : Checked α → Guarded ε α
  | .ok a => .ok a
  | .error reasons => .error (.invalid reasons)

/-- What is made of values that have to be fit for it. -/
def fit : Except Fault α → Guarded ε α
  | .ok a => .ok a
  | .error fault => .error (.unfit fault)

/-- A result with its refusals at their places. -/
def locate (source : List Char) (file : Option String) (r : Guarded Refusal α) : Guarded Fault α :=
  r.mapError (Mishap.map (Refusal.fault source file))

/-! ## Within the guards -/

variable {β : Type}

@[simp]
theorem lift_ok (a : α) : (lift (.ok a) : Guarded ε α) = .ok a := rfl

@[simp]
theorem lift_error (e : ε) : (lift (.error e) : Guarded ε α) = .error (.refused e) := rfl

@[simp]
theorem ok_bind (a : α) (f : α → Guarded ε β) : (Except.ok a >>= f) = f a := rfl

/-- Results without guards, one after the other. -/
theorem lift_bind {x : Except ε α} {f : α → Except ε β} {g : α → Guarded ε β}
    (h : ∀ a, x = .ok a → g a = lift (f a)) : lift x >>= g = lift (x >>= f) := by
  cases x with
  | error e => rfl
  | ok a => exact h a rfl

/-- Results without guards, one after the other, both of which are seen in another way. -/
theorem lift_map_bind {γ δ : Type} {x : Except ε α} {f : α → Except ε β} {first : α → γ}
    {second : β → δ} {g : γ → Guarded ε δ}
    (h : ∀ a, x = .ok a → g (first a) = lift ((f a).map second)) :
    lift (x.map first) >>= g = lift ((x >>= f).map second) := by
  cases x with
  | error e => rfl
  | ok a => exact h a rfl

/-- Where nothing fails for any of them, nothing fails for all that are made of a list. -/
theorem mapM_map_eq_pure {m : Type → Type} [Monad m] [LawfulMonad m] {γ : Type} {f : β → m γ}
    {see : α → β} {g : α → γ} {list : List α} (h : ∀ a ∈ list, f (see a) = pure (g a)) :
    (list.map see).mapM f = pure (list.map g) := by
  induction list with
  | nil => simp
  | cons a list ih =>
    have hrest := ih fun b hb => h b (List.mem_cons_of_mem _ hb)
    simp [List.mapM_cons, h a List.mem_cons_self, hrest]

theorem mapM_eq_ok {f : α → Guarded ε β} {g : α → β} {list : List α}
    (h : ∀ a ∈ list, f a = .ok (g a)) : list.mapM f = .ok (list.map g) := by
  have hpure := @mapM_map_eq_pure _ _ (Guarded ε) _ _ _ f id g list h
  rwa [List.map_id] at hpure

theorem minus_eq_ok {index start : Nat} (h : start ≤ index) :
    (minus index start : Guarded ε Nat) = .ok (index - start) := by
  simp [minus, h]

theorem slice_eq_ok {list : List α} {start stop : Nat} (hle : start ≤ stop)
    (hstop : stop ≤ list.length) :
    (slice list start stop : Guarded ε (List α)) = .ok ((list.take stop).drop start) := by
  simp [slice, hle, hstop]

theorem find_eq_ok {t : Table α} {key : String} {a : α} (h : t.get? key = some a) :
    (find t key : Guarded ε α) = .ok a := by
  simp [find, h]

theorem named_eq_ok {text : String} (h : text ≠ "") : (named text : Guarded ε String) = .ok text := by
  simp [named, h]

theorem locate_lift (source : List Char) (file : Option String) (r : Except Refusal α) :
    locate source file (lift r) = lift (Spec.locate source file r) := by
  cases r with
  | ok a => rfl
  | error refusal => rfl

/-! ## Outlines -/

/-- The common indentation of lines that are not blank. -/
def indentOf (lines : List Line) : Guarded ε Nat := do
  let indents ← (lines.filter fun line => !line.isBlank).mapM fun line =>
    minus line.text.length (trimStart line.text).length
  least indents

/-- A part of a source with its text, and with a label if it has one. -/
def part (source : List Char) (p : Part) : Guarded ε Part := do
  let text ← slice source p.start p.stop
  match p.label with
  | none => return { p with text := text }
  | some label =>
    let label ← named label
    return { p with text := text, label := some label }

/-- The section of the lines after a header or a separator. -/
def sectionOf (source : List Char) (expectations : Bool) (lines : List Line) :
    Guarded Refusal Section :=
  match (trimLines lines).getLast? with
  | none => .ok ⟨[], []⟩
  | some last => do
    let indent ← indentOf (trimLines lines)
    let items ← lift (itemsOf (trimLines lines))
    let cut : Cut := ⟨source, indent, expectations, last.start⟩
    let parts ← (items.flatMap cut.partsOf).mapM (part source)
    let labels ← (items.filterMap Item.label?).eraseDups.mapM named
    return ⟨parts, labels⟩

/-- The sections of the files among chunks. -/
def fileSections (source : List Char) : List Chunk → Guarded Refusal (List (String × Section))
  | [] => .ok []
  | .file _ path body :: chunks => do
    let path ← named path
    let content ← sectionOf source false body
    let files ← fileSections source chunks
    return (path, content) :: files
  | .expectations .. :: chunks => fileSections source chunks

/-- The section of the expectations among chunks. -/
def expectationSection (source : List Char) : List Chunk → Guarded Refusal (Option Section)
  | [] => .ok none
  | .file .. :: chunks => expectationSection source chunks
  | .expectations _ body :: _ => do
    let content ← sectionOf source true body
    return some content

/-- The outline of a source; with a required title in front if `full`. -/
def outline (source : List Char) (full : Bool) : Guarded Refusal Outline := do
  let title ← lift (if full then (titleOf source).map some else .ok none)
  let (preamble, chunks) := chunksOf (linesOf source)
  lift (checkPreamble title.isSome preamble)
  lift (checkOrder false chunks)
  let files ← fileSections source chunks
  let expectations ← expectationSection source chunks
  return ⟨title, files, expectations⟩

/-! ## Values of a range -/

/-- A text as a token, unless it is blank. -/
def literal? (text : List Char) : List Value :=
  if blank text then [] else [.text (String.ofList text)]

/-- Divide a text that starts at an offset by the patterns among values: the tokens between and
at the patterns, and the values that are none. -/
def tokensOf (start : Nat) (text : List Char) :
    List Anchored → Guarded ε (List Value × List Anchored)
  | [] => .ok (literal? text, [])
  | value :: values =>
    if value.role = .regex then do
      let cut ← minus value.index start
      let left ← slice text 0 cut
      let right ← slice text cut text.length
      let (tokens, rest) ← tokensOf (start + cut) right values
      return (literal? left ++ value.value :: tokens, rest)
    else do
      let (tokens, rest) ← tokensOf start text values
      return (tokens, value :: rest)

/-! ## Blocks -/

/-- Steps of a block before the lines of their label are put around them. -/
inductive GivenStep
  | html (tokens : List Value)
  | sub (value : Value)

/-- Whether a step of a block holds HTML. -/
def GivenStep.isHtml : GivenStep → Bool
  | .html _ => true
  | .sub _ => false

/-- The step made of a text of a block from an offset on, with the patterns up to its end. -/
def textStep (part : Part) (left : Nat) (text : List Char) (regexes : List Anchored) :
    Guarded Refusal (List GivenStep × List Anchored) :=
  match shift part.start (left + text.length) regexes with
  | (.error index, _) => .error (.refused (.valueOutside, index))
  | (.ok taken, regexes) => do
    let (tokens, _) ← tokensOf left text taken
    return (if tokens.isEmpty then [] else [.html tokens], regexes)

/-- The steps of a block from an offset on: each sub ends the HTML in front of it. -/
def splitSteps (part : Part) : (left : Nat) → (subs regexes : List Anchored) →
    Guarded Refusal (List GivenStep)
  | left, [], regexes =>
    if left < part.stop then do
      let skipped ← minus left part.start
      let text ← slice part.text skipped part.text.length
      let (steps, _) ← textStep part left text regexes
      return steps
    else .ok []
  | left, sub :: subs, regexes =>
    if sub.role = .function then .error (.refused (.functionInBlock, sub.index))
    else if left < sub.index then do
      let skipped ← minus left part.start
      let reached ← minus sub.index part.start
      let text ← slice part.text skipped reached
      let (steps, regexes) ← textStep part left text regexes
      let rest ← splitSteps part sub.index subs regexes
      return steps ++ .sub sub.value :: rest
    else do
      let rest ← splitSteps part left subs regexes
      return .sub sub.value :: rest

/-- The steps of a block with its values. -/
def blockSteps (part : Part) (values : List Anchored) : Guarded Refusal (List GivenStep) :=
  splitSteps part part.start (values.filter Anchored.isCallable)
    (values.filter fun value => !value.isCallable)

/-! ## Expectations -/

/-- What is known of the expectation of a label while its section is read. -/
structure Bucket where
  title : Option String
  lines : List (List Value)
  steps : Option (List GivenStep × Nat)
  before : Option Value
  after : Option Value

namespace Bucket

/-- Nothing known yet. -/
def empty : Bucket := ⟨none, [], none, none, none⟩

/-- A bucket with one line more. -/
def addLine (b : Bucket) (line : List Value) : Bucket := { b with lines := b.lines ++ [line] }

/-- Whether a bucket has a line that is not empty. -/
def hasHtml (b : Bucket) : Bool := b.lines.any fun line => !line.isEmpty

/-- A bucket with the callables of a condition line as hooks, each in the first free place. -/
def addHooks (b : Bucket) : List Anchored → Guarded Refusal Bucket
  | [] => .ok b
  | value :: values =>
    match b.before, b.after with
    | none, _ => ({ b with before := some value.value } : Bucket).addHooks values
    | some _, none => ({ b with after := some value.value } : Bucket).addHooks values
    | some _, some _ => .error (.refused (.tooManyHooks, value.index))

/-- The bucket of a label with one of its parts. -/
def addPart (b : Bucket) (part : Part) (values : List Anchored) : Guarded Refusal Bucket :=
  let b := if part.title.isSome then { b with title := part.title } else b
  if values.isEmpty then .ok (b.addLine [.text (String.ofList part.text)])
  else if part.block then
    if b.steps.isSome then .error (.refused (.tooManyBlocks, part.start))
    else do
      let steps ← blockSteps part values
      return { b with steps := some (steps, b.lines.length) }
  else do
    let (tokens, rest) ← tokensOf part.start part.text values
    (if tokens.isEmpty then b else b.addLine tokens).addHooks rest

end Bucket

/-- The buckets with one part of the section, and the values left. -/
def addToBuckets (buckets : Table Bucket) (part : Part) (queue : List Anchored) :
    Guarded Refusal (Table Bucket × List Anchored) :=
  match shift part.start part.stop queue with
  | (.error index, _) => .error (.refused (.valueOutside, index))
  | (.ok values, queue) =>
    match part.label with
    | none => do
      let (tokens, rest) ← tokensOf part.start part.text values
      match rest with
      | value :: _ => .error (.refused (.valueOutside, value.index))
      | [] => return (buckets.map fun row => (row.1, row.2.addLine tokens), queue)
    | some label => do
      let bucket ← find buckets label
      let bucket ← bucket.addPart part values
      return (buckets.put label bucket, queue)

/-- The buckets of all parts of the section, and the values left. -/
def bucketsOf (buckets : Table Bucket) : List Part → List Anchored →
    Guarded Refusal (Table Bucket × List Anchored)
  | [], queue => .ok (buckets, queue)
  | part :: parts, queue => do
    let (buckets, queue) ← addToBuckets buckets part queue
    bucketsOf buckets parts queue

/-- The step of HTML that is made of lines of tokens. -/
def htmlStep (lines : List (List Value)) : Guarded ε Step := do
  let expected ← fit (Html.expectationOfLines lines)
  checked (Step.ofFields [("html", expected.toValue)])

/-- The step that a step of a block makes, with lines around its HTML. -/
def GivenStep.finish (above below : List (List Value)) : GivenStep → Guarded ε Step
  | .html tokens => htmlStep (above ++ tokens :: below)
  | .sub value => checked (Step.ofFields [("sub", value)])

/-- The expectation of a label: the lines of the label stand around each step of HTML. -/
def finish (label : String) (b : Bucket) : Guarded Fault Expectation := do
  let e ← checked (Expectation.ofParts b.title (b.before.getD .nothing) (b.after.getD .nothing) [])
  match b.steps with
  | none => do
    let step ← htmlStep b.lines
    return e.addStep step
  | some (steps, index) =>
    if b.hasHtml && !steps.any GivenStep.isHtml then
      .error (.refused (.spec (.ignoredHtml label) none))
    else do
      let above ← slice b.lines 0 index
      let below ← slice b.lines index b.lines.length
      let steps ← steps.mapM (GivenStep.finish above below)
      return { e with steps := steps }

/-- The expectations of buckets. -/
def finishAll : Table Bucket → Guarded Fault (Table Expectation)
  | [] => .ok []
  | (label, bucket) :: buckets => do
    let expectation ← finish label bucket
    let rest ← finishAll buckets
    return (label, expectation) :: rest

/-- The expectations of a section, and the values left. -/
def expectations (source : List Char) (file : Option String) (values : List Anchored) (s : Section) :
    Guarded Fault (Table Expectation × List Anchored) := do
  let buckets := s.labels.map fun label => (label, Bucket.empty)
  let (buckets, left) ← locate source file (bucketsOf buckets s.parts values)
  let expects ← finishAll buckets
  return (expects, left)

/-! ## Specs -/

/-- A table by label. -/
def labelled (t : Table α) : Guarded ε (Table α) :=
  t.mapM fun row => do
    let label ← named row.1
    return (label, row.2)

/-- A compiled spec, all labels of which are checked. -/
def spec (title : Option String) (files : Table (Table String)) (expects : Table Expectation) :
    Guarded ε CompiledSpec := do
  let files ← files.mapM fun row => do
    let variants ← labelled row.2
    return (row.1, variants)
  let expects ← labelled expects
  return ⟨title, files, expects⟩

/-- Compile a source.  A full spec has a title and expects something. -/
def compile (source : Source) (full : Bool) (file : Option String) : Guarded Fault CompiledSpec := do
  let outline ← locate source.text file (outline source.text full)
  let (expects, left) ← match outline.expectations with
    | some s => expectations source.text file source.values s
    | none => .ok ([], source.values)
  match left with
  | value :: _ => .error (.refused (Refusal.fault source.text file (.valueOutside, value.index)))
  | [] =>
    let compiled ← spec outline.title
      (Table.ofRows (outline.files.map fun (path, content) => (path, content.variants))) expects
    if full && compiled.expects.isEmpty then .error (.refused (.spec (.noAssertions compiled.title) none))
    else return compiled

/-- Compile a spec given as any value. -/
def compileValue (spec : Value) (full : Bool) (file : Option String) :
    Guarded Fault CompiledSpec := do
  let source ← fit (Source.of spec)
  compile source full file

end Guarded

end HotSpec.Spec
