import HotSpec.Spec.Line
import HotSpec.Spec.Source

/-!
# Sections of a spec

The grammar of specs.  A spec is made of file sections and, after them, an optional section of
expectations; a section is a list of parts, each of which may belong to a label.

Main definitions:

- `chunksOf`: a source cut at its headers and separators.
- `Section.of`: the parts of the lines of a section.
- `Outline.of`: the sections of a source.
-/

namespace HotSpec.Spec

open HotSpec.Text

/-! ## Parts -/

/-- A piece of the text of a section.  It belongs to a label or to all of them. -/
structure Part where
  label : Option String
  text : List Char
  start : Nat
  stop : Nat
  block : Bool
  title : Option String
  deriving Repr, DecidableEq, Inhabited

/-- The parts of a section, and its labels by first appearance. -/
structure Section where
  parts : List Part
  labels : List String
  deriving Repr, DecidableEq, Inhabited

/-- The sections of a spec. -/
structure Outline where
  title : Option String
  files : List (String × Section)
  expectations : Option Section
  deriving Inhabited

/-! ## Chunks -/

/-- A line that starts a section, with the lines up to the next one. -/
inductive Chunk
  | file (line : Line) (path : String) (body : List Line)
  | expectations (line : Line) (body : List Line)
  deriving Repr

/-- The lines in front of the first header or separator, and the chunks from there on. -/
def chunksOf : List Line → List Line × List Chunk
  | [] => ([], [])
  | line :: lines =>
    let (body, chunks) := chunksOf lines
    match headerPath? line.trimmed with
    | some path => ([], .file line (String.ofList path) body :: chunks)
    | none =>
      if isSeparator line.trimmed then ([], .expectations line body :: chunks)
      else (line :: body, chunks)

/-! ## Items of a section -/

/-- Lines that belong together: a plain line, a condition, or a block from its opener to its
closer. -/
inductive Item
  | plain (line : Line)
  | condition (label : String) (marker : Nat) (line : Line)
  | block (label : String) (title : Option String) (opener : Line) (inner : List Line)
  deriving Repr

/-- The label of an item. -/
def Item.label? : Item → Option String
  | .plain _ => none
  | .condition label .. => some label
  | .block label .. => some label

/-- Cut lines at the first closer: the lines in front of it and the lines after it. -/
def cutAtCloser : List Line → Option (List Line × List Line)
  | [] => none
  | line :: lines =>
    if isCloser line.trimmed then some ([], lines)
    else (cutAtCloser lines).map fun (inner, rest) => (line :: inner, rest)

theorem length_of_cutAtCloser {lines inner rest : List Line}
    (h : cutAtCloser lines = some (inner, rest)) : rest.length < lines.length := by
  induction lines generalizing inner with
  | nil => simp [cutAtCloser] at h
  | cons line lines ih =>
    rw [cutAtCloser] at h
    split at h
    · simp only [Option.some.injEq, Prod.mk.injEq] at h
      simp [h.2]
    · obtain ⟨⟨inner', rest'⟩, found, same⟩ := Option.map_eq_some_iff.1 h
      simp only [Prod.mk.injEq] at same
      have := ih (by rw [found, same.2])
      simp only [List.length_cons]
      omega

/-- A cause with the offset it is about. -/
abbrev Refusal := SpecCause × Nat

/-- An optional text that counts only if it is not empty. -/
def nonEmpty? (text : Option (List Char)) : Option String :=
  match text with
  | some [] => none
  | some chars => some (String.ofList chars)
  | none => none

/-- The items of the lines of a section. -/
def itemsOf (lines : List Line) : Except Refusal (List Item) :=
  match lines with
  | [] => .ok []
  | line :: lines =>
    let content := trimStart line.text
    match opener? content with
    | some (label, title) =>
      match _h : cutAtCloser lines with
      | none => .error (.unclosedBlock (String.ofList label), line.textStart)
      | some (inner, rest) => do
        let items ← itemsOf rest
        return .block (String.ofList label) (nonEmpty? title) line inner :: items
    | none =>
      if isCloser content then .error (.strayCloser, line.textStart)
      else do
        let items ← itemsOf lines
        match condition? content with
        | some (label, marker) => return .condition (String.ofList label) marker line :: items
        | none => return .plain line :: items
termination_by lines.length
decreasing_by
  · have := length_of_cutAtCloser _h
    simp only [List.length_cons]
    omega
  · simp

/-! ## Sections -/

/-- Lines without the blank lines at both ends. -/
def trimLines (lines : List Line) : List Line :=
  ((lines.dropWhile Line.isBlank).reverse.dropWhile Line.isBlank).reverse

/-- The common indentation of lines that are not blank. -/
def commonIndent (lines : List Line) : Nat :=
  ((lines.filter fun line => !line.isBlank).map Line.indent).min?.getD 0

/-- How the parts of a section are cut: the common indentation is left out, and in a file the last
line loses its break. -/
structure Cut where
  source : List Char
  indent : Nat
  expectations : Bool
  last : Nat

namespace Cut

/-- Where a line starts once the common indentation is left out. -/
def startOf (cut : Cut) (line : Line) : Nat := line.start + min cut.indent line.indent

/-- Where a line ends. -/
def endOf (cut : Cut) (line : Line) : Nat :=
  if cut.expectations || line.start != cut.last then line.next else line.finish

/-- The part of a source between two offsets. -/
def part (cut : Cut) (start stop : Nat) (label : Option String) (block : Bool)
    (title : Option String) : Part :=
  ⟨label, (cut.source.take stop).drop start, start, stop, block, title⟩

/-- The parts of an item.  Among the expectations a block is one part, so that values inside it can
divide it; in a file each of its lines is a part, so that each loses the common indentation. -/
def partsOf (cut : Cut) : Item → List Part
  | .plain line => [cut.part (cut.startOf line) (cut.endOf line) none false none]
  | .condition label marker line =>
    [cut.part (min (line.textStart + marker) line.finish) (cut.endOf line) (some label) false none]
  | .block label title opener inner =>
    if cut.expectations then
      match inner with
      | [] => [cut.part opener.next opener.next (some label) true title]
      | first :: rest =>
        let last := (first :: rest).getLastD first
        [cut.part (cut.startOf first) (cut.endOf last) (some label) true title]
    else
      inner.map fun line => cut.part (cut.startOf line) (cut.endOf line) (some label) true title

end Cut

/-- The section of the lines after a header or a separator. -/
def Section.of (source : List Char) (expectations : Bool) (lines : List Line) :
    Except Refusal Section :=
  let lines := trimLines lines
  match lines.getLast? with
  | none => .ok ⟨[], []⟩
  | some last => do
    let items ← itemsOf lines
    let cut : Cut := ⟨source, commonIndent lines, expectations, last.start⟩
    return ⟨items.flatMap cut.partsOf, (items.filterMap Item.label?).eraseDups⟩

/-! ## Outlines -/

/-- The title on the first line that is not blank. -/
def titleOf (source : List Char) : Except Refusal String :=
  match (linesOf source).find? fun line => !line.isBlank with
  | none => .error (.noTitle, source.length)
  | some line =>
    match title? line.trimmed with
    | some title => .ok (String.ofList title)
    | none => .error (.noTitle, line.textStart)

/-- Check the lines in front of the first section: blank, or titles where there is a title. -/
def checkPreamble (titled : Bool) : List Line → Except Refusal Unit
  | [] => .ok ()
  | line :: lines =>
    if line.isBlank || (titled && (title? line.trimmed).isSome) then checkPreamble titled lines
    else .error (.noHeader, line.textStart)

/-- Check that nothing but lines follows the separator. -/
def checkOrder (separated : Bool) : List Chunk → Except Refusal Unit
  | [] => .ok ()
  | .file line .. :: chunks =>
    if separated then .error (.fileAfterExpectations, line.textStart) else checkOrder false chunks
  | .expectations line _ :: chunks =>
    if separated then .error (.repeatedExpectations, line.textStart) else checkOrder true chunks

/-- The sections of the files among chunks. -/
def fileSections (source : List Char) : List Chunk → Except Refusal (List (String × Section))
  | [] => .ok []
  | .file _ path body :: chunks => do
    let content ← Section.of source false body
    let files ← fileSections source chunks
    return (path, content) :: files
  | .expectations .. :: chunks => fileSections source chunks

/-- The section of the expectations among chunks. -/
def expectationSection (source : List Char) : List Chunk → Except Refusal (Option Section)
  | [] => .ok none
  | .file .. :: chunks => expectationSection source chunks
  | .expectations _ body :: _ => do
    let content ← Section.of source true body
    return some content

/-- The outline of a source; with a required title in front if `full`. -/
def Outline.of (source : List Char) (full : Bool) : Except Refusal Outline := do
  let title ← if full then (titleOf source).map some else .ok none
  let (preamble, chunks) := chunksOf (linesOf source)
  checkPreamble title.isSome preamble
  checkOrder false chunks
  let files ← fileSections source chunks
  let expectations ← expectationSection source chunks
  return ⟨title, files, expectations⟩

/-- A refusal as a fault at its place. -/
def Refusal.fault (source : List Char) (file : Option String) (refusal : Refusal) : Fault :=
  .spec refusal.1 (some (placeAt source file refusal.2))

end HotSpec.Spec
