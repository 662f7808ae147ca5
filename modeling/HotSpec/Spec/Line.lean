import HotSpec.Text.Blank

/-!
# Lines of a source

A source cut into lines that know where they stand in it, and the forms that a line can have: a
file header, the separator in front of the expectations, a title, the opener and the closer of a
block, and a condition.

Main definitions:

- `Line`, `linesOf`: the lines of a source with their offsets.
- `headerPath?`, `isSeparator`, `title?`, `opener?`, `isCloser`, `condition?`: the forms.
-/

namespace HotSpec.Spec

open HotSpec.Text

/-! ## Lines -/

/-- A line of a source: where it starts, where it ends without its break, where the next line
starts, and its text without the break. -/
structure Line where
  start : Nat
  finish : Nat
  next : Nat
  text : List Char
  deriving Repr, DecidableEq

namespace Line

/-- The number of blanks in front of a line. -/
def indent (line : Line) : Nat := line.text.length - (trimStart line.text).length

/-- Whether a line is empty or holds blanks only. -/
def isBlank (line : Line) : Bool := Text.blank line.text

/-- The text of a line without the blanks around it. -/
def trimmed (line : Line) : List Char := trim line.text

/-- Where the text of a line starts after its indentation. -/
def textStart (line : Line) : Nat := line.start + line.indent

end Line

/-- The lines of the given texts, the first of which starts at an offset, in a source of the given
size: the last line has no break. -/
def placeLines (size : Nat) : (offset : Nat) → List (List Char) → List Line
  | _, [] => []
  | offset, text :: texts =>
    let finish := offset + text.length
    ⟨offset, finish, min (finish + 1) size, text⟩ :: placeLines size (finish + 1) texts

/-- The lines of a source. -/
def linesOf (source : List Char) : List Line :=
  placeLines source.length 0 (splitOn '\n' source)

/-! ## Forms -/

/-- The number of dashes in front of a text. -/
def dashes (text : List Char) : Nat := (text.takeWhile (· == '-')).length

/-- What may follow the path of a header: blanks, at least three dashes, and blanks. -/
def isHeaderEnd (text : List Char) : Bool :=
  let tail := trimStart text
  3 ≤ dashes tail && blank (tail.drop (dashes tail))

/-- Whether the first characters of a text, that many, are the path of a header: it neither
starts nor ends with a blank, stays on its line, and is followed by the end of a header. -/
def isPathOf (text : List Char) (size : Nat) : Bool :=
  let path := text.take size
  path.length == size && path.head?.any (fun c => !isBlank c) &&
    path.getLast?.any (fun c => !isBlank c) && !path.contains '\n' &&
      isHeaderEnd (text.drop size)

/-- The lengths of a path in order of preference: from two upwards, and one where no other
will do. -/
def pathSizes (text : List Char) : List Nat :=
  (List.range (text.length - 1)).map (· + 2) ++ [1]

/-- The path of a file header such as `---- App.svelte ----`: the opening run of dashes is as long
as it can be, and the path as short as it can be, though two characters are preferred to one. -/
def headerPath? (text : List Char) : Option (List Char) :=
  let count := dashes text
  let openings := (List.range (count - 2)).map fun skipped => trimStart (text.drop (count - skipped))
  openings.findSome? fun rest => ((pathSizes rest).find? (isPathOf rest)).map rest.take

/-- Whether a text is the separator in front of the expectations: three or more stars, the first
in front, with nothing but blanks between and after them. -/
def isSeparator (text : List Char) : Bool :=
  text.head? == some '*' && text.all (fun c => c == '*' || isBlank c) && 3 ≤ text.count '*'

/-- The title of a line such as `# updates the heading`. -/
def title? (text : List Char) : Option (List Char) :=
  match text with
  | '#' :: rest =>
    let title := trim rest
    if title.isEmpty || title.contains '\n' then none else some title
  | _ => none

/-- Characters of labels. -/
def isLabelChar (c : Char) : Bool :=
  c.isAlphanum || c == '_' || c == '.' || c == '-'

/-- The label after two colons in front of a text, and what follows it. -/
def label? (text : List Char) : Option (List Char × List Char) :=
  match text with
  | ':' :: ':' :: rest =>
    let label := rest.takeWhile isLabelChar
    if label.isEmpty then none else some (label, rest.dropWhile isLabelChar)
  | _ => none

/-- The label of the opener of a block such as `::1:: title`, with the title, which may be empty,
or none where nothing follows the colons. -/
def opener? (text : List Char) : Option (List Char × Option (List Char)) :=
  match label? text with
  | some (label, ':' :: ':' :: rest) =>
    match rest with
    | [] => some (label, none)
    | c :: _ =>
      let title := ((rest.dropWhile isAsciiBlank).reverse.dropWhile isAsciiBlank).reverse
      if isAsciiBlank c && !title.contains '\n' then some (label, some title) else none
  | _ => none

/-- Whether a text is the closer of a block: colons, then blanks. -/
def isCloser (text : List Char) : Bool :=
  text.head? == some ':' && blank (text.dropWhile (· == ':'))

/-- The label of a condition such as `::0 <h1>zero</h1>`, and the size of its marker: the label
with its colons and the space or tab after it, if any. -/
def condition? (text : List Char) : Option (List Char × Nat) :=
  match label? text with
  | some (label, []) => some (label, label.length + 2)
  | some (label, ['\n']) => some (label, label.length + 2)
  | some (label, c :: _) =>
    if c == ' ' || c == '\t' then some (label, label.length + 3) else none
  | none => none

end HotSpec.Spec
