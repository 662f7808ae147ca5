import HotSpec.Text.Blank
import HotSpec.Yaml.Document

/-!
# Reading data files

The entries of a data file that is a mapping of names to scalars.  Scalars may be unquoted, in
single or double quotes, or blocks of lines; an entry that holds other entries is read as an empty
collection.

Main definitions:

- `plainData`: what an unquoted text stands for.
- `readEntries`: the entries of a file.
-/

namespace HotSpec.Yaml

open HotSpec.Text

/-! ## Unquoted scalars -/

/-- The value of digits in a base. -/
def valueIn (base : Nat) (digits : List Char) : Nat :=
  digits.foldl (fun n c =>
    n * base + (if c.isDigit then c.toNat - '0'.toNat else c.toLower.toNat - 'a'.toNat + 10)) 0

/-- The value of a whole number without a sign: binary, octal, decimal, hexadecimal or in base
sixty. -/
def wholeValue (body : List Char) : Nat :=
  match body with
  | '0' :: 'b' :: digits => valueIn 2 digits
  | '0' :: 'x' :: digits => valueIn 16 digits
  | '0' :: digits => valueIn 8 digits
  | _ => (splitOn ':' body).foldl (fun n part => n * 60 + valueIn 10 part) 0

/-- The value of a number with a point and without a sign. -/
def pointValue (body : List Char) : Float :=
  match String.ofList (body.map Char.toLower) with
  | ".inf" => 1.0 / 0.0
  | ".nan" => 0.0 / 0.0
  | _ => (splitOn ':' body).foldl (fun x part =>
      x * 60.0 + (Decimal.readNumber? part).getD 0.0) 0.0

/-- What an unquoted text stands for. -/
def plainData (text : List Char) : Data :=
  let digits := text.filter (· != '_')
  let (negative, body) := Decimal.takeSign digits
  match readsAs text with
  | .null => .null
  | .bool => .bool ((boolOf? text).getD false)
  | .int => .int (if negative then -(wholeValue body : Int) else wholeValue body)
  | .float => .float (if negative then -pointValue body else pointValue body)
  | .timestamp => .seq []
  | .special | .text => .text (String.ofList text)

/-! ## Lines -/

/-- A line cut at the comment in it, which follows a blank or starts the line. -/
def cutComment (spaced : Bool) : List Char → List Char
  | [] => []
  | c :: rest =>
    if c == '#' && spaced then [] else c :: cutComment (isBlank c) rest

/-- A line without the comment in it and without the blanks around it. -/
def plainPart (line : List Char) : List Char := trim (cutComment true line)

/-- Lines as one text: line breaks become spaces, empty lines become breaks. -/
def fold : List (List Char) → List Char
  | [] => []
  | [line] => line
  | line :: [] :: rest => line ++ '\n' :: fold rest
  | line :: rest => line ++ ' ' :: fold rest

/-! ## Quoted scalars -/

/-- The text in single quotes up to the closing one, which is not written twice. -/
def readSingle : List Char → List Char
  | [] => []
  | '\'' :: '\'' :: rest => '\'' :: readSingle rest
  | c :: rest => if c == '\'' then [] else c :: readSingle rest

/-- Characters that a backslash makes of one letter. -/
def letterEscapes : List (Char × Nat) := [
  ('0', 0), ('a', 7), ('b', 8), ('t', 9), ('n', 10), ('v', 11), ('f', 12), ('r', 13), ('e', 27),
  ('_', 0xa0), ('N', 0x85), ('L', 0x2028), ('P', 0x2029)]

/-- The number of digits after letters that stand for a code. -/
def codeEscapes : List (Char × Nat) := [('x', 2), ('u', 4), ('U', 8)]

/-- The text in double quotes up to the closing one. -/
def readDouble : (fuel : Nat) → List Char → List Char
  | 0, _ => []
  | fuel + 1, text =>
    match text with
    | [] => []
    | '"' :: _ => []
    | '\\' :: c :: rest =>
      match codeEscapes.lookup c, letterEscapes.lookup c with
      | some size, _ => Char.ofNat (valueIn 16 (rest.take size)) :: readDouble fuel (rest.drop size)
      | none, some code => Char.ofNat code :: readDouble fuel rest
      | none, none => c :: readDouble fuel rest
    | c :: rest => c :: readDouble fuel rest

/-! ## Blocks of lines -/

/-- The number of spaces in front of a line. -/
def spaces (line : List Char) : Nat := (line.takeWhile (· == ' ')).length

/-- Lines without the empty lines at their end. -/
def dropEmptyEnd (lines : List (List Char)) : List (List Char) :=
  (lines.reverse.dropWhile List.isEmpty).reverse

/-- The text of a block of lines under its mark: folded or not, and with one break at the end, none
or all of them. -/
def blockText (mark : List Char) (lines : List (List Char)) : List Char :=
  let indent := ((lines.filter fun line => !blank line).map spaces).min?.getD 0
  let lines := lines.map fun line => line.drop (min indent (spaces line))
  let body := dropEmptyEnd lines
  let text := if mark.head? == some '>' then fold body else List.intercalate ['\n'] body
  if body.isEmpty then []
  else if mark.contains '-' then text
  else if mark.contains '+' then text ++ List.replicate (lines.length - body.length + 1) '\n'
  else text ++ ['\n']

/-! ## Entries -/

/-- The value of an entry: what stands after its name, and the lines that belong to it. -/
def entryData (first : List Char) (more : List (List Char)) : Data :=
  let parts := (plainPart first :: more.map plainPart).dropWhile List.isEmpty
  let whole := fold (trim first :: more.map trim)
  match trim first with
  | '|' :: mark => .text (String.ofList (blockText ('|' :: plainPart mark) more))
  | '>' :: mark => .text (String.ofList (blockText ('>' :: plainPart mark) more))
  | '\'' :: _ => .text (String.ofList (readSingle (whole.drop 1)))
  | '"' :: rest => .text (String.ofList (readDouble (whole.length + rest.length) (whole.drop 1)))
  | '[' :: _ => .seq []
  | '\x7b' :: _ => .map []
  | _ =>
    if (plainPart first).isEmpty && !parts.isEmpty then .seq []
    else plainData (fold (dropEmptyEnd parts))

/-- The name in front of a colon that ends a line or is followed by a blank, and what follows. -/
def splitName : List Char → Option (List Char × List Char)
  | [] => none
  | ':' :: rest =>
    if rest.head?.all isBlank then some ([], rest)
    else (splitName rest).map fun (name, value) => (':' :: name, value)
  | c :: rest => (splitName rest).map fun (name, value) => (c :: name, value)

/-- A name without its quotes. -/
def nameText (name : List Char) : String :=
  match trim name with
  | '\'' :: rest => String.ofList (readSingle rest)
  | '"' :: rest => String.ofList (readDouble (rest.length + 1) rest)
  | name => String.ofList name

/-- Whether a line belongs to the entry above it. -/
def continues (line : List Char) : Bool :=
  line.head?.all fun c => isBlank c || c == '#' || c == '-'

/-- The entries of the lines of a file. -/
def entriesOf : (fuel : Nat) → List (List Char) → List (String × Data)
  | 0, _ => []
  | _, [] => []
  | fuel + 1, line :: rest =>
    let more := rest.takeWhile continues
    let entries := entriesOf fuel (rest.dropWhile continues)
    match splitName (cutComment true line) with
    | some (name, _) =>
      let value := line.drop (name.length + 1)
      (nameText name, entryData value more) :: entries
    | none => entries

/-- The entries of a file; of entries with one name the last counts. -/
def readEntries (file : String) : Table Data :=
  let lines := Text.lines (unifyBreaks file.toList)
  let lines := lines.dropWhile fun line => continues line
  Table.ofRows (entriesOf lines.length lines)

end HotSpec.Yaml
