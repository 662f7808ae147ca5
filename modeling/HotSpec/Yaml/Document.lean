import HotSpec.Table
import HotSpec.Text.Quoted
import HotSpec.Yaml.Scalar

/-!
# Writing data files

Data as a document in block style: an indented line per entry, texts without quotes where they
read back as themselves, and long texts folded at spaces past column 80.

Main definitions:

- `Data`: what a document holds.
- `Sheet`: the text written so far and where its end stands.
- `Data.document`: the text of a document.
-/

namespace HotSpec.Yaml

/-- What a document holds. -/
inductive Data
  | null
  | bool (b : Bool)
  | int (n : Int)
  | float (x : Float)
  | text (s : String)
  | binary (bytes : List UInt8)
  | seq (items : List Data)
  | map (rows : List (String × Data))
  deriving Inhabited

/-! ## The sheet -/

/-- The text written so far, last character first, and where its end stands. -/
structure Sheet where
  written : List Char
  column : Nat
  /-- The end is preceded by a blank or starts a line. -/
  spaced : Bool
  /-- The line holds nothing but indentation and entry marks. -/
  indenting : Bool
  /-- The document ends in a text that could go on. -/
  openEnded : Bool

namespace Sheet

/-- An empty sheet. -/
def empty : Sheet := ⟨[], 0, true, true, false⟩

/-- Write characters. -/
def put (s : Sheet) (chars : List Char) : Sheet :=
  { s with written := chars.reverse ++ s.written, column := s.column + chars.length }

/-- End the line. -/
def newLine (s : Sheet) (mark : Char) : Sheet :=
  { s with written := mark :: s.written, column := 0, spaced := true, indenting := true }

/-- Go to an indentation, on a new line unless the line can still take it. -/
def indentTo (s : Sheet) (indent : Nat) : Sheet :=
  let s := if !s.indenting || indent < s.column || (s.column == indent && !s.spaced)
    then s.newLine '\n' else s
  if s.column < indent then
    { s.put (List.replicate (indent - s.column) ' ') with spaced := true }
  else s

/-- Write a mark of structure, after a space where it needs one. -/
def mark (s : Sheet) (text : String) (apart spaced indenting : Bool) : Sheet :=
  let chars := if s.spaced || !apart then text.toList else ' ' :: text.toList
  { s.put chars with spaced, indenting := s.indenting && indenting, openEnded := false }

end Sheet

/-! ## Texts -/

/-- The column past which a space may become a line break. -/
def width : Nat := 80

/-- Runs of equal class in a text. -/
def runs (text : List Char) : List (List Char) :=
  text.splitBy fun a b => (a == ' ') == (b == ' ') && isBreak a == isBreak b

/-- Whether a run is the given number of spaces or more. -/
def isSpaces (run : List Char) : Bool := run.head? == some ' '

/-- Whether a run is of line breaks. -/
def isBreaks (run : List Char) : Bool := run.head?.any isBreak

/-- A text without quotes: single spaces past the width become line breaks. -/
def putPlain (s : Sheet) (indent : Nat) (split root : Bool) (text : List Char) : Sheet :=
  let s := { s with openEnded := s.openEnded || root }
  if text.isEmpty then s
  else
    let s := if s.spaced then s else s.put [' ']
    let s := { s with spaced := false, indenting := false }
    (runs text).foldl (fun s run =>
      if isSpaces run && run.length == 1 && width < s.column && split then
        { s.indentTo indent with spaced := false, indenting := false }
      else s.put run) s

/-- A text between apostrophes: an apostrophe is doubled, a run of line breaks takes one break
more, and single spaces inside past the width become line breaks. -/
def putQuoted (s : Sheet) (indent : Nat) (split : Bool) (text : List Char) : Sheet :=
  let rec go (s : Sheet) (first : Bool) : List (List Char) → Sheet
    | [] => s
    | run :: rest =>
      if isSpaces run then
        let s :=
          if run.length == 1 && width < s.column && split && !first && !rest.isEmpty then
            s.indentTo indent
          else s.put run
        go s false rest
      else if isBreaks run then
        let s := if run.head? == some '\n' then s.newLine '\n' else s
        go ((run.foldl Sheet.newLine s).indentTo indent) false rest
      else
        go (s.put (run.flatMap fun c => if c == '\'' then ['\'', '\''] else [c])) false rest
  (go (s.mark "'" true false false) true (runs text)).mark "'" false false false

/-- Short escapes between double quotes. -/
def shortEscapes : List (Nat × Char) := [
  (0, '0'), (7, 'a'), (8, 'b'), (9, 't'), (10, 'n'), (11, 'v'), (12, 'f'), (13, 'r'), (27, 'e'),
  (0x22, '"'), (0x5C, '\\'), (0x85, 'N'), (0xA0, '_'), (0x2028, 'L'), (0x2029, 'P')]

/-- Whether a character is written as it is between double quotes. -/
def isBare (c : Char) : Bool :=
  let code := c.toNat
  c != '"' && c != '\\' && code != 0xFEFF && !isBreak c &&
    ((0x20 ≤ code && code ≤ 0x7E) || (0xA0 ≤ code && code ≤ 0xD7FF) ||
      (0xE000 ≤ code && code ≤ 0xFFFD))

/-- The escape of a character. -/
def escape (c : Char) : List Char :=
  let code := c.toNat
  match shortEscapes.lookup code with
  | some letter => ['\\', letter]
  | none =>
    let digits (width : Nat) : List Char := (Text.hexPadded width code).map Char.toUpper
    if code ≤ 0xFF then '\\' :: 'x' :: digits 2
    else if code ≤ 0xFFFF then '\\' :: 'u' :: digits 4
    else '\\' :: 'U' :: digits 8

/-- A text between double quotes: what is not bare is escaped, and a line past the width is
continued after a backslash.  `pending` are the bare characters not yet written, last first. -/
def putEscaped (s : Sheet) (indent : Nat) (split : Bool) (text : List Char) : Sheet :=
  let rec go (s : Sheet) (index : Nat) (pending : List Char) : List Char → Sheet
    | [] => s.put pending.reverse
    | c :: rest =>
      let bare := isBare c
      let (s, pending) :=
        if bare then (s, pending) else ((s.put pending.reverse).put (escape c), [])
      let reach := if bare then s.column + pending.length else s.column - 1
      let foldable := 0 < index && !rest.isEmpty && (c == ' ' || pending.isEmpty) &&
        width < reach && split
      if foldable then
        let s := ((s.put pending.reverse).put ['\\']).indentTo indent
        let s := { s with spaced := false, indenting := false }
        let next := if bare then some c else rest.head?
        let s := if next == some ' ' then s.put ['\\'] else s
        go s (index + 1) (if bare then [c] else []) rest
      else go s (index + 1) (if bare then c :: pending else []) rest
  (go (s.mark "\"" true false false) 0 [] text).mark "\"" false false false

/-- The digits of base sixty-four. -/
def base64Digits : List Char :=
  "ABCDEFGHIJKLMNOPQRSTUVWXYZabcdefghijklmnopqrstuvwxyz0123456789+/".toList

/-- Bytes in base sixty-four: four digits for three bytes, padded at the end. -/
def base64 : List UInt8 → List Char
  | [] => []
  | [a] =>
    let n := a.toNat * 16
    [digit (n / 64), digit (n % 64), '=', '=']
  | [a, b] =>
    let n := (a.toNat * 256 + b.toNat) * 4
    [digit (n / 4096), digit (n / 64 % 64), digit (n % 64), '=']
  | a :: b :: c :: rest =>
    let n := (a.toNat * 256 + b.toNat) * 256 + c.toNat
    digit (n / 262144) :: digit (n / 4096 % 64) :: digit (n / 64 % 64) :: digit (n % 64) ::
      base64 rest
where
  /-- One digit. -/
  digit (n : Nat) : Char := base64Digits[n]?.getD 'A'

/-- Pieces of a text of at most 76 characters, the length of a line of encoded bytes. -/
def encodedLines : (fuel : Nat) → List Char → List (List Char)
  | 0, _ => []
  | _, [] => []
  | fuel + 1, text => text.take 76 :: encodedLines fuel (text.drop 76)

/-- Encoded bytes, a line of them at a time; between quotes where there are none. -/
def putBinary (s : Sheet) (indent : Nat) (bytes : List UInt8) : Sheet :=
  let s := s.mark "!!binary" true false false
  let digits := base64 bytes
  if digits.isEmpty then putEscaped s indent false []
  else
    (encodedLines digits.length digits).foldl
      (fun s line => ((s.indentTo indent).put line).newLine '\n')
      ((s.mark "|" true false false).newLine '\n')

/-- A text, in the first style that can hold it. -/
def putText (s : Sheet) (indent : Nat) (key root : Bool) (text : String) : Sheet :=
  let chars := text.toList
  let shape := Shape.of chars
  if shape.plain && !(key && chars.isEmpty) && readsAs chars == .text then
    putPlain s indent (!key) root chars
  else if shape.quoted && !(key && shape.multiline) then putQuoted s indent (!key) chars
  else putEscaped s indent (!key) chars

/-! ## Documents -/

/-- Whether a key can stand in front of its value on one line. -/
def isSimpleKey (key : String) : Bool :=
  let chars := key.toList
  !chars.isEmpty && !chars.any isBreak && chars.length < 123

/-- The indentation inside a collection: none at the root, two more elsewhere. -/
def deeper : Option Nat → Nat
  | none => 0
  | some indent => indent + 2

/-- The indentation of the further lines of a scalar. -/
def scalarIndent : Option Nat → Nat
  | none => 2
  | some indent => indent + 2

mutual

/-- Write data inside a collection of the given indentation; `inMap` for the value of a key. -/
def Data.put (s : Sheet) (indent : Option Nat) (inMap : Bool) : Data → Sheet
  | .null => putPlain s (scalarIndent indent) true indent.isNone "null".toList
  | .bool b =>
    putPlain s (scalarIndent indent) true indent.isNone (if b then "true" else "false").toList
  | .int n => putPlain s (scalarIndent indent) true indent.isNone (toString n).toList
  | .float x =>
    putPlain s (scalarIndent indent) true indent.isNone (Decimal.stored.write x).toList
  | .text t => putText s (scalarIndent indent) false indent.isNone t
  | .binary bytes => putBinary s (scalarIndent indent) bytes
  | .seq [] => (s.mark "[" true true false).mark "]" false false false
  | .seq items =>
    let inner := if inMap && !s.indenting then indent.getD 0 else deeper indent
    putItems s inner items
  | .map [] => (s.mark "\x7b" true true false).mark "\x7d" false false false
  | .map rows => putRows s (deeper indent) rows

/-- Write the items of a sequence. -/
def putItems (s : Sheet) (indent : Nat) : List Data → Sheet
  | [] => s
  | item :: items =>
    putItems (item.put ((s.indentTo indent).mark "-" true false true) (some indent) false) indent
      items

/-- Write the rows of a map. -/
def putRows (s : Sheet) (indent : Nat) : List (String × Data) → Sheet
  | [] => s
  | (key, value) :: rows =>
    let s := s.indentTo indent
    let s :=
      if isSimpleKey key then
        (putText s (indent + 2) true false key).mark ":" false false false
      else
        let s := putText (s.mark "?" true false true) (indent + 2) false false key
        (s.indentTo indent).mark ":" true false true
    putRows (value.put s (some indent) true) indent rows

end

/-- The text of a document.  A mark ends a document whose only text could go on. -/
def Data.document (data : Data) : String :=
  let s := (data.put .empty none false).indentTo 0
  let s := if s.openEnded then (s.mark "..." true false false).indentTo 0 else s
  String.ofList s.written.reverse

end HotSpec.Yaml
