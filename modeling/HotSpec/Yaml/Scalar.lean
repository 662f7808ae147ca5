import HotSpec.Text.Decimal

/-!
# Scalars of data files

Which texts a data file may write without quotes: those that read back as texts, and whose
characters cannot be taken for structure.

Main definitions:

- `readsAs`: the kind of value that an unquoted text stands for.
- `Shape.of`: which styles a text can be written in.
-/

namespace HotSpec.Yaml

/-! ## What an unquoted text stands for -/

/-- Kinds of values that unquoted texts stand for. -/
inductive PlainKind
  | null
  | bool
  | int
  | float
  | timestamp
  | special
  | text
  deriving Repr, DecidableEq

/-- Texts of truth values, with what they mean. -/
def boolWords : List (String × Bool) :=
  [("yes", true), ("no", false), ("true", true), ("false", false), ("on", true), ("off", false)]

/-- The spellings of a word: lower case, with a capital, upper case. -/
def spellings (word : String) : List String :=
  [word, word.capitalize, word.toUpper]

/-- The truth value that a text stands for. -/
def boolOf? (text : List Char) : Option Bool :=
  (boolWords.find? fun row => (spellings row.1).contains (String.ofList text)).map Prod.snd

/-- The texts that stand for no value. -/
def isNullText (text : List Char) : Bool :=
  ["", "~", "null", "Null", "NULL"].contains (String.ofList text)

/-- Digits and underscores. -/
def isDigitOrLine (c : Char) : Bool := c.isDigit || c == '_'

/-- A text without a leading sign. -/
def unsigned (text : List Char) : List Char := (Decimal.takeSign text).2

/-- Groups of base sixty: colons, each followed by a number below sixty, then the given end. -/
def sixties (atEnd : List Char → Bool) : (fuel : Nat) → List Char → Bool
  | 0, _ => false
  | fuel + 1, ':' :: rest =>
    let again (left : List Char) : Bool := atEnd left || sixties atEnd fuel left
    match rest with
    | a :: b :: left =>
      (a.isDigit && again (b :: left)) ||
        (decide ('0' ≤ a) && decide (a ≤ '5') && b.isDigit && again left)
    | [a] => a.isDigit && again []
    | [] => false
  | _, _ => false

/-- Whole numbers: binary, octal, decimal, hexadecimal, or in base sixty. -/
def isIntText (text : List Char) : Bool :=
  let body := unsigned text
  match body with
  | '0' :: 'b' :: digits =>
    !digits.isEmpty && digits.all fun c => c == '0' || c == '1' || c == '_'
  | '0' :: 'x' :: digits =>
    !digits.isEmpty && digits.all fun c =>
      c.isDigit || ('a' ≤ c && c ≤ 'f') || ('A' ≤ c && c ≤ 'F') || c == '_'
  | ['0'] => true
  | '0' :: digits => digits.all fun c => ('0' ≤ c && c ≤ '7') || c == '_'
  | c :: _ =>
    let rest := body.dropWhile isDigitOrLine
    c.isDigit && (rest.isEmpty || sixties List.isEmpty rest.length rest)
  | [] => false

/-- An exponent with its sign, or nothing. -/
def isExponentText : List Char → Bool
  | [] => true
  | e :: sign :: digits =>
    (e == 'e' || e == 'E') && (sign == '-' || sign == '+') && !digits.isEmpty &&
      digits.all Char.isDigit
  | _ => false

/-- Numbers with a point, infinities and what is not a number. -/
def isFloatText (text : List Char) : Bool :=
  let body := unsigned text
  let word := String.ofList body
  [".inf", ".Inf", ".INF"].contains word ||
    [".nan", ".NaN", ".NAN"].contains (String.ofList text) ||
    (match text with
      | '.' :: c :: rest => c.isDigit && isExponentText (rest.dropWhile isDigitOrLine)
      | _ => false) ||
    match body with
    | c :: _ =>
      c.isDigit && match body.dropWhile isDigitOrLine with
        | '.' :: rest => isExponentText (rest.dropWhile isDigitOrLine)
        | rest =>
          sixties (fun left => match left with
            | '.' :: part => part.all isDigitOrLine
            | _ => false) rest.length rest
    | [] => false

/-- A run of at least `least` and at most `most` digits taken off a text, as many as there are. -/
def dropDigits? (least most : Nat) (text : List Char) : Option (List Char) :=
  let count := min most (text.takeWhile Char.isDigit).length
  if count < least then none else some (text.drop count)

/-- A required character taken off a text. -/
def dropChar? (wanted : Char) : List Char → Option (List Char)
  | c :: rest => if c == wanted then some rest else none
  | [] => none

/-- The zone that may end a time: blanks, then `Z` or an offset in hours and minutes. -/
def isZoneText (text : List Char) : Bool :=
  text.isEmpty ||
    match text.dropWhile fun c => c == ' ' || c == '\t' with
    | ['Z'] => true
    | c :: rest =>
      (c == '-' || c == '+') && match dropDigits? 1 2 rest with
        | some [] => true
        | some left => (dropChar? ':' left >>= dropDigits? 2 2) == some []
        | none => false
    | [] => false

/-- Dates, alone or with a time of day. -/
def isTimestampText (text : List Char) : Bool :=
  let date := dropDigits? 4 4 text >>= dropChar? '-' >>= dropDigits? 2 2 >>= dropChar? '-' >>=
    dropDigits? 2 2
  let shortDate := dropDigits? 4 4 text >>= dropChar? '-' >>= dropDigits? 1 2 >>= dropChar? '-' >>=
    dropDigits? 1 2
  date == some [] || match shortDate with
    | some (c :: rest) =>
      let hour? : Option (List Char) :=
        if c == 'T' || c == 't' then some rest
        else if c == ' ' || c == '\t' then some (rest.dropWhile fun c => c == ' ' || c == '\t')
        else none
      match hour? >>= dropDigits? 1 2 >>= dropChar? ':' >>= dropDigits? 2 2 >>= dropChar? ':' >>=
          dropDigits? 2 2 with
      | some ('.' :: rest) => isZoneText (rest.dropWhile Char.isDigit)
      | some rest => isZoneText rest
      | none => false
    | _ => false

/-- The kind of value that an unquoted text stands for. -/
def readsAs (text : List Char) : PlainKind :=
  if isNullText text then .null
  else if (boolOf? text).isSome then .bool
  else if isFloatText text then .float
  else if isIntText text then .int
  else if isTimestampText text then .timestamp
  else if ["<<", "=", "!", "&", "*"].contains (String.ofList text) then .special
  else .text

/-! ## Shapes -/

/-- Characters that end a line in a data file. -/
def isBreak (c : Char) : Bool :=
  c == '\n' || c.toNat == 0x85 || c.toNat == 0x2028 || c.toNat == 0x2029

/-- Characters that separate an indicator from what follows. -/
def isSeparator (c : Char) : Bool :=
  isBreak c || c == ' ' || c == '\t' || c == '\r' || c.toNat == 0

/-- Characters that a data file may hold as they are. -/
def isPrintable (c : Char) : Bool :=
  let code := c.toNat
  c == '\n' || (0x20 ≤ code && code ≤ 0x7E) ||
    ((code == 0x85 || (0xA0 ≤ code && code ≤ 0xD7FF) || (0xE000 ≤ code && code ≤ 0xFFFD) ||
      (0x10000 ≤ code && code < 0x10FFFF)) && code != 0xFEFF)

/-- Which styles a text can be written in. -/
structure Shape where
  /-- The text holds line breaks. -/
  multiline : Bool
  /-- The text can stand without quotes. -/
  plain : Bool
  /-- The text can stand between apostrophes. -/
  quoted : Bool
  deriving Repr, DecidableEq

/-- Whether a character makes structure at a place of a text: where it is the first one, or
between the one before and the one after it. -/
def isIndicatorAt (before : Option Char) (c : Char) (after : Option Char) : Bool :=
  let parted := after.all isSeparator
  match before with
  | none => "#,[]\x7b\x7d&*!|>'\"%@\x60".toList.contains c || ((c == '?' || c == ':' || c == '-') && parted)
  | some b => (c == ':' && parted) || (c == '#' && isSeparator b)

/-- Whether any character of a text makes structure. -/
def hasIndicator (before : Option Char) : List Char → Bool
  | [] => false
  | c :: rest => isIndicatorAt before c rest.head? || hasIndicator (some c) rest

/-- Whether one kind of character directly precedes another. -/
def hasPair (first second : Char → Bool) : List Char → Bool
  | a :: b :: rest => (first a && second b) || hasPair first second (b :: rest)
  | _ => false

/-- The styles that a text can be written in. -/
def Shape.of (text : List Char) : Shape :=
  let space (c : Char) : Bool := c == ' '
  let edge (c : Char) : Bool := c == ' ' || isBreak c
  let multiline := text.any isBreak
  let spaceBreak := hasPair space isBreak text
  let breakSpace := hasPair isBreak space text
  let special := !text.all isPrintable
  let outer := text.head?.any edge || text.getLast?.any edge
  let marker := "---".toList.isPrefixOf text || "...".toList.isPrefixOf text
  { multiline
    plain := !(multiline || spaceBreak || breakSpace || special || outer || marker ||
      hasIndicator none text)
    quoted := !(spaceBreak || breakSpace || special) }

end HotSpec.Yaml
