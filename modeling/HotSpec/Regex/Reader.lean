import HotSpec.Regex.Basic
import HotSpec.Text.Decimal

/-!
# Reading patterns

The written form of patterns: literals, classes, groups, alternatives, repetitions with their lazy
forms, and edges.  A text outside this form reads as a pattern that never matches.
-/

namespace HotSpec.Regex

/-- The pattern of a single given character. -/
def Node.char (c : Char) : Node := .oneOf false [.range c c]

/-- The class that a letter names after a backslash. -/
def classOf? (c : Char) : Option CharSet :=
  match c with
  | 'd' => some .decimal
  | 'D' => some (.negated .decimal)
  | 'w' => some .word
  | 'W' => some (.negated .word)
  | 's' => some .blank
  | 'S' => some (.negated .blank)
  | _ => none

/-- The edge that a letter names after a backslash. -/
def edgeOf? (c : Char) : Option Edge :=
  match c with
  | 'b' => some .wordEdge
  | 'B' => some .inWord
  | 'A' => some .textStart
  | 'Z' => some .textEnd
  | _ => none

/-- The value of hexadecimal digits. -/
def hexValue (digits : List Char) : Nat :=
  digits.foldl (fun value c =>
    value * 16 + (if c.isDigit then c.toNat - '0'.toNat else c.toLower.toNat - 'a'.toNat + 10)) 0

/-- The character that a letter stands for after a backslash, and the text left. -/
def escaped (c : Char) (rest : List Char) : Char × List Char :=
  match c with
  | 'n' => ('\n', rest)
  | 't' => ('\t', rest)
  | 'r' => ('\r', rest)
  | 'f' => (Char.ofNat 12, rest)
  | 'v' => (Char.ofNat 11, rest)
  | 'a' => (Char.ofNat 7, rest)
  | '0' => (Char.ofNat 0, rest)
  | 'x' => (Char.ofNat (hexValue (rest.take 2)), rest.drop 2)
  | 'u' => (Char.ofNat (hexValue (rest.take 4)), rest.drop 4)
  | 'U' => (Char.ofNat (hexValue (rest.take 8)), rest.drop 8)
  | other => (other, rest)

/-- One member of a bracketed class: a named class or a character. -/
def readMember : List Char → Option ((CharSet ⊕ Char) × List Char)
  | [] => none
  | '\\' :: c :: rest =>
    match classOf? c with
    | some set => some (.inl set, rest)
    | none =>
      if c == 'b' then some (.inr (Char.ofNat 8), rest)
      else
        let (meant, rest) := escaped c rest
        some (.inr meant, rest)
  | c :: rest => some (.inr c, rest)

/-- The members of a bracketed class up to its closing bracket, which is a member itself where it
comes first. -/
def readClass : (fuel : Nat) → (first : Bool) → List Char → Option (List CharSet × List Char)
  | 0, _, _ => none
  | fuel + 1, first, text =>
    match text with
    | [] => none
    | c :: after =>
      if c == ']' && !first then some ([], after)
      else do
        let (member, rest) ← readMember text
        match member with
        | .inl set =>
          let (sets, rest) ← readClass fuel false rest
          return (set :: sets, rest)
        | .inr low =>
          match rest with
          | '-' :: next :: more =>
            if next == ']' then
              let (sets, rest) ← readClass fuel false rest
              return (.range low low :: sets, rest)
            else
              let (high, rest) ← readMember (next :: more)
              let (sets, rest) ← readClass fuel false rest
              match high with
              | .inr high => return (.range low high :: sets, rest)
              | .inl set => return (.range low low :: .range '-' '-' :: set :: sets, rest)
          | _ =>
            let (sets, rest) ← readClass fuel false rest
            return (.range low low :: sets, rest)

/-- The bounds written in braces after a pattern, if they are bounds. -/
def readBounds? (text : List Char) : Option ((Nat × Option Nat) × List Char) :=
  let number (digits : List Char) : Nat := Decimal.digitsValue digits
  let low := text.takeWhile Char.isDigit
  match text.dropWhile Char.isDigit with
  | '}' :: rest => if low.isEmpty then none else some ((number low, some (number low)), rest)
  | ',' :: more =>
    let high := more.takeWhile Char.isDigit
    match more.dropWhile Char.isDigit with
    | '}' :: rest =>
      some ((number low, if high.isEmpty then none else some (number high)), rest)
    | _ => none
  | _ => none

/-- The repetition written after a pattern, if any. -/
def readQuantifier? : List Char → Option ((Nat × Option Nat) × List Char)
  | '*' :: rest => some ((0, none), rest)
  | '+' :: rest => some ((1, none), rest)
  | '?' :: rest => some ((0, some 1), rest)
  | '\x7b' :: rest => readBounds? rest
  | _ => none

/-- A pattern with the repetitions written after it. -/
def readRepeats (node : Node) : (fuel : Nat) → List Char → Node × List Char
  | 0, text => (node, text)
  | fuel + 1, text =>
    match readQuantifier? text with
    | none => (node, text)
    | some ((least, most), '?' :: rest) => readRepeats (.loop false least most node) fuel rest
    | some ((least, most), rest) => readRepeats (.loop true least most node) fuel rest

/-- The start of a group after its parenthesis: what is made of its content, and the text left. -/
def readGroupKind (text : List Char) : (Node → Node) × List Char :=
  match text with
  | '?' :: ':' :: rest => (id, rest)
  | '?' :: '=' :: rest => (.ahead false, rest)
  | '?' :: '!' :: rest => (.ahead true, rest)
  | '?' :: 'P' :: '<' :: rest => (id, (rest.dropWhile (· != '>')).drop 1)
  | _ => (id, text)

mutual

/-- Alternatives up to a closing parenthesis or the end. -/
def readAlternatives : (fuel : Nat) → List Char → Option (Node × List Char)
  | 0, _ => none
  | fuel + 1, text => do
    let (first, rest) ← readSequence fuel text
    match rest with
    | '|' :: more =>
      let (others, rest) ← readAlternatives fuel more
      return (.alt first others, rest)
    | _ => return (first, rest)

/-- A sequence up to a bar, a closing parenthesis or the end. -/
def readSequence : (fuel : Nat) → List Char → Option (Node × List Char)
  | 0, _ => none
  | fuel + 1, text =>
    match text with
    | [] => some (.empty, [])
    | '|' :: _ => some (.empty, text)
    | ')' :: _ => some (.empty, text)
    | _ => do
      let (atom, rest) ← readAtom fuel text
      let (repeats, rest) := readRepeats atom rest.length rest
      let (others, rest) ← readSequence fuel rest
      return (.seq repeats others, rest)

/-- A pattern without its repetitions. -/
def readAtom : (fuel : Nat) → List Char → Option (Node × List Char)
  | 0, _ => none
  | fuel + 1, text =>
    match text with
    | [] => none
    | '.' :: rest => some (.anyChar, rest)
    | '^' :: rest => some (.edge .lineStart, rest)
    | '$' :: rest => some (.edge .lineEnd, rest)
    | '(' :: rest => do
      let (wrap, rest) := readGroupKind rest
      let (body, rest) ← readAlternatives fuel rest
      match rest with
      | ')' :: rest => return (wrap body, rest)
      | _ => none
    | '[' :: '^' :: rest => do
      let (sets, rest) ← readClass (rest.length + 1) true rest
      return (.oneOf true sets, rest)
    | '[' :: rest => do
      let (sets, rest) ← readClass (rest.length + 1) true rest
      return (.oneOf false sets, rest)
    | '\\' :: c :: rest =>
      match classOf? c, edgeOf? c with
      | some set, _ => some (.oneOf false [set], rest)
      | none, some edge => some (.edge edge, rest)
      | none, none =>
        let (meant, rest) := escaped c rest
        some (.char meant, rest)
    | c :: rest => some (.char c, rest)

end

/-- The tree of a written pattern. -/
def readNode? (text : List Char) : Option Node :=
  match readAlternatives (3 * text.length + 3) text with
  | some (node, []) => some node
  | _ => none

/-- A written pattern with its flags. -/
def ofSource (source : String) (flags : RegexFlags) : Regex :=
  ⟨source, flags, (readNode? source.toList).getD .never⟩

end HotSpec.Regex
