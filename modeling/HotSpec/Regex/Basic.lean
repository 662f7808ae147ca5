import HotSpec.Text.Blank
import HotSpec.Text.Letters
import HotSpec.Text.Quoted

/-!
# Regular expressions

Patterns as trees, the flags that change their meaning, and the matcher.  Matching is a search in
priority order: of the ways a pattern can match, the first one after which the rest of the
pattern matches too.

Main definitions:

- `Node.run`: one pattern at one place, with what has to match afterwards.
- `Regex.matchRest?`: the text left by a match at the start of a text.
- `Regex.occursIn`: whether a pattern matches anywhere in a text.
-/

namespace HotSpec

/-- Flags of a pattern. -/
structure RegexFlags where
  ignoreCase : Bool
  multiLine : Bool
  dotAll : Bool
  deriving Repr, DecidableEq, Inhabited

namespace Regex

/-! ## Patterns -/

/-- What a single character may be. -/
inductive CharSet
  | range (first last : Char)
  | decimal
  | word
  | blank
  | negated (set : CharSet)
  deriving Repr, DecidableEq

/-- Places between characters. -/
inductive Edge
  | lineStart
  | lineEnd
  | textStart
  | textEnd
  | wordEdge
  | inWord
  deriving Repr, DecidableEq

/-- Patterns. -/
inductive Node
  | empty
  | never
  | anyChar
  | oneOf (negated : Bool) (sets : List CharSet)
  | edge (e : Edge)
  | seq (first second : Node)
  | alt (first second : Node)
  | loop (greedy : Bool) (least : Nat) (most : Option Nat) (body : Node)
  | ahead (negated : Bool) (body : Node)
  deriving Repr, Inhabited

/-! ## Places in a text -/

/-- A place in a text: the character before it, if any, and the text after it. -/
structure Place where
  before : Option Char
  rest : List Char
  deriving Repr, DecidableEq

/-- The place at the start of a text. -/
def Place.start (text : List Char) : Place := ⟨none, text⟩

/-- The place after the next character. -/
def Place.next? (p : Place) : Option (Char × Place) :=
  match p.rest with
  | [] => none
  | c :: rest => some (c, ⟨some c, rest⟩)

/-- Whether a place is at an edge. -/
def Edge.holds (flags : RegexFlags) (edge : Edge) (p : Place) : Bool :=
  let wordBefore := p.before.any Text.isWord
  let wordAfter := p.rest.head?.any Text.isWord
  match edge with
  | .textStart => p.before.isNone
  | .textEnd => p.rest.isEmpty
  | .lineStart => p.before.isNone || (flags.multiLine && p.before == some '\n')
  | .lineEnd => p.rest.isEmpty || p.rest == ['\n'] || (flags.multiLine && p.rest.head? == some '\n')
  | .wordEdge => wordBefore != wordAfter
  | .inWord => wordBefore == wordAfter

/-! ## Matching -/

/-- Whether a character belongs to a set. -/
def CharSet.has : CharSet → Char → Bool
  | .range first last, c => first ≤ c && c ≤ last
  | .decimal, c => Text.isDecimal c
  | .word, c => Text.isWord c
  | .blank, c => Text.isBlank c
  | .negated set, c => !set.has c

/-- Whether a character belongs to one of the sets, in any case where case is ignored. -/
def accepts (flags : RegexFlags) (sets : List CharSet) (c : Char) : Bool :=
  let forms := if flags.ignoreCase then [c, Text.lower c, Text.upperLetter c] else [c]
  forms.any fun form => sets.any (·.has form)

/-- Repetition: `least` times, then as often as `most` allows, preferring more if greedy.  A round
beyond `least` has to consume something, so the text left bounds the number of rounds. -/
def repeated (round : Place → (Place → Option Place) → Option Place) (greedy : Bool) :
    (fuel : Nat) → (least : Nat) → (most : Option Nat) → Place → (Place → Option Place) →
      Option Place
  | 0, _, _, p, k => k p
  | fuel + 1, least + 1, most, p, k =>
    round p fun p' => repeated round greedy fuel least (most.map (· - 1)) p' k
  | fuel + 1, 0, most, p, k =>
    if most = some 0 then k p
    else
      let again := fun (_ : Unit) => round p fun p' =>
        if p'.rest.length < p.rest.length then
          repeated round greedy fuel 0 (most.map (· - 1)) p' k
        else none
      if greedy then (again ()).or (k p) else (k p).or (again ())

/-- Match a pattern at a place, then what follows it. -/
def Node.run (flags : RegexFlags) : Node → Place → (Place → Option Place) → Option Place
  | .empty, p, k => k p
  | .never, _, _ => none
  | .anyChar, p, k =>
    match p.next? with
    | some (c, p') => if c == '\n' && !flags.dotAll then none else k p'
    | none => none
  | .oneOf negated sets, p, k =>
    match p.next? with
    | some (c, p') => if accepts flags sets c != negated then k p' else none
    | none => none
  | .edge e, p, k => if e.holds flags p then k p else none
  | .seq first second, p, k => first.run flags p fun p' => second.run flags p' k
  | .alt first second, p, k => (first.run flags p k).or (second.run flags p k)
  | .loop greedy least most body, p, k =>
    repeated (fun p' k' => body.run flags p' k') greedy (least + p.rest.length + 1) least most p k
  | .ahead negated body, p, k =>
    if (body.run flags p some).isSome != negated then k p else none

end Regex

/-! ## Compiled patterns -/

/-- A compiled pattern: the text it was written as, its flags and its tree. -/
structure Regex where
  source : String
  flags : RegexFlags
  node : Regex.Node
  deriving Repr, Inhabited

namespace Regex

/-- The place after a match at a place. -/
def matchAt? (r : Regex) (p : Place) : Option Place :=
  r.node.run r.flags p some

/-- The text left by a match at the start of a text. -/
def matchRest? (r : Regex) (text : List Char) : Option (List Char) :=
  (r.matchAt? (.start text)).map Place.rest

/-- Whether the pattern matches at a place or at a later one. -/
def occursFrom (r : Regex) (before : Option Char) : List Char → Bool
  | [] => (r.matchAt? ⟨before, []⟩).isSome
  | c :: rest => (r.matchAt? ⟨before, c :: rest⟩).isSome || r.occursFrom (some c) rest

/-- Whether the pattern matches anywhere in a text. -/
def occursIn (r : Regex) (text : List Char) : Bool :=
  r.occursFrom none text

/-- Patterns are the same when they were written the same way. -/
def same (r s : Regex) : Bool :=
  r.source == s.source && r.flags == s.flags

/-- The names of the flags that are set. -/
def flagNames (flags : RegexFlags) : List String :=
  (if flags.ignoreCase then ["re.IGNORECASE"] else []) ++
    (if flags.multiLine then ["re.MULTILINE"] else []) ++
      (if flags.dotAll then ["re.DOTALL"] else [])

/-- How a pattern is shown in messages: the first 200 characters of its quoted source, and its
flags. -/
def display (r : Regex) : String :=
  let source := String.ofList ((Text.quotedChars r.source.toList).take 200)
  match flagNames r.flags with
  | [] => "re.compile(" ++ source ++ ")"
  | names => "re.compile(" ++ source ++ ", " ++ "|".intercalate names ++ ")"

end Regex

end HotSpec
