import HotSpec.Fault.Basic

/-!
# Sources and anchored values

A spec is written as text with values between the pieces of text.  Plain values are spliced into
the text; patterns and callable values are anchored: they keep the offset at which they were
written, so that they can be put back between the characters they were written between.

Main definitions:

- `Source`: a text with its anchored values.
- `interpolate`, `splitParts`: texts with values between them, and a mixed list as such.
- `Source.of`: the source of whatever a spec can be given as.
- `placeAt`: the line and the column of an offset.
-/

namespace HotSpec.Spec

/-! ## Anchored values -/

/-- A value anchored at an offset of a text. -/
structure Anchored where
  index : Nat
  value : Value
  deriving Inhabited

/-- Roles of anchored values. -/
inductive Role
  | sub
  | function
  | regex
  deriving Repr, DecidableEq

namespace Role

/-- The name of a role. -/
def name : Role → String
  | .sub => "sub"
  | .function => "function"
  | .regex => "regex"

end Role

/-- The role of a value at its anchor: a pattern, a step of its own, or a plain function. -/
def roleOf (v : Value) : Role :=
  match v with
  | .regex _ => .regex
  | v => if v.isSub then .sub else .function

namespace Anchored

/-- The role of an anchored value. -/
def role (a : Anchored) : Role := roleOf a.value

/-- Whether an anchored value is a sub or a plain function. -/
def isCallable (a : Anchored) : Bool := a.role != .regex

end Anchored

/-- Whether a value keeps its place instead of being spliced into the text. -/
def isAnchoring : Value → Bool
  | .regex _ => true
  | v => v.isCallable

/-! ## Sources -/

/-- A text with its anchored values. -/
structure Source where
  text : List Char
  values : List Anchored
  deriving Inhabited

/-- Texts with values between them, put one after the other from an offset on.  Values without a
text in front of them are left out. -/
def interpolateAt : (offset : Nat) → List String → List Value → Source
  | _, [], _ => ⟨[], []⟩
  | offset, s :: strings, [] =>
    let rest := interpolateAt (offset + s.length) strings []
    ⟨s.toList ++ rest.text, rest.values⟩
  | offset, s :: strings, v :: values =>
    let offset := offset + s.length
    if isAnchoring v then
      let rest := interpolateAt offset strings values
      ⟨s.toList ++ rest.text, ⟨offset, v⟩ :: rest.values⟩
    else
      let rest := interpolateAt (offset + v.plain.length) strings values
      ⟨s.toList ++ (v.plain.toList ++ rest.text), rest.values⟩

/-- Texts with values between them: the value of a number stands after the text of that number. -/
def interpolate (strings : List String) (values : List Value) : Source :=
  interpolateAt 0 strings values

/-- A mixed list as texts with values between them: neighbouring texts are one text, and there is
a text, maybe empty, on both sides of each value. -/
def splitParts : List Value → List String × List Value
  | [] => ([""], [])
  | .text s :: parts =>
    match splitParts parts with
    | ([], values) => ([s], values)
    | (next :: strings, values) => ((s ++ next) :: strings, values)
  | v :: parts =>
    let (strings, values) := splitParts parts
    ("" :: strings, v :: values)

/-- The source of a spec given as a text, a mixture or a list. -/
def Source.of : Value → Except Fault Source
  | .text s => .ok ⟨s.toList, []⟩
  | .mixture strings values => .ok (interpolate strings values)
  | .list parts | .tuple parts =>
    let (strings, values) := splitParts parts
    .ok (interpolate strings values)
  | .bytes b =>
    let (strings, values) := splitParts (b.map fun byte => .int byte.toNat)
    .ok (interpolate strings values)
  | v => .error (.type (.notSource v))

/-! ## Places in a source -/

/-- The text in front of an offset. -/
def before (text : List Char) (index : Nat) : List Char := text.take index

/-- The number of the line of an offset, counted from zero. -/
def lineNumber (text : List Char) (index : Nat) : Nat := (before text index).count '\n'

/-- The offset at which the line of an offset starts. -/
def lineStart (text : List Char) (index : Nat) : Nat :=
  let line := (before text index).reverse.takeWhile (· != '\n')
  (before text index).length - line.length

/-- The line and the column of an offset of a source. -/
def placeAt (text : List Char) (file : Option String) (index : Nat) : Place :=
  { Place.inFile file with
    line := some (lineNumber text index)
    column := some ((index : Int) - lineStart text index) }

/-! ## Labels -/

/-- The label that a value stands for: a text or a whole number. -/
def toLabel : Value → Except Fault String
  | .text s => .ok s
  | .int n => .ok (toString n)
  | v => .error (.badLabel v)

end HotSpec.Spec
