import HotSpec.Value.Basic
import HotSpec.Text.Decimal

/-!
# Values as text

The two texts of a value: `shown`, as it appears inside messages, with quotes around texts; and
`plain`, as it is spliced into a source or a template, where a text stands for itself.  Also when
two values are the same and which values count as empty.
-/

namespace HotSpec

/-- Texts separated by commas. -/
def commas (texts : List String) : String := ", ".intercalate texts

/-- A given fault as it describes itself.  A missing key shows the key in quotes. -/
def GivenFault.text (given : GivenFault) : String :=
  if given.kind = .key then Text.quoted given.message else given.message

namespace Value

/-! ## Shown text -/

mutual

/-- The text of a value inside messages. -/
def shown : Value → String
  | .nothing => "None"
  | .bool b => if b then "True" else "False"
  | .int n => toString n
  | .float x => Decimal.shown.write x
  | .text s => Text.quoted s
  | .bytes b => Text.quotedBytes b
  | .list items => "[" ++ commas (shownList items) ++ "]"
  | .tuple [item] => "(" ++ shown item ++ ",)"
  | .tuple items => "(" ++ commas (shownList items) ++ ")"
  | .set [] => "set()"
  | .set items => "\x7b" ++ commas (shownList items) ++ "\x7d"
  | .dict rows => "\x7b" ++ commas (shownRows rows) ++ "\x7d"
  | .regex r => r.display
  | .removed => "change.rm"
  | .thing => "<opaque>"
  | .fault given => given.kind.name ++ "(" ++ Text.quoted given.message ++ ")"
  | .mixture strings values =>
    "Template(strings=[" ++ commas (strings.map Text.quoted) ++ "], values=[" ++
      commas (shownList values) ++ "])"
  | .callback c => "<function " ++ c.name ++ ">"
  | .asyncCallback c => "<function " ++ c.name ++ ">"
  | .template name _ _ => "<function " ++ name ++ ">"
  | .routine r => "<function " ++ r.name ++ ">"
  | .fresh r => "<generator object " ++ r.name ++ ">"
  | .generator _ name => "<generator object " ++ name ++ ">"
  | .awaitable name => "<coroutine object " ++ name ++ ">"
  | .stepFields fields => "Step(" ++ commas (shownFields fields) ++ ")"
  | .step (.html (.exact s)) =>
    "Step(html=" ++ Text.quoted s ++ ", sub=None, function=None)"
  | .step (.html (.tokens ts)) =>
    "Step(html=[" ++ commas (ts.map fun
      | .literal s => Text.quoted s
      | .pattern r => r.display) ++ "], sub=None, function=None)"
  | .step (.sub v) => "Step(html=None, sub=" ++ shown v ++ ", function=None)"
  | .step (.function v) => "Step(html=None, sub=None, function=" ++ shown v ++ ")"
  | .handlerFields fields => "CommandHandler(" ++ commas (shownFields fields) ++ ")"
  | .handler ⟨name, init, run⟩ =>
    "CommandHandler(name=" ++ Text.quoted name ++ ", init=" ++ shownOption init ++ ", run=" ++
      shownOption run ++ ")"
  | .page => "<FakePage object>"
  | .keyboard => "<FakeKeyboard object>"
  | .session shown => shown

/-- The texts of values. -/
def shownList : List Value → List String
  | [] => []
  | item :: items => shown item :: shownList items

/-- The texts of the rows of a dictionary. -/
def shownRows : List (Value × Value) → List String
  | [] => []
  | (key, value) :: rows => (shown key ++ ": " ++ shown value) :: shownRows rows

/-- The texts of the fields of a record. -/
def shownFields : List (String × Value) → List String
  | [] => []
  | (name, value) :: fields => (name ++ "=" ++ shown value) :: shownFields fields

/-- The text of an optional value. -/
def shownOption : Option Value → String
  | none => "None"
  | some v => shown v

end

/-- The text that a value stands for. -/
def plain : Value → String
  | .text s => s
  | .fault given => given.text
  | v => v.shown

/-! ## Emptiness -/

/-- Whether a value counts as true in a condition: zero, nothing and empty collections do not. -/
def truthy : Value → Bool
  | .nothing => false
  | .bool b => b
  | .int n => n ≠ 0
  | .float x => x != 0.0
  | .text s => s ≠ ""
  | .bytes b => !b.isEmpty
  | .list items | .tuple items | .set items => !items.isEmpty
  | .dict rows => !rows.isEmpty
  | _ => true

/-! ## Sameness -/

/-- The whole number that a double is, if it is one. -/
def wholeOf? (x : Float) : Option Int :=
  let bits := x.toBits
  let magnitude := bits.toNat % Nat.pow 2 63
  if magnitude = 0 then some 0
  else if 0x7ff * Nat.pow 2 52 ≤ magnitude then none
  else
    let b := Decimal.Binary.ofBits bits
    let size := b.mantissa * Nat.pow 2 b.exponent.toNat
    let divisor := Nat.pow 2 (-b.exponent).toNat
    if size % divisor ≠ 0 then none
    else
      let whole : Int := (size / divisor : Nat)
      some (if bits.toNat / Nat.pow 2 63 = 1 then -whole else whole)

/-- A value as a number, if it is one: truth values count as one and zero. -/
def number? : Value → Option (Int ⊕ Float)
  | .bool b => some (.inl (if b then 1 else 0))
  | .int n => some (.inl n)
  | .float x => some (.inr x)
  | _ => none

/-- Whether two numbers are equal. -/
def sameNumber : Int ⊕ Float → Int ⊕ Float → Bool
  | .inl m, .inl n => m == n
  | .inr x, .inr y => x == y
  | .inl m, .inr y => wholeOf? y == some m
  | .inr x, .inl n => wholeOf? x == some n

mutual

/-- Whether two values are equal.  Numbers compare by size, collections by their items; functions
and other things with an identity of their own are never equal to what is written elsewhere. -/
def same : Value → Value → Bool
  | .nothing, .nothing => true
  | .removed, .removed => true
  | .text s, .text t => s == t
  | .bytes b, .bytes c => b == c
  | .regex r, .regex s => r.same s
  | .list a, .list b => sameList a b
  | .tuple a, .tuple b => sameList a b
  | .set a, .set b => a.length == b.length && subsetOf a b
  | .dict a, .dict b => a.length == b.length && rowsIn a b
  | a, b =>
    match a.number?, b.number? with
    | some m, some n => sameNumber m n
    | _, _ => false

/-- Whether two lists have equal items. -/
def sameList : List Value → List Value → Bool
  | [], [] => true
  | a :: as, b :: bs => same a b && sameList as bs
  | _, _ => false

/-- Whether every item of a list equals an item of another. -/
def subsetOf : List Value → List Value → Bool
  | [], _ => true
  | a :: as, bs => bs.any (same a) && subsetOf as bs

/-- Whether every row of a dictionary is a row of another. -/
def rowsIn : List (Value × Value) → List (Value × Value) → Bool
  | [], _ => true
  | (key, value) :: rows, others =>
    others.any (fun other => same key other.1 && same value other.2) && rowsIn rows others

end

/-- Rows with one more: a row of an equal key gets the value of the new one. -/
def putRow (rows : List (Value × Value)) (key value : Value) : List (Value × Value) :=
  match rows with
  | [] => [(key, value)]
  | row :: rest =>
    if row.1.same key then (row.1, value) :: rest else row :: putRow rest key value

/-- The dictionary of some rows: later rows replace earlier ones of an equal key. -/
def ofRows (rows : List (Value × Value)) : Value :=
  .dict (rows.foldl (fun rows row => putRow rows row.1 row.2) [])

end Value

end HotSpec
