import HotSpec.Checked
import HotSpec.Value.Display
import HotSpec.Text.Letters
import HotSpec.Text.Blank

/-!
# Values read as data

How loosely a value may stand for a text, a number or a flag where a record asks for one, and the
fields of records.

Main definitions:

- `Value.toText?`, `Value.toInt?`, `Value.toFloat?`, `Value.toFlag?`: the readings.
- `Value.toItems?`, `Value.toFields?`: the items of a list and the rows of a dictionary.
- `Fields`: named fields of a record that is being checked.
-/

namespace HotSpec

namespace Value

/-! ## Readings -/

/-- A value as a text. -/
def toText? : Value → Option String
  | .text s => some s
  | .bytes b => String.fromUTF8? ⟨b.toArray⟩
  | _ => none

/-- The words for a flag. -/
def flagWords : List (String × Bool) :=
  ["1", "true", "t", "yes", "y", "on"].map (·, true) ++
    ["0", "false", "f", "no", "n", "off"].map (·, false)

/-- A text as a flag. -/
def flagOf? (text : String) : Option Bool :=
  flagWords.lookup (String.ofList (text.toList.map Text.lower))

/-- A value as a flag. -/
def toFlag? : Value → Option Bool
  | .bool b => some b
  | .int n => if n = 0 then some false else if n = 1 then some true else none
  | .float x => if x == 0.0 then some false else if x == 1.0 then some true else none
  | v => v.toText?.bind flagOf?

/-- The words for numbers that have no digits. -/
def numberWords : List (String × Float) :=
  [("inf", 1.0 / 0.0), ("infinity", 1.0 / 0.0), ("nan", 0.0 / 0.0)]

/-- A text as a number: digits or a word. -/
def numberOf? (text : String) : Option Float :=
  let chars := Text.trim text.toList
  let (negative, word) := Decimal.takeSign chars
  match numberWords.lookup (String.ofList (word.map Text.lower)) with
  | some x => some (if negative then -x else x)
  | none => Decimal.readNumber? chars

/-- A value as a number. -/
def toFloat? : Value → Option Float
  | .float x => some x
  | .int n => some (Float.ofInt n)
  | .bool b => some (if b then 1.0 else 0.0)
  | v => v.toText?.bind numberOf?

/-- A text as a whole number; a fraction of zeros is left out. -/
def wholeOfText? (text : String) : Option Int :=
  let chars := Text.trim text.toList
  let (whole, rest) := chars.span (· != '.')
  match rest with
  | [] => Decimal.readInt? whole
  | _ :: zeros => if zeros.all (· == '0') then Decimal.readInt? whole else none

/-- A value as a whole number. -/
def toInt? : Value → Option Int
  | .int n => some n
  | .bool b => some (if b then 1 else 0)
  | .float x => wholeOf? x
  | v => v.toText?.bind wholeOfText?

/-- A value as a list of items. -/
def toItems? : Value → Option (List Value)
  | .list items | .tuple items | .set items => some items
  | .mixture strings values => some [.list (strings.map .text), .list values]
  | _ => none

/-- The row of a dictionary under a text. -/
def toField? : Value × Value → Option (String × Value)
  | (key, value) => key.toText?.map (·, value)

/-- A dictionary as rows under texts. -/
def toFields? : Value → Option (List (String × Value))
  | .dict rows => rows.mapM toField?
  | _ => none

end Value

/-! ## Records -/

/-- Named fields of a record. -/
abbrev Fields := List (String × Value)

namespace Fields

/-- A field that is there and is not nothing. -/
def get? (fields : Fields) (name : String) : Option Value :=
  match fields.lookup name with
  | some .nothing => none
  | value => value

/-- Whether all fields have one of some names. -/
def within (fields : Fields) (names : List String) : Bool :=
  fields.all fun field => names.contains field.1

/-- Refuse fields with other names than those of a record. -/
def only (fields : Fields) (names : List String) : Checked Unit :=
  if fields.within names then .ok () else Checked.refuse

end Fields

end HotSpec
