import HotSpec.Fault.Basic
import HotSpec.Spec.Compile
import HotSpec.Value.Conversion

/-!
# Steps given as values

A test script gives the steps of an expectation as values: HTML as a text or a list of texts and
patterns, a routine or another callable value, or a record that names the kind of step.

Main definitions:

- `Expected.ofValue`, `normalExpectation`: expected HTML given as a value.
- `Step.ofFields`: a step given as a record.
- `Step.ofExpectation`: the step that any value asks for, with its HTML in normal form.
-/

namespace HotSpec

open Html (Token Expected)

/-! ## Expected HTML -/

namespace Html

/-- A token given as a value. -/
def Token.ofValue : Value → Except Fault Token
  | .text s => .ok (.literal s)
  | .regex r => .ok (.pattern r)
  | v => .error (.type (.notMatcher v))

/-- Expected HTML given as a value. -/
def Expected.ofValue : Value → Except Fault Expected
  | .text s => .ok (.exact s)
  | .list items | .tuple items => (items.mapM Token.ofValue).map .tokens
  | .mixture strings values =>
    ([.list (strings.map .text), .list values].mapM Token.ofValue).map .tokens
  | v => .error (.type (.notNormalizable v))

/-- Expected HTML given as a value, in normal form. -/
def normalExpectation (v : Value) : Except Fault Expected :=
  (Expected.ofValue v).map Expected.normal

/-- Lines of tokens given as values, as expected HTML. -/
def expectationOfLines (lines : List (List Value)) : Except Fault Expected :=
  (lines.mapM (List.mapM Token.ofValue)).map Expected.ofLines

end Html

/-! ## Records -/

/-- A value as a token of a record: a text is a literal. -/
def Value.toToken? : Value → Option Token
  | .regex r => some (.pattern r)
  | v => v.toText?.map .literal

/-- A value as the HTML of a record. -/
def Value.toExpected? (v : Value) : Option Expected :=
  match v.toText? with
  | some s => some (.exact s)
  | none => (v.toItems?.bind fun items => items.mapM Value.toToken?).map .tokens

/-- A value as something that a hook or a step can run. -/
def Value.toSubHandler? : Value → Option Value
  | .set items => some (.list items)
  | v => if v.isSubHandler then some v else none

/-- A value as something that can be called. -/
def Value.toCallable? (v : Value) : Option Value := if v.isCallable then some v else none

namespace Step

/-- The variants of a step, by name. -/
def variants : List (String × (Value → Option Step)) := [
  ("html", fun v => v.toExpected?.map .html),
  ("sub", fun v => v.toSubHandler?.map .sub),
  ("function", fun v => v.toCallable?.map .function)]

/-- Why a step without exactly one variant is refused. -/
def variantReason (names : List String) : String :=
  "a step must have exactly one of html, sub or function (got [" ++
    commas (names.map Text.quoted) ++ "])"

/-- The step of a record: one of the variants has to be given. -/
def ofFields (fields : Fields) : Checked Step := do
  let given := variants.filterMap fun (name, read) =>
    (fields.get? name).map fun v => (name, Checked.ofOption (read v))
  let (_, steps) ← Checked.both (fields.only (variants.map Prod.fst))
    (Checked.all (given.map Prod.snd))
  match steps with
  | [step] => .ok step
  | _ => .error [variantReason (given.map Prod.fst)]

/-- A step with its HTML in normal form. -/
def normal : Step → Step
  | .html expected => .html expected.normal
  | step => step

end Step

/-- A hook of an expectation, if one is given. -/
def hookOf (v : Value) : Checked (Option Value) :=
  match v with
  | .nothing => .ok none
  | v => (Checked.ofOption v.toSubHandler?).map some

/-- The expectation of its parts: a title, two hooks, and the records of its steps. -/
def Expectation.ofParts (title : Option String) (before after : Value) (steps : List Fields) :
    Checked Expectation :=
  (Checked.both (Checked.both (hookOf before) (hookOf after))
    (Checked.all (steps.map Step.ofFields))).map fun ((before, after), steps) =>
      ⟨title, before, after, steps⟩

/-- What was made of checked data, or a fault with the reasons for refusing it. -/
def Checked.toExcept {α : Type} : Checked α → Except Fault α
  | .ok a => .ok a
  | .error reasons => .error (.invalid reasons)

/-- The step that a value asks for. -/
def Step.given (v : Value) : Except Fault Step :=
  match v with
  | .step step => .ok step
  | .regex r => .ok (.html (.tokens [.pattern r]))
  | .text _ | .list _ | .tuple _ | .mixture .. =>
    (Checked.ofOption v.toExpected?).toExcept.map .html
  | .dict _ =>
    match v.toFields? with
    | some fields => (Step.ofFields fields).toExcept
    | none => .error (.invalid [])
  | v =>
    if v.isSub then .ok (.sub v)
    else if v.isCallable then .ok (.function v)
    else .error (.usage (.badExpectation v.typeName))

/-- The step that a value asks for, with its HTML in normal form. -/
def Step.ofExpectation (v : Value) : Except Fault Step := (Step.given v).map Step.normal

end HotSpec
