import HotSpec.Spec.Compile
import HotSpec.Fault.Place

/-!
# Compiled specs as plain data

A compiled spec written down without the values that plain data cannot hold: patterns stand between
slashes and callables are given by name.

Main definitions:

- `Value.described`, `Expectation.described`, `CompiledSpec.described`: the descriptions.
- `CompiledSpec.document`: the description as a document.
-/

namespace HotSpec

mutual

/-- The description of a value. -/
def Value.described : Value → Value
  | .nothing => .nothing
  | .bool b => .bool b
  | .int n => .int n
  | .float x => .float x
  | .text s => .text s
  | .regex r => .text ("/" ++ r.source ++ "/")
  | .list items => .list (describedItems items)
  | .tuple items => .list (describedItems items)
  | .mixture strings values =>
    .list [.list (strings.map .text), .list (describedItems values)]
  | v => .text ("<" ++ v.name?.getD v.typeName ++ ">")

/-- The descriptions of items. -/
def describedItems : List Value → List Value
  | [] => []
  | item :: items => item.described :: describedItems items

end

/-- The description of a step, under the name of its variant. -/
def Step.described (step : Step) : Value := Value.ofTable [(step.kind, step.content.described)]

/-- The description of an expectation. -/
def Expectation.described (e : Expectation) : Value :=
  let part (name : String) (v : Option Value) : List (String × Value) :=
    match v with
    | some v => [(name, v.described)]
    | none => []
  let title := e.title.filter (· ≠ "")
  Value.ofTable (part "title" (title.map .text) ++ part "before" e.before ++
    [("steps", .list (e.steps.map Step.described))] ++ part "after" e.after)

namespace CompiledSpec

/-- The contents of files as a value. -/
def filesValue (spec : CompiledSpec) : Table Value :=
  spec.files.map fun (path, contents) =>
    (path, Value.ofTable (contents.map fun (label, content) => (label, .text content)))

/-- The descriptions of the expectations. -/
def describedExpects (spec : CompiledSpec) : Table Value :=
  spec.expects.map fun (label, e) => (label, e.described)

/-- The description of a compiled spec. -/
def described (spec : CompiledSpec) : Value :=
  Value.ofTable [("title", Value.ofText? spec.title), ("files", .ofTable spec.filesValue),
    ("expects", .ofTable spec.describedExpects)]

/-- The description of a compiled spec as a document. -/
def document (spec : CompiledSpec) : String := spec.described.toData.document

end CompiledSpec

end HotSpec
