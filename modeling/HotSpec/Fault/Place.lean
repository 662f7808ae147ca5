import HotSpec.Value.Display
import HotSpec.Text.Blank
import HotSpec.Yaml.Document

/-!
# Places of faults

Where a fault happened and what it was about: the name of the source, a line and a column, the
label and the step of an expectation, and a value shown as a snippet of data.

Main definitions:

- `Place.location`, `Place.snippet`: the two parts of the text of a place.
- `withPlace`: a message followed by its place.
-/

namespace HotSpec

/-! ## Values as data -/

mutual

/-- A value as data: patterns between slashes, keys as texts, and a placeholder for whatever data
cannot hold. -/
def Value.toData : Value → Yaml.Data
  | .nothing => .null
  | .bool b => .bool b
  | .int n => .int n
  | .float x => .float x
  | .text s => .text s
  | .bytes b => .binary b
  | .regex r => .text ("/" ++ r.source ++ "/")
  | .dict rows => .map (Table.ofRows (rowsToData rows))
  | .list items => .seq (itemsToData items)
  | .tuple items => .seq (itemsToData items)
  | .set items => .seq (itemsToData items)
  | .mixture strings values =>
    .seq [.seq (strings.map Yaml.Data.text), .seq (itemsToData values)]
  | _ => .text "<runtime object>"

/-- Items as data. -/
def itemsToData : List Value → List Yaml.Data
  | [] => []
  | item :: items => item.toData :: itemsToData items

/-- The rows of a dictionary as data. -/
def rowsToData : List (Value × Value) → List (String × Yaml.Data)
  | [] => []
  | (key, value) :: rows => (key.plain, value.toData) :: rowsToData rows

end

/-! ## Places -/

/-- Where a fault happened.  Lines and columns count from zero. -/
structure Place where
  file : Option String
  line : Option Int
  column : Option Int
  label : Option Value
  step : Option Value
  kind : Option String
  element : Value
  deriving Inhabited

namespace Place

/-- A place of which nothing but the source is known. -/
def inFile (file : Option String) : Place := ⟨file, none, none, none, none, none, .nothing⟩

/-- The name shown for a source, also for one without a name. -/
def shownFile (p : Place) : String :=
  match p.file with
  | some name => if name = "" then "<inline spec>" else name
  | none => "<inline spec>"

/-- The lines that say where: the source with line and column, then the label with step and
kind. -/
def location (p : Place) (indent : String) : String :=
  let column := match p.column with
    | some column => s!", column {column + 1}"
    | none => ""
  let line := match p.line with
    | some line => s!", line {line + 1}" ++ column
    | none => ""
  let step := match p.step with
    | some step => ", step " ++ step.plain
    | none => ""
  let kind := match p.kind with
    | some kind => if kind = "" then "" else " (" ++ kind ++ ")"
    | none => ""
  let label := match p.label with
    | some label => indent ++ "after update " ++ label.shown ++ step ++ kind ++ "\n"
    | none => ""
  indent ++ "in \"" ++ p.shownFile ++ "\"" ++ line ++ "\n" ++ label

/-- A document with every line indented and blank lines left out. -/
def indented (document indent : String) : String :=
  if indent = "" then document
  else
    let lines := (Text.lines document.toList).filter fun line => !Text.blank line
    "\n".intercalate (lines.map fun line => indent ++ String.ofList line)

/-- The snippet that shows the value a fault is about. -/
def snippet (p : Place) (indent : String) : String :=
  match p.element with
  | .nothing => ""
  | element => indent ++ " ...\n" ++ indented element.toData.document indent ++ "\n"

end Place

/-- A message followed by its place. -/
def withPlace (message : String) : Option Place → String
  | none => message
  | some place => message ++ "\n" ++ place.location "    " ++ place.snippet "        "

end HotSpec
