import HotSpec.Spec.Step
import HotSpec.Yaml.Reader

/-!
# Settings

The settings of a test run.  Each of them comes from the first source that has it: values given
outright, variables of the environment, the settings file, and what holds where nothing is said.

Main definitions:

- `Settings`, `Settings.standard`: the settings and what they are by themselves.
- `Settings.resolve`: the settings of the three sources.
- `Settings.ofOptions`: the settings of a test session with its options.
-/

namespace HotSpec

/-- The settings of a test run. -/
structure Settings where
  environment : Option String
  pageUrl : String
  appRoot : String
  appPrefix : Option String
  focus : String
  console : Bool
  bufferDelay : Float
  strict : Bool
  deriving Inhabited

namespace Settings

/-- The settings where nothing is said. -/
def standard : Settings := ⟨none, "/", "#app", none, "[data-focus]", false, 0.01, true⟩

/-- What variables of the environment start with. -/
def variableStart : String := "hmr_"

/-- The names of the settings. -/
def names : List String := [
  "environment", "page_url", "app_root_selector", "app_html_prefix", "focus_selector", "console",
  "console_buffer_delay", "strict"]

/-! ## Sources -/

/-- The value of a setting among variables, whose names are read in any case. -/
def fromVariables (vars : List (String × String)) (name : String) : Option Value :=
  let lower (s : String) : String := String.ofList (s.toList.map Text.lower)
  (vars.reverse.find? fun row => lower row.1 == variableStart ++ name).map fun row =>
    .text row.2

/-- Data of a settings file as a value; collections are of no use to any setting. -/
def ofData : Yaml.Data → Value
  | .null => .nothing
  | .bool b => .bool b
  | .int n => .int n
  | .float x => .float x
  | .text s => .text s
  | .binary bytes => .bytes bytes
  | .seq _ | .map _ => .list []

/-- The value of a setting in the first source that has it. -/
def find? (given : Fields) (vars : List (String × String)) (file : Table Yaml.Data)
    (name : String) : Option Value :=
  given.lookup name <|> fromVariables vars name <|> (file.get? name).map ofData

/-! ## Checks -/

/-- A text, or nothing where nothing is given. -/
def optionalText : Value → Checked (Option String)
  | .nothing => .ok none
  | v => (Checked.ofOption v.toText?).map some

/-- A number of seconds. -/
def seconds (v : Value) : Checked Float :=
  match v.toFloat? with
  | some x => if x < 0.0 then Checked.refuse else .ok x
  | none => Checked.refuse

/-- The settings of found values. -/
def check (found : String → Option Value) : Checked Settings := do
  let get {α : Type} (name : String) (read : Value → Checked α) (missing : α) : Checked α :=
    ((found name).map read).getD (.ok missing)
  let text (v : Value) : Checked String := Checked.ofOption v.toText?
  let flag (v : Value) : Checked Bool := Checked.ofOption v.toFlag?
  let environment ← get "environment" optionalText standard.environment
  let pageUrl ← get "page_url" text standard.pageUrl
  let appRoot ← get "app_root_selector" text standard.appRoot
  let appPrefix ← get "app_html_prefix" optionalText standard.appPrefix
  let focus ← get "focus_selector" text standard.focus
  let console ← get "console" flag standard.console
  let bufferDelay ← get "console_buffer_delay" seconds standard.bufferDelay
  let strict ← get "strict" flag standard.strict
  return ⟨environment, pageUrl, appRoot, appPrefix, focus, console, bufferDelay, strict⟩

/-- The settings of values given outright, variables and the text of the settings file, if there
is one. -/
def resolve (given : Fields) (vars : List (String × String)) (file : Option String) :
    Except Fault Settings :=
  let entries := (file.map Yaml.readEntries).getD []
  (check (find? given vars entries)).toExcept

/-! ## Options of a test session -/

/-- The values that options give outright; the option for relaxed loading turns strictness off. -/
def givenByOptions (options : Fields) : Fields :=
  let value (name option : String) : Fields :=
    match Fields.get? options option with
    | some v => [(name, v)]
    | none => []
  value "environment" "hmr_environment" ++ value "app_root_selector" "hmr_app_root" ++
    value "console" "hmr_console" ++
    (if ((Fields.get? options "hmr_relaxed").getD (.bool false)).truthy then
      [("strict", .bool false)] else [])

/-- The settings of a test session. -/
def ofOptions (options : Fields) (vars : List (String × String)) (file : Option String) :
    Except Fault Settings := resolve (givenByOptions options) vars file

end Settings

end HotSpec
