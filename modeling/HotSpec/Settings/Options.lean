import HotSpec.Settings.Basic

/-!
# Options of a test session

The options that a test session takes on top of its settings.

Main definitions:

- `SessionOption`, `sessionOptions`: the options, in order.
- `SessionSetup.ofOptions`: what a session is set up with.
-/

namespace HotSpec

/-- An option of a test session: a flag, or an option with a value. -/
structure SessionOption where
  flag : String
  name : String
  value : Option String
  default : Value
  purpose : String
  deriving Inhabited

namespace SessionOption

/-- How an option is taken: its value is stored, or the fact that it is there. -/
def action (o : SessionOption) : String := if o.value.isSome then "store" else "store_true"

end SessionOption

/-- The name and the description of the group of options. -/
def optionGroup : String × String := ("hmr", "hot module replacement tests")

/-- The options of a test session. -/
def sessionOptions : List SessionOption := [
  ⟨"--hmr-environment", "hmr_environment", some "MODULE:FACTORY", .nothing,
    "Import path of a callable receiving the HMR settings and returning the live environment."⟩,
  ⟨"--hmr-app-root", "hmr_app_root", some "SELECTOR", .nothing,
    "Selector of the element whose HTML is asserted."⟩,
  ⟨"--hmr-console", "hmr_console", none, .nothing,
    "Log every console message of the page under test."⟩,
  ⟨"--hmr-relaxed", "hmr_relaxed", none, .bool false,
    "Disable strict plugin loading. Shadowed commands and third-party plugin loading errors will only emit warnings."⟩]

/-- What a test session is set up with. -/
structure SessionSetup where
  settings : Settings
  strictRegistry : Bool
  deriving Inhabited

/-- The setup of a session with its options, variables and the text of the settings file. -/
def SessionSetup.ofOptions (options : Fields) (vars : List (String × String))
    (file : Option String) : Except Fault SessionSetup :=
  (Settings.ofOptions options vars file).map fun settings => ⟨settings, settings.strict⟩

/-- The fault of a session without a live environment. -/
def noEnvironment : Fault := .usage .noEnvironment

end HotSpec
