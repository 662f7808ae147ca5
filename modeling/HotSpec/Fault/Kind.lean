/-!
# Kinds of faults

The kinds of faults that a script can raise and catch, and the names under which reports show
them.  The kinds of the test engine itself share a family: whatever raises one of them has
already said what went wrong, so they pass through unchanged where other faults are wrapped.
-/

namespace HotSpec

/-- The kind of a fault. -/
inductive FaultKind
  | engine
  | plugin
  | compile
  | grammar
  | usage
  | environment
  | console
  | page
  | failure
  | assertion
  | type
  | value
  | key
  | attribute
  | runtime
  | timeout
  | validation
  | settings
  | other (name : String)
  deriving Repr, DecidableEq, Inhabited

namespace FaultKind

/-- The kinds with a fixed name. -/
def named : List (FaultKind × String) := [
  (.engine, "HMRError"), (.plugin, "PluginError"), (.compile, "SpecCompileError"),
  (.grammar, "SpecSyntaxError"), (.usage, "UsageError"), (.environment, "HMREnvironmentError"),
  (.console, "ConsoleError"), (.page, "PageError"), (.failure, "FailError"),
  (.assertion, "AssertionError"), (.type, "TypeError"), (.value, "ValueError"),
  (.key, "KeyError"), (.attribute, "AttributeError"), (.runtime, "RuntimeError"),
  (.timeout, "TimeoutError"), (.validation, "ValidationError"), (.settings, "SettingsError")]

/-- The name shown in reports. -/
def name (kind : FaultKind) : String :=
  match kind with
  | .other name => name
  | kind => (named.lookup kind).getD ""

/-- The kind that a name stands for. -/
def ofName (name : String) : FaultKind :=
  match named.find? fun row => row.2 == name with
  | some row => row.1
  | none => .other name

/-- The kinds of the test engine. -/
def isEngine : FaultKind → Bool
  | .engine | .plugin | .compile | .grammar | .usage | .environment | .console | .page
  | .failure => true
  | _ => false

end FaultKind

/-- A fault given by a script or an environment: a kind and a text. -/
structure GivenFault where
  kind : FaultKind
  message : String
  deriving Repr, DecidableEq, Inhabited

end HotSpec
