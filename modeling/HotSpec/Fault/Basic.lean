import HotSpec.Fault.Place

/-!
# Faults

Everything that can go wrong, by cause.  A cause holds what its text speaks of; the wording is in
one function per family of causes, and `Fault.kind` says under which name a report shows it.

Main definitions:

- `SpecCause`, `UsageCause`, `PluginCause`, `TypeCause`: the families with several causes.
- `Fault`, `Fault.kind`, `Fault.text`: faults, their kinds and their full texts.
-/

namespace HotSpec

/-! ## Specs -/

/-- Why a spec is refused. -/
inductive SpecCause
  | noTitle
  | noHeader
  | fileAfterExpectations
  | repeatedExpectations
  | unclosedBlock (label : String)
  | strayCloser
  | valueOutside
  | tooManyHooks
  | tooManyBlocks
  | functionInBlock
  | ignoredHtml (label : String)
  | noAssertions (title : Option String)
  deriving Repr, DecidableEq

namespace SpecCause

/-- The causes found while reading lines, before anything is compiled. -/
def isGrammar : SpecCause → Bool
  | .noTitle | .noHeader | .fileAfterExpectations | .repeatedExpectations | .unclosedBlock _
  | .strayCloser => true
  | _ => false

/-- The text of a cause. -/
def message : SpecCause → String
  | .noTitle => "Expected a \"# Title\" line"
  | .noHeader => "Expected a file header (\"---- path ----\")"
  | .fileAfterExpectations => "File sections must precede the expectations"
  | .repeatedExpectations => "Duplicated expectations section"
  | .unclosedBlock label => "Unclosed condition block " ++ Text.quoted label
  | .strayCloser => "Unexpected block closer"
  | .valueOutside => "Sub handler must be inside an assertion condition"
  | .tooManyHooks => "Only two root level hooks are allowed (before and after)"
  | .tooManyBlocks => "Only a single condition block can have sub steps"
  | .functionInBlock =>
    "Plain functions are not allowed in a condition block (use a generator function to make a step)"
  | .ignoredHtml label =>
    "Condition " ++ Text.quoted label ++
      " has HTML lines but no HTML step: its HTML expectations would be ignored"
  | .noAssertions title => "Spec " ++ (Value.ofText? title).shown ++ " has no assertions"

end SpecCause

/-! ## Usage -/

/-- What a script did at the wrong time or with the wrong thing. -/
inductive UsageCause
  | notCommand (value : Value)
  | unknownCommand (type : String)
  | beforeLoadOnly (type : String)
  | alreadyStarted
  | initOrder (expected found : String)
  | repeatedInit (previous : String)
  | noExpectation
  | badExpectation (type : String)
  | notSub (value : Value)
  | notScript (value : Value)
  | badWait (operand : Value)
  | noAttribute (path : List String)
  | notFunction (path : List String)
  | badPattern (pattern : Value)
  | monitorAttached
  | noEnvironment

namespace UsageCause

/-- The text of a cause. -/
def message : UsageCause → String
  | .notCommand v => v.shown ++ " is not a command"
  | .unknownCommand type => "Missing command: " ++ type
  | .beforeLoadOnly type =>
    "Command " ++ Text.quoted type ++ " is only available before the page is loaded"
  | .alreadyStarted => "The run phase is already started"
  | .initOrder expected found =>
    s!"Must init with first step (expected: {expected}, found: {found})"
  | .repeatedInit previous => s!"init with a spec label (previous: {previous})"
  | .noExpectation => "spec.expect requires an expectation"
  | .badExpectation type => s!"Invalid expect argument ({type})"
  | .notSub v => v.shown ++ " is not a sub"
  | .notScript v => v.shown ++ " is not a generator function"
  | .badWait v => "Unsupported wait operand: " ++ v.shown
  | .noAttribute path => ".".intercalate ("page" :: path) ++ " does not exist"
  | .notFunction path =>
    -- a call of the page itself shows an empty path after the dot
    "page." ++ ".".intercalate path ++
      " is not a function: the call must have exactly 0 arguments to retrieve the object instance"
  | .badPattern v => "Invalid pattern: " ++ v.shown
  | .monitorAttached => "Console monitor already attached to a page"
  | .noEnvironment =>
    "No HMR environment: use --hmr-environment or implement the pytest_hmr_environment hook"

end UsageCause

/-! ## Plugins -/

/-- Why a plugin or a handler is not registered as it is. -/
inductive PluginCause
  | shadowing (command origin : String)
  | invalid (entry : String)
  | broken (entry : String)
  | notPlugin (entry : String)
  deriving Repr, DecidableEq

/-- The text of a cause. -/
def PluginCause.message : PluginCause → String
  | .shadowing command origin =>
    s!"Command {Text.quoted command} from {Text.quoted origin} is shadowing an existing"
  | .invalid entry => s!"Failed to validate entrypoint {Text.quoted entry}"
  | .broken entry => s!"Failed to load entrypoint {Text.quoted entry}"
  | .notPlugin entry => s!"Loaded from entrypoint {Text.quoted entry} object is not a plugin"

/-! ## Types -/

/-- A value of the wrong type where no rule of the engine speaks of it. -/
inductive TypeCause
  | notMatcher (value : Value)
  | notNormalizable (value : Value)
  | notSource (value : Value)
  | missingArgument (function : String)
  | notComparable (type : String)
  | notIterable (type : String)
  | notCallable (type : String)
  | notAddable (type other : String)

namespace TypeCause

/-- The text of a cause. -/
def message : TypeCause → String
  | .notMatcher v => v.shown ++ " is not an HTML matcher"
  | .notNormalizable v => v.shown ++ " is not normalizable"
  | .notSource v => v.shown ++ " is not a spec source"
  | .missingArgument function => function ++ "() missing 1 required positional argument: 'value'"
  | .notIterable type => Text.quoted type ++ " object is not iterable"
  | .notCallable type => Text.quoted type ++ " object is not callable"
  | .notAddable type other =>
    "unsupported operand type(s) for +: " ++ Text.quoted type ++ " and " ++ Text.quoted other
  | .notComparable type => "'>' not supported between instances of 'int' and " ++ Text.quoted type

end TypeCause

/-! ## Console and page -/

/-- A console message of the page. -/
structure ConsoleMessage where
  type : String
  text : String
  deriving Repr, DecidableEq, Inhabited

/-- The three letters that show the type of a message. -/
def shortType (type : String) : String :=
  if type = "error" then "ERR"
  else if type = "warning" then "WRN"
  else String.ofList ((type.toList.take 3).flatMap Text.upper)

/-- The line that shows a message. -/
def ConsoleMessage.line (m : ConsoleMessage) : String := shortType m.type ++ " " ++ m.text

/-! ## Faults -/

/-- What the engine asked the environment for. -/
inductive EnvironmentTask
  | update
  | reset
  deriving Repr, DecidableEq

/-- Faults, by cause. -/
inductive Fault
  /-- Rendered HTML that is not as expected. -/
  | mismatch (cause : Html.Mismatch)
  /-- An expectation that failed, for a reason given as text. -/
  | expectation (title : Option String) (reason : String) (place : Place)
  /-- A value that a script wanted to be another one. -/
  | unwanted (found wanted : Value)
  /-- A spec that is refused, at a place where one can be given. -/
  | spec (cause : SpecCause) (place : Option Place)
  /-- Data that does not fit its record, with the reasons that the record's own rules give. -/
  | invalid (reasons : List String)
  /-- A misuse of the engine. -/
  | usage (cause : UsageCause)
  /-- A plugin that is refused. -/
  | plugin (cause : PluginCause)
  /-- A value of the wrong type. -/
  | type (cause : TypeCause)
  /-- A value that cannot be a label. -/
  | badLabel (value : Value)
  /-- A command that is not a number, where only numbers can be worked with. -/
  | notNumber (shown : String)
  /-- An attribute that cannot be read. -/
  | noAttribute (text : String)
  /-- A failure of the environment. -/
  | environment (task : EnvironmentTask) (reason : String) (place : Place)
  /-- Unexpected output of the console, of an error or else of a warning. -/
  | console (error : Bool) (messages : List ConsoleMessage)
  /-- An uncaught error of the page. -/
  | page (message : String)
  /-- A failure signalled by the test. -/
  | failure (message : String)
  /-- A console message that did not come in time. -/
  | noMessage
  /-- A fault given by a script or the environment. -/
  | given (given : GivenFault)
  /-- A fault of a given kind at a given place. -/
  | placed (kind : FaultKind) (message : String) (place : Option Place)

instance : Inhabited Fault := ⟨.noMessage⟩

namespace Fault

/-- The kind of a fault. -/
def kind : Fault → FaultKind
  | .mismatch _ | .expectation .. | .unwanted .. => .assertion
  | .spec cause _ => if cause.isGrammar then .grammar else .compile
  | .invalid _ => .validation
  | .usage _ => .usage
  | .plugin _ => .plugin
  | .type _ => .type
  | .badLabel _ | .notNumber _ => .value
  | .noAttribute _ => .attribute
  | .environment .. => .environment
  | .console .. => .console
  | .page _ => .page
  | .failure _ => .failure
  | .noMessage => .timeout
  | .given g => g.kind
  | .placed kind .. => kind

/-- The texts of distinct reasons in order, joined. -/
def joinReasons (reasons : List String) : String :=
  "; ".intercalate (reasons.mergeSort (· ≤ ·)).eraseDups

/-- The full text of a fault. -/
def text : Fault → String
  | .mismatch cause => cause.message
  | .expectation title reason place =>
    let named := match title with
      | some title => if title = "" then "" else " (" ++ title ++ ")"
      | none => ""
    withPlace ("Expectation failed" ++ named ++ ": " ++ reason) (some place)
  | .unwanted found wanted => found.shown ++ " is not " ++ wanted.shown
  | .spec cause place => withPlace cause.message place
  | .invalid reasons => joinReasons reasons
  | .usage cause => cause.message
  | .plugin cause => cause.message
  | .type cause => cause.message
  | .badLabel v => v.shown ++ " can not be used as a condition label"
  | .notNumber shown => shown ++ " is not a number"
  | .noAttribute text => text
  | .environment task reason place =>
    let what := match task with
      | .update => "Failed to update files: "
      | .reset => "Failed to reset sources: "
    withPlace (what ++ reason) (some place)
  | .console error messages =>
    let what := if error then "Unexpected console error: " else "Unexpected console warning: "
    what ++ "\n\n" ++ "\n".intercalate (messages.map ConsoleMessage.line)
  | .page message => message
  | .failure message => message
  | .noMessage => "Console message not found before timeout"
  | .given g => g.text
  | .placed _ message place => withPlace message place

/-- A fault of the engine, which has already said what went wrong. -/
def isEngine (fault : Fault) : Bool := fault.kind.isEngine

end Fault

end HotSpec
