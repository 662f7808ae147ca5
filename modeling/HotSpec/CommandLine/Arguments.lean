import HotSpec.Table
import HotSpec.Text.Quoted

/-!
# Arguments of the command line

The commands of the program, how they describe themselves, and how arguments are read: flags start
with dashes, two dashes alone end the flags, and what remains are positional arguments.

Main definitions:

- `Task`: what a command does.
- `Help`: the description of a command.
- `Arguments.read`: arguments divided into flags and positional ones.
-/

namespace HotSpec.CommandLine

/-- How a run of the program ends: with an exit code and the text written. -/
structure Outcome where
  code : Nat
  output : String
  deriving Repr, DecidableEq, Inhabited

/-! ## Descriptions -/

/-- The name of the program. -/
def program : String := "cli"

/-- The description of a command: what it is called with, what it does, and lists of named things
with their meanings. -/
structure Help where
  usage : String
  purpose : String
  flags : Table String
  commands : Table String
  deriving Repr, Inhabited

/-- The flag that asks for a description. -/
def helpFlag : String × String := ("--help", "Show this message and exit.")

namespace Help

/-- Names with their meanings in two columns under a heading. -/
def columns (heading : String) (rows : Table String) : String :=
  if rows.isEmpty then ""
  else
    let width := (rows.map fun row => row.1.length).foldl max 0
    let line (row : String × String) : String :=
      "  " ++ row.1 ++ "".pushn ' ' (width - row.1.length + 2) ++ row.2 ++ "\n"
    "\n" ++ heading ++ ":\n" ++ String.join (rows.map line)

/-- The description as it is written. -/
def text (h : Help) : String :=
  "Usage: " ++ h.usage ++ "\n\n  " ++ h.purpose ++ "\n" ++
    columns "Options" (h.flags ++ [helpFlag]) ++ columns "Commands" h.commands

/-- A misuse of a command: how it is called, where more is said, and what was wrong. -/
def misuse (h : Help) (name message : String) : Outcome :=
  ⟨2, "Usage: " ++ h.usage ++ "\nTry '" ++ name ++ " --help' for help.\n\nError: " ++ message ++ "\n"⟩

end Help

/-! ## Commands -/

/-- What a command does with a spec file. -/
inductive Task
  | compile
  | title
  deriving Repr, DecidableEq, Inhabited

namespace Task

/-- All commands. -/
def all : List Task := [.compile, .title]

/-- The name of a command. -/
def name : Task → String
  | .compile => "compile"
  | .title => "title"

/-- What a command does, in a sentence. -/
def purpose : Task → String
  | .compile => "Compile a spec file and print the result as YAML."
  | .title => "Print the title of a spec file."

/-- The flags of a command. -/
def flags : Task → Table String
  | .compile => [("--inline", "Compile an inline spec, without title.")]
  | .title => []

/-- The command with the program in front of it. -/
def fullName (task : Task) : String := program ++ " " ++ task.name

/-- The description of a command. -/
def help (task : Task) : Help :=
  ⟨task.fullName ++ " [OPTIONS] SPEC", task.purpose, task.flags, []⟩

end Task

/-- The description of the program. -/
def programHelp : Help :=
  ⟨program ++ " [OPTIONS] COMMAND [ARGS]...", "Command-line utilities to inspect HMR spec files.",
    [], Task.all.map fun task => (task.name, task.purpose)⟩

/-! ## Reading -/

/-- Arguments divided into flags and positional ones. -/
structure Arguments where
  flags : List String
  positional : List String
  deriving Repr, Inhabited

/-- Why arguments are not understood. -/
inductive Misread
  | unknownFlag (name : String)
  | flagWithValue (name : String)
  deriving Repr, DecidableEq

/-- The text of a misreading. -/
def Misread.message : Misread → String
  | .unknownFlag name => "No such option " ++ Text.quoted name ++ "."
  | .flagWithValue name => "Option " ++ Text.quoted name ++ " does not take a value."

namespace Arguments

/-- Whether an argument is written as a flag. -/
def isFlag (arg : String) : Bool := arg.startsWith "-" && 1 < arg.length

/-- The flag that an argument names, among known flags. -/
def flagOf (known : List String) (arg : String) : Except Misread String :=
  let (name, value) := arg.toList.span (· != '=')
  let name := String.ofList name
  if known.contains name then
    if value.isEmpty then .ok name else .error (.flagWithValue name)
  else if arg.startsWith "--" then .error (.unknownFlag name)
  else .error (.unknownFlag (String.ofList (arg.toList.take 2)))

/-- Divide arguments.  If `mixed` is not set, the first positional argument ends the flags. -/
def read (known : List String) (mixed : Bool) : List String → Except Misread Arguments
  | [] => .ok ⟨[], []⟩
  | "--" :: rest => .ok ⟨[], rest⟩
  | arg :: rest =>
    if isFlag arg then do
      let flag ← flagOf known arg
      let others ← read known mixed rest
      return { others with flags := flag :: others.flags }
    else if mixed then do
      let others ← read known mixed rest
      return { others with positional := arg :: others.positional }
    else .ok ⟨[], arg :: rest⟩

end Arguments

end HotSpec.CommandLine
