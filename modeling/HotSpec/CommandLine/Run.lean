import HotSpec.CommandLine.Arguments
import HotSpec.Spec.Dump

/-!
# Runs of the program

What the program does with its arguments: some are answered at once, others ask for a file first.

Main definitions:

- `plan`: what arguments ask for.
- `FileTask.finish`: how a run ends once the file is known.
- `runIn`: a run among given files.
-/

namespace HotSpec.CommandLine

open HotSpec.Text (quoted)

/-! ## Plans -/

/-- A request for a file. -/
structure FileTask where
  task : Task
  inline : Bool
  path : String
  others : List String
  deriving Repr, Inhabited

/-- What arguments ask for: an answer, or a file first. -/
inductive Plan
  | answer (outcome : Outcome)
  | file (request : FileTask)
  deriving Inhabited

/-- What the arguments of a command ask for. -/
def planTask (task : Task) (args : List String) : Plan :=
  match Arguments.read (helpFlag.1 :: task.flags.keys) true args with
  | .error misread => .answer (task.help.misuse task.fullName misread.message)
  | .ok ⟨flags, positional⟩ =>
    if flags.contains helpFlag.1 then .answer ⟨0, task.help.text⟩
    else
      match positional with
      | [] => .answer (task.help.misuse task.fullName "Missing argument 'SPEC'.")
      | path :: others => .file ⟨task, flags.contains "--inline", path, others⟩

/-- What the arguments of the program ask for. -/
def plan (args : List String) : Plan :=
  let misuse (message : String) : Plan := .answer (programHelp.misuse program message)
  if args.isEmpty then .answer ⟨2, programHelp.text⟩
  else
    match Arguments.read [helpFlag.1] false args with
    | .error misread => misuse misread.message
    | .ok ⟨flags, positional⟩ =>
      if flags.contains helpFlag.1 then .answer ⟨0, programHelp.text⟩
      else
        match positional with
        | [] => misuse "Missing command."
        | name :: rest =>
          match Task.all.find? fun task => task.name == name with
          | some task => planTask task rest
          | none => misuse ("No such command " ++ quoted name ++ ".")

/-! ## Files -/

/-- What is found under a path. -/
inductive Found
  | file (content : String)
  | directory
  | missing
  deriving Repr, Inhabited

/-- The parts of a path that lead somewhere. -/
def pathParts (path : String) : List String :=
  ((Text.splitOn '/' path.toList).map String.ofList).filter fun part => part ≠ "" && part ≠ "."

/-- A path without the parts that lead nowhere. -/
def cleanPath (path : String) : String :=
  (if path.startsWith "/" then "/" else "") ++ "/".intercalate (pathParts path)

/-- What is found under a path in a directory that holds files only. -/
def lookUp (files : Table String) (path : String) : Found :=
  if path = "" then .missing
  else if (pathParts path).all (· == "..") then .directory
  else
    match files.get? (cleanPath path) with
    | some content => if path.endsWith "/" || path.endsWith "/." then .missing else .file content
    | none => .missing

/-! ## Ends -/

/-- The end of a run that a fault ends. -/
def failure (fault : Fault) : Outcome := ⟨1, "Error: " ++ fault.text ++ "\n"⟩

/-- What is written about the content of a file. -/
def FileTask.write (r : FileTask) (content : String) : Except Fault String :=
  let name := cleanPath r.path
  let source := Text.unifyBreaks content.toList
  match r.task with
  | .compile => (Spec.compile ⟨source, []⟩ (!r.inline) (some name)).map CompiledSpec.document
  | .title => (Spec.readTitle source (some name)).map (· ++ "\n")

/-- Why positional arguments are too many. -/
def extraMessage (others : List String) : String :=
  (if others.length = 1 then "Got unexpected extra argument (" else
    "Got unexpected extra arguments (") ++ " ".intercalate others ++ ")"

/-- The end of a run once the file is known. -/
def FileTask.finish (r : FileTask) (found : Found) : Outcome :=
  let misuse (message : String) : Outcome := r.task.help.misuse r.task.fullName message
  let invalid (what : String) : Outcome :=
    misuse ("Invalid value for 'SPEC': File " ++ quoted r.path ++ what)
  match found with
  | .missing => invalid " does not exist."
  | .directory => invalid " is a directory."
  | .file content =>
    if !r.others.isEmpty then misuse (extraMessage r.others)
    else
      match r.write content with
      | .ok output => ⟨0, output⟩
      | .error fault => failure fault

/-- A run of the program in a directory that holds some files. -/
def runIn (files : Table String) (args : List String) : Outcome :=
  match plan args with
  | .answer outcome => outcome
  | .file request => request.finish (lookUp files request.path)

end HotSpec.CommandLine
