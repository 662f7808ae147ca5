import HotSpec.CommandLine.Run

/-!
# The program

The outer layer of the command line: it reads the file that the arguments ask for, writes the
outcome and exits with its code.
-/

namespace HotSpec.CommandLine

/-- What is found under a path of the file system. -/
def findFile (path : String) : IO Found := do
  try
    return .file (← IO.FS.readFile path)
  catch e =>
    match e with
    | .inappropriateType .. => return .directory
    | _ => return .missing

/-- Write an outcome, results to the output and complaints to the error output. -/
def report (outcome : Outcome) : IO UInt32 := do
  if outcome.code = 0 then IO.print outcome.output else IO.eprint outcome.output
  return outcome.code.toUInt32

end HotSpec.CommandLine

open HotSpec.CommandLine in
/-- Run the program with its arguments. -/
def main (args : List String) : IO UInt32 := do
  match plan args with
  | .answer outcome => report outcome
  | .file request => report (request.finish (← findFile request.path))
