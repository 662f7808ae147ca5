import HotSpec.Engine.Run

/-!
# Collected files

Files that hold one full spec each, collected as test cases by their names.

Main definitions:

- `isSpecFile`: whether a file is collected.
- `SpecCase.collect?`: the case of a file.
- `SpecCase.run`: a case, run.
-/

namespace HotSpec

/-- Whether a file is collected by its name: `test_`, at least one character of the first line, and
`.hmr`, perhaps with a line break after it. -/
def isSpecFile (name : String) : Bool :=
  let name := if name.endsWith "\n" then name.toList.dropLast else name.toList
  let start := "test_".toList
  let ending := ".hmr".toList
  start.isPrefixOf name && ending.isSuffixOf name && start.length + ending.length < name.length &&
    !name.contains '\n'

/-- A test case of a file: its title, and its source. -/
structure SpecCase where
  file : String
  title : String
  source : String
  deriving Repr, Inhabited

namespace SpecCase

/-- The case of a file, if it is collected; the file has to begin with a title. -/
def collect? (name content : String) : Option (Except Fault SpecCase) :=
  if !isSpecFile name then none
  else
    let source := Text.unifyBreaks content.toList
    some ((Spec.readTitle source (some name)).map fun title =>
      ⟨name, title, String.ofList source⟩)

/-- Where a case is reported: its file, the number of its line, and a description. -/
def location (c : SpecCase) : String × Nat × String := (c.file, 0, "hmr spec: " ++ c.title)

/-- Run a case. -/
def run (c : SpecCase) (settings : Settings) (environment : Environment) : Report :=
  TestSetup.run ⟨settings, environment, some c.file⟩ (.spec (.text c.source))

end SpecCase

end HotSpec
