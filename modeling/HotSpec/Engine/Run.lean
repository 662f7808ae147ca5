import HotSpec.Engine.Machine

/-!
# Runs

Whole tests, and single pieces of work in a world that is kept between them.

Main definitions:

- `World.execute`: a piece of work, run to its end.
- `TestSetup`, `Subject`: what a test is run with, and what is run.
- `TestSetup.run`: a test, with a report of all that can be seen of it.
-/

namespace HotSpec

/-! ## Pieces of work -/

/-- The steps that a run may take.  A run that ends at all takes far fewer. -/
def stepLimit : Nat := Nat.pow 10 12

/-- How a run ended, as a reply.  A run without an end is a fault of its own. -/
def Machine.Ending.reply : Machine.Ending → Reply × World
  | .done o w => (o.toReply, w)
  | .stuck w => (.error (.given ⟨.runtime, "nothing is left to happen"⟩), w)
  | .exhausted w => (.error (.given ⟨.runtime, "the run does not end"⟩), w)

namespace World

/-- Run a piece of work to its end. -/
def execute (w : World) (work : Work) : Reply × World :=
  let (f, machine) := Machine.ofWork w work
  (Machine.runTask f stepLimit machine).reply

/-- Let happen what is still to happen at the present time. -/
def settleAll (w : World) : World := Machine.settle stepLimit ⟨w, none⟩

/-- Drop the lines of the log so far, and give them. -/
def takeLog (w : World) : List LogEntry × World := (w.log, { w with history := [] })

end World

/-! ## Tests -/

/-- What a test is run with. -/
structure TestSetup where
  settings : Settings
  environment : Environment
  file : Option String
  deriving Inhabited

/-- What a test is run of: a script, or a full spec. -/
inductive Subject
  | script (script : Value)
  | spec (spec : Value)
  deriving Inhabited

/-- All that can be seen of a test: how it ended, its state if it came to have one, the page, and the
log. -/
structure Report where
  outcome : Except Fault Unit
  session : Option Session
  site : Site
  log : List LogEntry
  deriving Inhabited

namespace TestSetup

/-- The state at the start of a test. -/
def session (setup : TestSetup) : Session :=
  .start setup.settings (.builtin true) setup.file

/-- The world at the start of a test. -/
def world (setup : TestSetup) : World := .start setup.environment setup.session

/-- The commands that run a full spec: it is registered, and its first label is the initial one. -/
def specCommands (spec : CompiledSpec) : List Command :=
  .setSpec spec :: (spec.expects.keys.take 1).map fun label => .init (.label label)

/-- The script of a subject. -/
def generatorOf (setup : TestSetup) : Subject → Except Fault Generator
  | .script (.routine r) | .script (.fresh r) => .ok ⟨r.name, r.answer, .before 0 r.script⟩
  | .script v => do throw (.usage (.notScript (← v.made)))
  | .spec v => do
    let v ← v.made
    let spec ← Spec.compileValue v true setup.file
    return ⟨"spec", .nothing, .commands (specCommands spec)⟩

/-- Run a test. -/
def run (setup : TestSetup) (subject : Subject) : Report :=
  match setup.generatorOf subject with
  | .error fault => ⟨.error fault, none, setup.environment.site, []⟩
  | .ok generator =>
    let (reply, w) := { setup.world with generators := [generator] }.execute .script
    ⟨reply.map fun _ => (), some w.session, w.site, w.settleAll.log⟩

end TestSetup

end HotSpec
