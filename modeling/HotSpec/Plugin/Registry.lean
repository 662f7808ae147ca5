import HotSpec.Plugin.Basic
import HotSpec.Table

/-!
# Registry of handlers

Which handler stands for each type of commands.  A handler that takes the place of another one is
refused by a strict registry and noted by any other; so are entry points that yield no plugin.

Main definitions:

- `Registry`: the handlers by type, and the warnings given so far.
- `Registry.add`, `Registry.addPlugin`, `Registry.load`: adding handlers; with the fault, the
  registry is given as it is at that moment.
- `Registry.builtin`: the registry of the built-in commands.
-/

namespace HotSpec

/-- Where a handler comes from, if it was loaded from an entry point. -/
structure EntryPoint where
  name : String
  origin : String
  deriving Repr, DecidableEq, Inhabited

/-- What the loading of an entry point yields. -/
inductive Loaded
  | plugin (plugin : Plugin)
  | other
  | invalid
  | broken
  deriving Inhabited

/-- The phases in which a handler handles its commands. -/
structure Phases where
  init : Bool
  run : Bool
  deriving Repr, DecidableEq, Inhabited

/-- The phases of a handler. -/
def Handler.phases (h : Handler) : Phases := ⟨h.init.isSome, h.run.isSome⟩

/-- Handlers by type of commands, with the warnings given. -/
structure Registry where
  strict : Bool
  handlers : Table Phases
  warnings : List PluginCause
  deriving Repr, Inhabited

namespace Registry

/-- A registry without handlers. -/
def empty (strict : Bool) : Registry := ⟨strict, [], []⟩

/-- The types of commands with a handler, in alphabetical order. -/
def names (r : Registry) : List String := r.handlers.keys.mergeSort (· ≤ ·)

/-- A registry after a step that may be refused. -/
abbrev Step := Registry × Except PluginCause Unit

/-- Report an issue: refuse in a strict registry, give a warning in any other. -/
def report (r : Registry) (cause : PluginCause) : Step :=
  if r.strict then (r, .error cause)
  else ({ r with warnings := r.warnings ++ [cause] }, .ok ())

/-- Set a handler, in the place of another one or in a place of its own. -/
def set (r : Registry) (name : String) (phases : Phases) : Registry :=
  { r with handlers := r.handlers.put name phases }

/-- Add a handler of a given origin. -/
def add (r : Registry) (name : String) (phases : Phases) (origin : String) : Step :=
  if r.handlers.has name then
    match r.report (.shadowing name origin) with
    | (r, .error cause) => (r, .error cause)
    | (r, .ok ()) => (r.set name phases, .ok ())
  else (r.set name phases, .ok ())

/-- Add handlers one after the other, up to the first that is refused. -/
def addAll (r : Registry) (origin : String) : List Handler → Step
  | [] => (r, .ok ())
  | h :: handlers =>
    match r.add h.name h.phases origin with
    | (r, .error cause) => (r, .error cause)
    | (r, .ok ()) => addAll r origin handlers

/-- Add the handlers of a plugin. -/
def addPlugin (r : Registry) (plugin : Plugin) (entry : Option EntryPoint) : Step :=
  let origin := match entry with
    | some e => e.origin
    | none => plugin.name
  r.addAll origin plugin.handlers

/-- Where handlers are declared that come neither from an entry point nor from a named module. -/
def declared : String := "pytest_hmr.extensions"

/-- Add a single handler. -/
def addHandler (r : Registry) (h : Handler) (entry : Option EntryPoint) (origin : Option String) :
    Step :=
  let named := match origin with
    | some "" => declared
    | some name => name
    | none => declared
  r.add h.name h.phases (match entry with
    | some e => e.origin
    | none => named)

/-- Add what an entry point yields. -/
def loadEntry (r : Registry) (entry : EntryPoint) : Loaded → Step
  | .plugin plugin => r.addPlugin plugin (some entry)
  | .other => r.report (.notPlugin entry.name)
  | .invalid => r.report (.invalid entry.name)
  | .broken => r.report (.broken entry.name)

/-- Add what entry points yield, up to the first that is refused. -/
def load (r : Registry) : List (EntryPoint × Loaded) → Step
  | [] => (r, .ok ())
  | (entry, loaded) :: entries =>
    match r.loadEntry entry loaded with
    | (r, .error cause) => (r, .error cause)
    | (r, .ok ()) => load r entries

/-- Add plugins, up to the first that is refused. -/
def addPlugins (r : Registry) : List Plugin → Step
  | [] => (r, .ok ())
  | plugin :: plugins =>
    match r.addPlugin plugin none with
    | (r, .error cause) => (r, .error cause)
    | (r, .ok ()) => addPlugins r plugins

/-- The built-in commands with the phases that handle them. -/
def builtinPhases : Table Phases := [
  ("spec", ⟨true, false⟩), ("$$set_spec", ⟨true, false⟩), ("spec.expect", ⟨true, false⟩),
  ("spec.before", ⟨true, false⟩), ("spec.after", ⟨true, false⟩), ("spec.flush", ⟨false, true⟩),
  ("spec.discard", ⟨false, true⟩), ("init", ⟨true, false⟩), ("templates", ⟨true, true⟩),
  ("change", ⟨false, true⟩), ("page", ⟨false, true⟩), ("inner_text", ⟨false, true⟩),
  ("before_load", ⟨true, false⟩), ("effect", ⟨false, true⟩), ("debug", ⟨true, true⟩),
  ("wait", ⟨true, true⟩), ("cons.ignore_warnings", ⟨true, true⟩),
  ("cons.ignore_errors", ⟨true, true⟩), ("cons.wait", ⟨false, true⟩)]

/-- The registry of the built-in commands. -/
def builtin (strict : Bool) : Registry := ⟨strict, builtinPhases, []⟩

/-- The phases of a type of commands. -/
def get (r : Registry) (name : String) : Except Fault Phases :=
  match r.handlers.get? name with
  | some phases => .ok phases
  | none => .error (.usage (.unknownCommand name))

end Registry

end HotSpec
