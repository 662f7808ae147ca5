import HotSpec.Engine.Call

/-!
# Scripts that go on

A script runs until it yields something, and goes on with the reply.  Between two yields it does not
wait for anything.

Main definitions:

- `Advance`: what the resumption of a script comes to.
- `World.follow`: the instructions of a script from one on.
- `World.advance`: a script resumed with a reply.
-/

namespace HotSpec

/-- What the resumption of a script comes to. -/
inductive Advance
  | yields (y : Yielded)
  | ends (reply : Reply)
  deriving Inhabited

namespace World

/-- Set where a script stands. -/
def setProgress (w : World) (g : Nat) (p : Progress) : World :=
  match w.generators[g]? with
  | some generator =>
    { w with generators := w.generators.set g { generator with progress := p } }
  | none => w

/-- A script comes to its end. -/
def endScript (w : World) (g : Nat) (reply : Reply) : Advance × World :=
  (.ends reply, w.setProgress g .ended)

/-- The name of an instruction. -/
def placeName (name : String) (index : Nat) : String := s!"{name}[{index}]"

/-- Log a fault that a script has caught. -/
def logCaught (w : World) (name : String) (index : Nat) (f : Fault) : World :=
  w.record (.log (.caught (placeName name index) f w.session.pendingLabels))

/-- Log the answer to an instruction. -/
def logResult (w : World) (name : String) (index : Nat) (v : Value) : World :=
  w.record (.log (.result (placeName name index) v w.session.pendingLabels))

/-- Follow the instructions of a script up to the next thing that it yields. -/
def follow (g : Nat) (name : String) (answer : Value) : Nat → Script → World → Advance × World
  | _, [], w =>
    let (reply, w) := (Engine.make answer.make).exec w
    w.endScript g reply
  | index, .act action :: rest, w =>
    match (Engine.act action).exec w with
    | (.error fault, w) => w.endScript g (.error fault)
    | (.ok (), w) => follow g name answer (index + 1) rest w
  | _, .stop value :: _, w =>
    let (reply, w) := (Engine.make value.make).exec w
    w.endScript g reply
  | index, .ask request caught wanted :: rest, w =>
    match (Engine.make request.build).exec w with
    | (.error fault, w) =>
      if caught then follow g name answer (index + 1) rest (w.logCaught name index fault)
      else w.endScript g (.error fault)
    | (.ok y, w) =>
      (.yields y, (w.setProgress g (.waiting index caught wanted rest)).record (.yielded g y))

/-- Whether a value is not the wanted one, where one is wanted. -/
def unwanted? (v : Value) (wanted : Option Value) : Option Fault :=
  match wanted with
  | none => none
  | some other => if v.same other then none else some (.unwanted v other)

/-- Resume a script with a reply.  A script that has not begun takes no value, and one that has
ended has no more to say. -/
def advance (w : World) (g : Nat) (reply : Reply) : Advance × World :=
  match w.generators[g]? with
  | none => (.ends reply, w)
  | some ⟨name, answer, progress⟩ =>
    match progress, reply with
    | .ended, .ok _ => (.ends (.ok .nothing), w)
    | .ended, .error fault => (.ends (.error fault), w)
    | .before .., .error fault => w.endScript g (.error fault)
    | .before index rest, .ok _ => follow g name answer index rest w
    | .commands _, .error fault => w.endScript g (.error fault)
    | .commands [], .ok _ => w.endScript g (.ok .nothing)
    | .commands (c :: rest), .ok _ =>
      (.yields (.command c), (w.setProgress g (.commands rest)).record (.yielded g (.command c)))
    | .waiting index caught _ rest, .error fault =>
      if caught then follow g name answer (index + 1) rest (w.logCaught name index fault)
      else w.endScript g (.error fault)
    | .waiting index _ wanted rest, .ok v =>
      let w := w.logResult name index v
      match unwanted? v wanted with
      | some fault => w.endScript g (.error fault)
      | none => follow g name answer (index + 1) rest w

end World

end HotSpec
