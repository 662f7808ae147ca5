import HotSpec.Engine.Run
import HotSpec.Proofs.Engine.Steps
import HotSpec.Proofs.Scheduler.Signals

/-!
# Machines that can be reached

Main definitions:

- `Machine.Steps`, `Machine.after`: a machine after any number of steps, or after a given one.
- `World.Fresh`, `World.Runs`: a world in which nothing has happened yet, and the machines that a piece
  of work leads to in it.
- `TestSetup.machine`: the machine at the start of a test.

Main results:

- Theorem `Steps.invariant`: what every step keeps holds of all that can be reached.
- Theorems `steps_runTask`, `steps_settle`: a run ends at a machine that can be reached.
-/

namespace HotSpec

namespace Machine

/-- A machine after any number of steps. -/
def Steps : Machine → Machine → Prop := Relation.ReflTransGen fun m m' => m.step = some m'

theorem Steps.refl (m : Machine) : m.Steps m := Relation.ReflTransGen.refl

theorem Steps.trans {m₁ m₂ m₃ : Machine} (h₁ : m₁.Steps m₂) (h₂ : m₂.Steps m₃) : m₁.Steps m₃ :=
  Relation.ReflTransGen.trans h₁ h₂

theorem Steps.single {m m' : Machine} (h : m.step = some m') : m.Steps m' :=
  Relation.ReflTransGen.single h

/-- What every step keeps holds of all that can be reached. -/
theorem Steps.invariant {P : Machine → Prop} {m m' : Machine} (h : m.Steps m') (hm : P m)
    (hstep : ∀ m m', m.step = some m' → P m → P m') : P m' := by
  induction h with
  | refl => exact hm
  | tail _ hlast ih => exact hstep _ _ hlast ih

/-- A machine after a number of steps, or at the point where nothing is left to happen. -/
def after : Nat → Machine → Machine
  | 0, m => m
  | n + 1, m =>
    match m.step with
    | none => m
    | some m => after n m

theorem steps_after (n : Nat) (m : Machine) : m.Steps (after n m) := by
  induction n generalizing m with
  | zero => exact .refl m
  | succ n ih =>
      unfold after
      cases hstep : m.step with
      | none => exact .refl m
      | some m' => exact (Steps.single hstep).trans (ih m')

theorem after_add (n k : Nat) (m : Machine) : after (n + k) m = after k (after n m) := by
  induction n generalizing m with
  | zero => rw [Nat.zero_add]; rfl
  | succ n ih =>
      rw [Nat.succ_add]
      cases hstep : m.step with
      | none =>
          have hstay (k : Nat) : after k m = m := by
            cases k with
            | zero => rfl
            | succ k => rw [after, hstep]
          rw [hstay, hstay, hstay]
      | some m₁ =>
          rw [after, after, hstep]
          exact ih m₁

/-- A step at the present time is a step. -/
theorem step_of_stepNow {m m' : Machine} (h : m.stepNow = some m') : m.step = some m' := by
  unfold stepNow at h
  unfold step
  split at h
  · exact h
  · obtain ⟨⟨handle, scheduler⟩, hnext, heq⟩ := Option.map_eq_some_iff.mp h
    unfold Scheduler.next
    rw [hnext]
    exact congrArg some heq

/-- A run up to the end of a task ends at a machine that can be reached, between two turns. -/
theorem steps_runTask {f : FutureId} {steps : Nat} {m : Machine} {o : Outcome} {w : World}
    (h : runTask f steps m = .done o w) :
    m.Steps ⟨w, none⟩ ∧ w.scheduler.outcome? f = some o := by
  induction steps generalizing m with
  | zero => cases h
  | succ steps ih =>
      unfold runTask at h
      split at h
      · next o' hcurrent houtcome =>
          cases h
          obtain ⟨w, current⟩ := m
          cases hcurrent
          exact ⟨.refl _, houtcome⟩
      · split at h
        · cases h
        · next m' hstep =>
            obtain ⟨hsteps, houtcome⟩ := ih h
            exact ⟨(Steps.single hstep).trans hsteps, houtcome⟩

/-- What is left to happen at the present time leads to a machine that can be reached. -/
theorem steps_settle (steps : Nat) (m : Machine) :
    ∃ m', m.Steps m' ∧ m'.world = settle steps m := by
  induction steps generalizing m with
  | zero => exact ⟨m, .refl m, rfl⟩
  | succ steps ih =>
      unfold settle
      split
      · exact ⟨m, .refl m, rfl⟩
      · next m' hstep =>
          obtain ⟨m'', hsteps, hworld⟩ := ih m'
          exact ⟨m'', (Steps.single (step_of_stepNow hstep)).trans hsteps, hworld⟩

end Machine

namespace World

/-- A world in which nothing has happened yet, though scripts may have begun. -/
structure Fresh (w : World) : Prop where
  scheduler : w.scheduler = .empty
  verdict : w.verdict = none
  failSignal : w.failSignal = none
  waits : w.waits = []

/-- Whether a machine can be reached by a piece of work that is run in a fresh world. -/
structure Runs (w : World) (work : Work) (m : Machine) : Prop where
  fresh : w.Fresh
  steps : (Machine.ofWork w work).2.Steps m

variable {w : World} {work : Work} {m m' : Machine}

theorem fresh_start (environment : Environment) (session : Session) :
    (start environment session).Fresh := ⟨rfl, rfl, rfl, rfl⟩

theorem Fresh.runs (h : w.Fresh) (work : Work) : w.Runs work (Machine.ofWork w work).2 := ⟨h, .refl _⟩

theorem Runs.trans (h : w.Runs work m) (hsteps : m.Steps m') : w.Runs work m' :=
  ⟨h.fresh, h.steps.trans hsteps⟩

/-- A machine that can be reached is the one at the beginning, or a step leads to it. -/
theorem Runs.cases_last (h : w.Runs work m) :
    m = (Machine.ofWork w work).2 ∨ ∃ m₀, w.Runs work m₀ ∧ m₀.step = some m := by
  rcases h.steps.cases_tail with heq | ⟨m₀, hsteps, hstep⟩
  · exact .inl heq
  · exact .inr ⟨m₀, ⟨h.fresh, hsteps⟩, hstep⟩

/-- What holds at the beginning and is kept by every step holds of all that can be reached. -/
theorem Runs.invariant {P : Machine → Prop} (h : w.Runs work m) (hfirst : P (Machine.ofWork w work).2)
    (hstep : ∀ m m', w.Runs work m → m.step = some m' → P m → P m') : P m := by
  obtain ⟨hfresh, hsteps⟩ := h
  induction hsteps with
  | refl => exact hfirst
  | tail hbefore hlast ih => exact hstep _ _ ⟨hfresh, hbefore⟩ hlast ih

end World

namespace TestSetup

/-- The machine at the start of a test. -/
def machine (setup : TestSetup) (g : Generator) : Machine :=
  (Machine.ofWork { setup.world with generators := [g] } .script).2

/-- Whether a machine can be reached in a test of a script. -/
def Reaches (setup : TestSetup) (g : Generator) (m : Machine) : Prop := (setup.machine g).Steps m

/-- A test begins in a fresh world. -/
theorem fresh (setup : TestSetup) (g : Generator) :
    ({ setup.world with generators := [g] } : World).Fresh := ⟨rfl, rfl, rfl, rfl⟩

theorem Reaches.runs {setup : TestSetup} {g : Generator} {m : Machine} (h : setup.Reaches g m) :
    ({ setup.world with generators := [g] } : World).Runs .script m := ⟨setup.fresh g, h⟩

/-- A setup in which the page never changes, and nothing takes any time. -/
def plain : TestSetup where
  settings := ⟨none, "/", "#app", none, "", false, 0.0, true⟩
  environment := DevServer.environment
    ⟨"/", [], "#app", [], true, none, [], none, none, none, true, [], true, [], none⟩
  file := none

/-- The machine of a script in a setup where nothing takes any time, after a number of steps. -/
def plainRun (script : Script) (n : Nat) : Machine :=
  Machine.after n (plain.machine ⟨"script", .nothing, .before 0 script⟩)

theorem reaches_plainRun (script : Script) (n : Nat) :
    plain.Reaches ⟨"script", .nothing, .before 0 script⟩ (plainRun script n) :=
  Machine.steps_after n _

theorem steps_plainRun (script : Script) (n k : Nat) :
    (plainRun script n).Steps (plainRun script (n + k)) := by
  have hlater : plainRun script (n + k) = Machine.after k (plainRun script n) :=
    Machine.after_add n k _
  rw [hlater]
  exact Machine.steps_after k _

/-- A run of a script goes on step by step. -/
theorem step_plainRun {script : Script} {n : Nat}
    (h : (plainRun script n).step.isSome = true) :
    (plainRun script n).step = some (plainRun script (n + 1)) := by
  have hafter : plainRun script (n + 1) = Machine.after 1 (plainRun script n) :=
    Machine.after_add n 1 _
  obtain ⟨m, hm⟩ := Option.isSome_iff_exists.mp h
  rw [hafter, Machine.after, hm]
  rfl

end TestSetup

end HotSpec
