import HotSpec.Proofs.Script.Drivers
import HotSpec.Proofs.Script.Unstopped

/-!
# Smooth tests

In a smooth test nothing but its script decides what is said: the environment starts anew and loads the
page as it should, the initial label is met, and nobody but the two phases runs the script.

Main definitions:

- `TestSetup.Smooth`: smooth tests.
- `Machine.runsSmooth`: whether a run that ends shows that its test is smooth.
- `Starting`: what a page begins with, and where the talk stands then.

Main results:

- Theorem `smooth_of_runsSmooth`: whether a test that ends is smooth can be seen by running it.
- Theorem `Sound.started`: only the start of the second phase starts it.
-/

namespace HotSpec

/-! ## Tests -/

/-- Whether an event is the hand-over of the page. -/
def Event.isReady : Event → Bool
  | .ready => true
  | _ => false

/-- A test whose script has what it says resolved by the two phases and by nothing else, in an
environment that does its part: the page is handed over once, and does not fail the test. -/
structure TestSetup.Smooth (setup : TestSetup) (g : Generator) : Prop where
  /-- The environment starts anew. -/
  resets : ∀ m, setup.Reaches g m → ∀ t o first rest,
    m.current = some (t, .outcome o (.reset first :: rest)) → o.isValue = true
  /-- A page is handed over before its load ends. -/
  loads : ∀ m, setup.Reaches g m → ∀ t o rest,
    m.current = some (t, .outcome o (.unloaded :: rest)) → .ready ∈ m.world.events
  /-- The initial label, if there is one, is the first pending one. -/
  checks : ∀ m, setup.Reaches g m → ∀ t first rest label,
    m.current = some (t, .work (.inPage first) rest) → m.world.session.initLabel = some label →
      (m.world.session.ensureFirst label).2 = .ok ()
  /-- Its expectation is met. -/
  opens : ∀ m, setup.Reaches g m → ∀ t o first rest,
    m.current = some (t, .outcome o (.opened first :: rest)) → o.isValue = true
  /-- The page does not fail the test. -/
  fine : ∀ m, setup.Reaches g m → ¬m.world.Failed
  /-- The script is nobody's sub: a value as it is written holds no run that has begun, and runs that
  begin later have numbers of their own. -/
  alone : ∀ m, setup.Reaches g m → ∀ t p number name rest,
    m.current = some (t, .work (.sub p (.generator number name)) rest) → number ≠ scriptNumber

/-! ## Runs that end -/

/-- Whether a task is at nothing that a smooth test does not come to. -/
def Machine.fares (m : Machine) : Bool :=
  match m.current with
  | some (_, .outcome o (.reset _ :: _)) => o.isValue
  | some (_, .outcome _ (.unloaded :: _)) => m.world.events.any Event.isReady
  | some (_, .work (.inPage _) _) =>
    m.world.session.initLabel.all fun label => (m.world.session.ensureFirst label).2.isOk
  | some (_, .outcome o (.opened _ :: _)) => o.isValue
  | some (_, .work (.sub _ (.generator number _)) _) => number != scriptNumber
  | _ => true

/-- Whether a machine comes to its end within some steps, and to nothing on the way that a smooth test
does not come to. -/
def Machine.runsSmooth : (steps : Nat) → Machine → Bool
  | 0, _ => false
  | steps + 1, m =>
    m.fares && !(m.world.verdict.toList ++ m.world.failSignal.toList).any m.world.scheduler.faulted &&
      match m.step with
      | none => true
      | some m => runsSmooth steps m

/-- What a run that ends comes to is all that can be reached. -/
theorem Machine.fares_of_runsSmooth {steps : Nat} {m m' : Machine} (h : runsSmooth steps m = true)
    (hsteps : m.Steps m') : m'.fares = true ∧ ¬m'.world.Failed := by
  induction steps generalizing m with
  | zero => cases h
  | succ steps ih =>
      simp only [runsSmooth, Bool.and_eq_true] at h
      obtain ⟨⟨hfares, hfailed⟩, hrest⟩ := h
      rcases Relation.ReflTransGen.cases_head hsteps with rfl | ⟨m₁, hstep, hsteps⟩
      · refine ⟨hfares, ?_⟩
        rintro ⟨f, hf, hfaulted⟩
        have hmem : f ∈ m.world.verdict.toList ++ m.world.failSignal.toList := by
          rcases hf with hf | hf <;> simp [hf]
        have hany := List.any_eq_true.mpr ⟨f, hmem, hfaulted⟩
        simp [hany] at hfailed
      · rw [show m.step = some m₁ from hstep] at hrest
        exact ih hrest hsteps

/-- Whether a test that ends is smooth can be seen by running it. -/
theorem TestSetup.smooth_of_runsSmooth {setup : TestSetup} {g : Generator} {steps : Nat}
    (h : (setup.machine g).runsSmooth steps = true) : setup.Smooth g := by
  have hfares (m : Machine) (hreach : setup.Reaches g m) : m.fares = true :=
    (Machine.fares_of_runsSmooth h hreach).1
  constructor
  · intro m hreach t o first rest hcurrent
    simpa [Machine.fares, hcurrent] using hfares m hreach
  · intro m hreach t o rest hcurrent
    have hready := hfares m hreach
    simp only [Machine.fares, hcurrent, List.any_eq_true] at hready
    obtain ⟨e, he, hready⟩ := hready
    cases e with
    | ready => exact he
    | _ => cases hready
  · intro m hreach t first rest label hcurrent hlabel
    have hok := hfares m hreach
    simp only [Machine.fares, hcurrent, hlabel, Option.all_some] at hok
    cases hcheck : (m.world.session.ensureFirst label).2 with
    | ok => rfl
    | error fault =>
        rw [hcheck] at hok
        cases hok
  · intro m hreach t o first rest hcurrent
    simpa [Machine.fares, hcurrent] using hfares m hreach
  · exact fun m hreach => (Machine.fares_of_runsSmooth h hreach).2
  · intro m hreach t p number name rest hcurrent
    simpa [Machine.fares, hcurrent] using hfares m hreach

/-! ## What a test keeps -/

/-- A rule that does not start the second phase leaves it at that. -/
theorem Rule.started {head : Head} {w w' : World} {turn : Turn} (h : Rule head w turn w')
    (hhead : ∀ first, head ≠ .work (.start first)) : w'.session.started = w.session.started := by
  cases h with
  | asks h =>
      cases h with
      | together hsubs hrun =>
          rw [World.spawnAll_world hrun]
          rfl
      | start => exact absurd rfl (hhead _)
      | _ => rfl
  | reply r hhead h => exact h.steady.session.started
  | pass hf h => exact h.steady.session.started
  | call hcall h => exact h.steady.session.started
  | resume h => exact h.steady.session.started
  | answered r hp hy hc h => exact h.steady.session.started
  | commanded hp hy hcall h => exact h.steady.session.started
  | load h => exact h.steady.session.started
  | @raced o => cases o <;> rfl
  | _ => rfl

/-- Only the start of the second phase starts it. -/
theorem Machine.Sound.started {m m' : Machine} (hm : m.Sound) (hstep : m.step = some m')
    (hnot : ∀ t first rest, m.current ≠ some (t, .work (.start first) rest)) :
    m'.world.session.started = m.world.session.started := by
  rcases hm.moves_or_rests hstep with ⟨t, head, stack, turn, new, w', hmoves⟩ | hrests
  · rw [hmoves.session]
    refine hmoves.rule.started ?_
    rintro first rfl
    exact hnot t first stack hmoves.current
  · exact hrests.session.started

/-! ## The beginning of a page -/

/-- What a page begins with, what is done after it, and where the talk stands: a command has asked for
the second phase, or the script is over. -/
inductive Starting (r : Registry) : Option Command → List Frame → Talk → Prop
  | asked {y c} (hy : y.toCommand = .ok c) (hc : r.Moves c) :
      Starting r (some c) [.answer (.phase .prepare) scriptNumber, .prepared] (.asked .prepare y)
  | gone {v} : Starting r none [.forget] (.gone (.ok v))

theorem Starting.resuming {r : Registry} {first : Option Command} {rest : List Frame} {talk : Talk}
    (h : Starting r first rest talk) : Resuming rest := by
  cases h with
  | asked => exact .inr rfl
  | gone => exact .inl rfl

end HotSpec
