import HotSpec.Proofs.Expectation.Flush

/-!
# Expectations are asserted once, in order

The queue of pending expectations belongs to the whole run: commands that assert what is pending may
be nested, run at the same time, or be given up because of a failure that a script catches.  None of
this takes a label out of turn.

Main result:

- Theorem `pending_fifo`: the labels that a run takes from the queue, at every point of the run.
-/

namespace HotSpec

variable {setup : TestSetup} {g : Generator} {m : Machine}

/-- At every point of a run, either the environment has not started anew yet and nothing was taken,
or the labels that were taken and those that are pending are those that were expected when it had, in
their order, unless what was pending was dropped.  A write or an assertion that fails leaves its
label taken, and all that is pending in place; once a command has dropped what was pending, no label
is taken any more; and a run phase that ends without a failure after the page was ready, and without
such a command, has taken all of them. -/
theorem pending_fifo (h : setup.Reaches g m) :
    (m.world.openings = [] ∧ m.world.popped = [] ∧ m.world.session.pending = none) ∨
      ∃ labels, setup.Opens g labels m ∧ m.world.openings = [labels] ∧ labels.Nodup ∧
        (∃ rest, labels = m.world.popped ++ rest ∧
          (m.world.session.pending = none ∨ m.world.session.pendingLabels = some rest)) ∧
        (∀ t fault f stack label m',
          m.current = some (t, .outcome (.fault fault) (f :: stack)) → f.label? = some label →
            m.step = some m' → label ∈ m.world.popped ∧ m'.world.popped = m.world.popped ∧
              m'.world.session.pending = m.world.session.pending) ∧
        (m.world.discards ≠ [] → ∀ m', m.Steps m' → m'.world.popped = m.world.popped) ∧
        (.passed ∈ m.world.events → .ready ∈ m.world.events → m.world.discards = [] →
          m.world.popped = labels) := by
  rcases h.preparing_or_opened with hprep | ⟨labels, hopens, hopened⟩
  · exact .inl ⟨hprep.openings, hprep.popped, hprep.pending⟩
  · refine .inr ⟨labels, hopens, hopened.openings, hopened.nodup, hopened.queue, ?_, ?_, ?_⟩
    · intro t fault f stack label m' hcurrent hlabel hstep
      have hmem : f ∈ f :: stack := List.mem_cons_self ..
      have htaken := h.taken t _ (Machine.frames_current hcurrent) f hmem label hlabel
      have hqueue := h.sound.queue_of_fault hcurrent hstep
      exact ⟨htaken, hqueue.popped, hqueue.pending⟩
    · intro hdiscards m' hsteps
      exact h.popped_of_discards hdiscards hsteps
    · intro hpassed hready hdiscards
      exact h.popped_of_passed hopens hpassed hready hdiscards

/-- A script with three labels, where the assertion of the first one asserts the second one too. -/
def nestedScript : Script :=
  let ask (r : Request) : Instr := .ask r false none
  let idle : Value := .callback ⟨"idle", [], none, none, .nothing⟩
  [ask (.hook false (.text "a") (.routine ⟨"step", [ask (.change (.text "b"))], .nothing⟩)),
    ask (.hook false (.text "b") idle), ask (.hook false (.text "c") idle), ask .debug]

/-- A run with nested commands that has passed has taken all labels, in their order. -/
theorem pending_fifo_nested : TestSetup.plain.Opens ⟨"script", .nothing, .before 0 nestedScript⟩
    ["a", "b", "c"] (TestSetup.plainRun nestedScript 90) ∧
      (TestSetup.plainRun nestedScript 90).world.popped = ["a", "b", "c"] := by
  have hopenings : (TestSetup.plainRun nestedScript 90).world.openings = [["a", "b", "c"]] := by
    decide +kernel
  have hpassed : .passed ∈ (TestSetup.plainRun nestedScript 90).world.events := by
    obtain ⟨e, he, heq⟩ := List.any_eq_true.mp
      (show (TestSetup.plainRun nestedScript 90).world.events.any (· matches .passed) = true by
        decide +kernel)
    cases e <;> first | exact he | cases heq
  have hready : .ready ∈ (TestSetup.plainRun nestedScript 90).world.events := by
    obtain ⟨e, he, heq⟩ := List.any_eq_true.mp
      (show (TestSetup.plainRun nestedScript 90).world.events.any (· matches .ready) = true by
        decide +kernel)
    cases e <;> first | exact he | cases heq
  have hdiscards : (TestSetup.plainRun nestedScript 90).world.discards = [] := by
    refine List.isEmpty_iff.mp ?_
    decide +kernel
  rcases pending_fifo (TestSetup.reaches_plainRun nestedScript 90) with
    ⟨hnone, -, -⟩ | ⟨labels, hopens, hlabels, -, -, -, -, hall⟩
  · rw [hopenings] at hnone
    cases hnone
  · rw [hopenings] at hlabels
    cases hlabels
    exact ⟨hopens, hall hpassed hready hdiscards⟩

end HotSpec
