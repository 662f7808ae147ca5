import HotSpec.Proofs.Engine.Subs
import HotSpec.Proofs.Expectation.Elements

/-!
# Bracketing and blame

The assertion of an expectation runs its elements one after the other, each once the one in front of it
has come to a value, and stops at the first that does not.  A failed assertion blames this element; other
faults are passed on as they are.

Main definitions:

- `Machine.marks`, `Machine.Seen`: what is seen at a machine, and in a run.
- `Verifying`: how far an assertion is.
- `Machine.Verifies`: all that is claimed of an assertion.

Main results:

- Theorem `Verifying.step`: a step of a run leaves an assertion at one of its stages.
- Theorem `assertion_verifies`: the elements of an expectation are run in order, and the first failure
  is blamed.
-/

namespace HotSpec

/-! ## What is seen -/

namespace Machine

/-- What is seen of the elements of the expectation that a task asserts in front of a number of frames: an
element begins where its stage is reached, and has ended where the outcome of its sub is taken.  HTML is
compared in one step. -/
def marks (m : Machine) (t : TaskId) (depth : Nat) : List Mark :=
  match m.current with
  | some (u, .work (.verify _ e stage) stack) =>
    if u = t ∧ stack.length = depth then
      match e.element? stage with
      | some (.html expected) =>
        [.began stage, .ended stage (m.world.compare expected).1 (m.world.compare expected).2]
      | some (.run _) => [.began stage]
      | none => []
    else []
  | some (u, .outcome o (.verified _ _ stage :: stack)) =>
    if u = t ∧ stack.length = depth then [.ended stage o none] else []
  | _ => []

/-- A run, until a task has its turn with some frames and nothing in front of them, with all that is seen
on the way. -/
inductive Seen (t : TaskId) (stack : List Frame) (m : Machine) : List Mark → Machine → Prop
  | refl : Seen t stack m [] m
  | step {marks m₁ m₂} (h : Seen t stack m marks m₁) (hnot : ¬m₁.Resumes t stack)
      (hstep : m₁.step = some m₂) : Seen t stack m (marks ++ m₁.marks t stack.length) m₂

variable {m m₁ m₂ : Machine} {t : TaskId} {stack : List Frame} {seen seen' : List Mark}

theorem Seen.steps (h : m.Seen t stack seen m₁) : m.Steps m₁ := by
  induction h with
  | refl => exact .refl m
  | step _ _ hstep ih => exact ih.trans (.single hstep)

/-- Nothing is seen in front of other frames than those of the expectation. -/
theorem marks_eq_nil {above : List Frame} {label : String} {e : Expectation} {stage : Stage}
    (hframes : m.frames t = some (above ++ .verified label e stage :: stack))
    (hnot : ¬m.Resumes t (.verified label e stage :: stack)) : m.marks t stack.length = [] := by
  have hlonger {c : Control} (hcurrent : m.current = some (t, c)) :
      stack.length + 1 < c.frames.length := by
    have heq := Option.some.inj ((frames_current hcurrent).symm.trans hframes)
    cases above with
    | nil => exact absurd ⟨c, hcurrent, heq⟩ hnot
    | cons f above =>
      rw [heq]
      simp only [List.cons_append, List.length_cons, List.length_append]
      omega
  unfold marks
  split
  · next u l e' stage' fs hcurrent =>
    rw [if_neg]
    rintro ⟨rfl, hlength⟩
    have hlt := hlonger hcurrent
    simp only [Control.frames, List.length_cons] at hlt
    omega
  · next u o l e' stage' fs hcurrent =>
    rw [if_neg]
    rintro ⟨rfl, hlength⟩
    have hlt := hlonger hcurrent
    simp only [Control.frames, List.length_cons] at hlt
    omega
  · rfl

end Machine

/-! ## Steps of an assertion -/

namespace Machine

variable {w : World} {t : TaskId} {label : String} {e : Expectation} {stage : Stage}
  {stack : List Frame} {o : Outcome}

/-- What a task is at when an element has passed. -/
def controlAfter (label : String) (e : Expectation) (stage : Stage) (stack : List Frame) : Control :=
  match Move.nextStage e stage with
  | some stage => .work (.verify label e stage) stack
  | none => .outcome .finished stack

theorem follow_afterStage :
    follow t stack (Move.afterStage label e stage) w =
      ⟨w, some (t, controlAfter label e stage stack)⟩ := by
  unfold Move.afterStage controlAfter
  cases Move.nextStage e stage <;> rfl

/-- A stage without an element is passed over. -/
theorem step_verify_none (h : e.element? stage = none) :
    ∃ w', step ⟨w, some (t, .work (.verify label e stage) stack)⟩ =
      some ⟨w', some (t, controlAfter label e stage stack)⟩ := by
  have hrun : ∃ w', (Move.verify label e stage).run w = (Move.afterStage label e stage, w') := by
    cases stage with
    | before =>
      have hhook : e.before = none := by simpa [Expectation.element?] using h
      simp only [Move.verify, hhook, Move.verifySub]
      exact ⟨_, rfl⟩
    | step i =>
      have hstep : e.steps[i]? = none := by simpa [Expectation.element?] using h
      simp only [Move.verify, hstep]
      exact ⟨_, rfl⟩
    | after =>
      have hhook : e.after = none := by simpa [Expectation.element?] using h
      simp only [Move.verify, hhook, Move.verifySub]
      exact ⟨_, rfl⟩
  obtain ⟨w', hrun⟩ := hrun
  refine ⟨w', ?_⟩
  rw [step_work]
  simp only [Work.run, hrun, follow_afterStage]

/-- A sub or a function is run by the processor of the present phase. -/
theorem step_verify_run {v : Value} (h : e.element? stage = some (.run v)) :
    ∃ w', step ⟨w, some (t, .work (.verify label e stage) stack)⟩ =
      some ⟨w', some (t, .work (.sub w'.processor v) (.verified label e stage :: stack))⟩ := by
  have hrun : ∃ w', (Move.verify label e stage).run w =
      (.call (.sub w'.processor v) [.verified label e stage], w') := by
    cases stage with
    | before =>
      have hhook : e.before = some v := by simpa [Expectation.element?] using h
      simp only [Move.verify, hhook, Move.verifySub]
      exact ⟨_, rfl⟩
    | step i =>
      obtain ⟨step, hstep, helement⟩ := Option.map_eq_some_iff.mp h
      cases step with
      | html expected => cases helement
      | sub sub =>
        cases helement
        simp only [Move.verify, hstep, Move.verifySub]
        exact ⟨_, rfl⟩
      | function function =>
        cases helement
        simp only [Move.verify, hstep, Move.verifySub]
        exact ⟨_, rfl⟩
    | after =>
      have hhook : e.after = some v := by simpa [Expectation.element?] using h
      simp only [Move.verify, hhook, Move.verifySub]
      exact ⟨_, rfl⟩
  obtain ⟨w', hrun⟩ := hrun
  refine ⟨w', ?_⟩
  rw [step_work]
  simp only [Work.run, hrun]
  rfl

/-- What a task is at when an element has come to an outcome. -/
def controlOf (w : World) (label : String) (e : Expectation) (stage : Stage) (stack : List Frame)
    (compared : Option (Html.Expected × String)) (o : Outcome) : Control :=
  if o.isValue then controlAfter label e stage stack
  else .outcome (w.blamed label e stage compared o) stack

/-- HTML is compared at once. -/
theorem step_verify_html {expected : Html.Expected} (h : e.element? stage = some (.html expected)) :
    step ⟨w, some (t, .work (.verify label e stage) stack)⟩ =
      some ⟨w, some (t, controlOf w label e stage stack (w.compare expected).2
        (w.compare expected).1)⟩ := by
  obtain ⟨i, rfl⟩ : ∃ i, stage = .step i := by
    cases stage with
    | step i => exact ⟨i, rfl⟩
    | before | after =>
      obtain ⟨v, -, helement⟩ := Option.map_eq_some_iff.mp h
      cases helement
  obtain ⟨step', hstep, helement⟩ := Option.map_eq_some_iff.mp h
  obtain rfl : step' = .html expected := by
    cases step' with
    | html _ => exact congrArg Step.html (Element.html.inj helement)
    | sub | function => cases helement
  have hrun : (Move.verify label e (.step i)).run w =
      ((w.htmlFault? label e (.step i) expected).elim (Move.afterStage label e (.step i)) Turn.fail, w) := by
    simp only [Move.verify, hstep]
    cases hfault : w.htmlFault? label e (.step i) expected <;>
      simp only [StateT.run_bind, StateT.run_get, pure_bind, hfault] <;> rfl
  rw [step_work]
  simp only [Work.run, hrun]
  unfold World.htmlFault? World.compare controlOf
  cases w.rendered with
  | error f =>
    rw [if_neg (by simp [Outcome.isValue])]
    simp only [Option.elim]
    rw [← World.blame_eq]
    rfl
  | ok actual =>
    cases hcheck : expected.check actual with
    | ok =>
      simp only [hcheck, Option.elim]
      rw [if_pos (by rfl), follow_afterStage]
    | error mismatch =>
      simp only [hcheck, Option.elim]
      rw [if_neg (by simp [Outcome.isValue]), ← World.blame_eq]
      rfl

/-- The outcome of a sub or a function is taken at once. -/
theorem step_verified (o : Outcome) :
    step ⟨w, some (t, .outcome o (.verified label e stage :: stack))⟩ =
      some ⟨w, some (t, controlOf w label e stage stack none o)⟩ := by
  cases o with
  | value v => exact congrArg some follow_afterStage
  | stopped => rfl
  | fault f =>
    rw [controlOf, if_neg (by simp [Outcome.isValue]), ← World.blame_eq]
    rfl

end Machine

/-! ## Stages of an assertion -/

section

variable (t : TaskId) (label : String) (e : Expectation) (stack : List Frame)

/-- How far the assertion of an expectation is, and what was seen of it so far. -/
inductive Verifying : List Mark → Machine → Prop
  /-- A stage is about to begin. -/
  | stage {passed seen stage m} (hpassed : e.Passed passed seen)
      (helements : e.elements = passed ++ e.elementsFrom stage)
      (hcurrent : m.current = some (t, .work (.verify label e stage) stack)) : Verifying seen m
  /-- A sub or a function is being run. -/
  | within {passed seen stage v m} (above : List Frame) (hpassed : e.Passed passed seen)
      (helement : e.element? stage = some (.run v))
      (helements : e.elements =
        passed ++ stage :: ((Move.nextStage e stage).map e.elementsFrom).getD [])
      (hframes : m.frames t = some (above ++ .verified label e stage :: stack)) :
      Verifying (seen ++ [.began stage]) m
  /-- The assertion is over. -/
  | ended {seen o m} (hcurrent : m.current = some (t, .outcome o stack))
      (hends : e.Ends label m.world seen o) : Verifying seen m

end

section

variable {t : TaskId} {label : String} {e : Expectation} {stack : List Frame} {seen : List Mark}
  {m m' : Machine}

/-- Where an element has passed, the next stage is about to begin, or the assertion is over. -/
theorem Verifying.next {passed : List Stage} {stage : Stage} (hpassed : e.Passed passed seen)
    (helements : e.elements = passed ++ ((Move.nextStage e stage).map e.elementsFrom).getD [])
    (hcurrent : m.current = some (t, Machine.controlAfter label e stage stack)) :
    Verifying t label e stack seen m := by
  unfold Machine.controlAfter at hcurrent
  cases hnext : Move.nextStage e stage with
  | some stage' =>
    rw [hnext] at hcurrent helements
    exact .stage hpassed helements hcurrent
  | none =>
    rw [hnext] at hcurrent helements
    refine .ended hcurrent (.passed ?_)
    rw [helements]
    simpa using hpassed

/-- Where an element has come to an outcome, the assertion goes on or is over. -/
theorem Verifying.come {passed rest : List Stage} {stage : Stage} {o : Outcome}
    {compared : Option (Html.Expected × String)} (hpassed : e.Passed passed seen)
    (helements : e.elements = passed ++ stage :: rest)
    (hrest : rest = ((Move.nextStage e stage).map e.elementsFrom).getD [])
    (hcomes : e.Comes m.world stage o compared)
    (hcurrent : m.current =
      some (t, Machine.controlOf m.world label e stage stack compared o)) :
    Verifying t label e stack (seen ++ [.began stage, .ended stage o compared]) m := by
  unfold Machine.controlOf at hcurrent
  cases ho : o.isValue with
  | true =>
    rw [ho, if_pos rfl] at hcurrent
    cases o with
    | value v =>
      refine .next (hpassed.next m.world hcomes) ?_ hcurrent
      rw [helements, hrest, List.append_assoc, List.singleton_append]
    | fault | stopped => cases ho
  | false =>
    rw [ho, if_neg Bool.false_ne_true] at hcurrent
    exact .ended hcurrent (.failed hpassed helements ho hcomes)

/-- What an assertion has shown is what can be seen of its expectation. -/
theorem Verifying.elapsed (h : Verifying t label e stack seen m) : e.Elapsed seen := by
  cases h with
  | stage hpassed helements => exact .between hpassed helements
  | within above hpassed helement helements => exact .within hpassed helements
  | ended hcurrent hends =>
    cases hends with
    | passed h => exact .between h (List.append_nil _).symm
    | failed h helements ho hcomes => exact .failed h helements ho _ hcomes

/-- A step of a run leaves an assertion at one of its stages. -/
theorem Verifying.step (h : Verifying t label e stack seen m) (hm : m.Sound)
    (hnot : ¬m.Resumes t stack) (hstep : m.step = some m') :
    Verifying t label e stack (seen ++ m.marks t stack.length) m' := by
  cases h with
  | @stage passed _ stage _ hpassed helements hcurrent =>
    rw [e.elementsFrom_eq stage] at helements
    cases helement : e.element? stage with
    | none =>
      have hmarks : m.marks t stack.length = [] := by
        simp [Machine.marks, hcurrent, helement]
      obtain ⟨w', hverify⟩ := Machine.step_verify_none helement
      obtain rfl := Machine.eq_of_step hcurrent hstep hverify
      rw [helement] at helements
      rw [hmarks, List.append_nil]
      exact .next hpassed helements rfl
    | some element =>
      rw [helement] at helements
      cases element with
      | run v =>
        have hmarks : m.marks t stack.length = [.began stage] := by
          simp [Machine.marks, hcurrent, helement]
        obtain ⟨w', hverify⟩ := Machine.step_verify_run helement
        obtain rfl := Machine.eq_of_step hcurrent hstep hverify
        rw [hmarks]
        exact .within [.begin (.sub w'.processor v)] hpassed helement helements
          (Machine.frames_work rfl)
      | html expected =>
        have hmarks : m.marks t stack.length = [.began stage,
            .ended stage (m.world.compare expected).1 (m.world.compare expected).2] := by
          simp [Machine.marks, hcurrent, helement]
        obtain rfl := Machine.eq_of_step hcurrent hstep (Machine.step_verify_html helement)
        rw [hmarks]
        exact .come hpassed helements rfl (.inl ⟨expected, helement, rfl⟩) rfl
  | @within passed seen stage v _ above hpassed helement helements hframes =>
    by_cases hresumes : m.Resumes t (.verified label e stage :: stack)
    · obtain ⟨o, hcurrent⟩ := hresumes.outcome fun work heq => nomatch heq
      have hmarks : m.marks t stack.length = [.ended stage o none] := by
        simp [Machine.marks, hcurrent]
      obtain rfl := Machine.eq_of_step hcurrent hstep (Machine.step_verified o)
      rw [hmarks, List.append_assoc]
      exact .come hpassed helements rfl (.inr ⟨v, helement, rfl⟩) rfl
    · obtain ⟨above', hframes'⟩ := hm.keeps_stack hframes hresumes hstep
      rw [Machine.marks_eq_nil hframes hresumes, List.append_nil]
      exact .within above' hpassed helement helements hframes'
  | ended hcurrent => exact absurd ⟨_, hcurrent, rfl⟩ hnot

/-- What an assertion is at, at any time. -/
theorem verifying_of_seen (hm : m.Sound)
    (hcurrent : m.current = some (t, .work (.verify label e .before) stack))
    (h : m.Seen t stack seen m') : Verifying t label e stack seen m' := by
  induction h with
  | refl => exact .stage .nil (by rw [e.elements_eq, List.nil_append]) hcurrent
  | step h hnot hstep ih => exact ih.step (h.steps.sound hm) hnot hstep

/-! ## The end of an assertion -/

/-- The number of stages that may follow a stage. -/
def Expectation.stagesLeft (e : Expectation) : Stage → Nat
  | .before => e.steps.length + 2
  | .step i => e.steps.length - i + 1
  | .after => 0

theorem stagesLeft_lt {stage stage' : Stage} (h : Move.nextStage e stage = some stage') :
    e.stagesLeft stage' < e.stagesLeft stage := by
  cases stage with
  | before =>
    simp only [Move.nextStage, Option.some.injEq] at h
    subst h
    split
    · simp only [Expectation.stagesLeft]
      omega
    · simp only [Expectation.stagesLeft]
      omega
  | step i =>
    simp only [Move.nextStage, Option.some.injEq] at h
    subst h
    split
    · simp only [Expectation.stagesLeft]
      omega
    · simp only [Expectation.stagesLeft]
      omega
  | after => cases h

namespace Machine

variable {m₀ m₁ m₂ : Machine}

/-- What a task does in front of a frame is part of what it does in front of the frames under it. -/
theorem Seen.during {f : Frame} (h : m₀.Seen t stack seen m₁)
    (hduring : During t (f :: stack) m₁ m₂) : ∃ seen', m₀.Seen t stack seen' m₂ := by
  induction hduring with
  | refl => exact ⟨seen, h⟩
  | tail hfirst hlast ih =>
    obtain ⟨seen', hseen⟩ := ih
    obtain ⟨hstep, ⟨above', hframes'⟩, -⟩ := hlast
    refine ⟨_, hseen.step ?_ hstep⟩
    rintro ⟨c, hcurrent, hstack⟩
    have heq := Option.some.inj ((frames_current hcurrent).symm.trans hframes')
    rw [hstack] at heq
    have hlength := congrArg List.length heq
    simp only [List.length_append, List.length_cons] at hlength
    omega

/-- Whether the subs and functions of an assertion come to outcomes. -/
def SubsEnd (m : Machine) (t : TaskId) (label : String) (e : Expectation) (stack : List Frame) : Prop :=
  ∀ seen m₁ stage v, m.Seen t stack seen m₁ → e.element? stage = some (.run v) →
    m₁.current = some (t, .work (.sub m₁.world.processor v) (.verified label e stage :: stack)) →
    ∃ m₂ o, During t (.verified label e stage :: stack) m₁ m₂ ∧
      m₂.current = some (t, .outcome o (.verified label e stage :: stack))

/-- An assertion whose subs and functions come to outcomes comes to one. -/
theorem exists_seen_end (hsubs : m.SubsEnd t label e stack) (stage : Stage)
    (hseen : m.Seen t stack seen m₁)
    (hcurrent : m₁.current = some (t, .work (.verify label e stage) stack)) :
    ∃ seen' m₂ o, m.Seen t stack seen' m₂ ∧ m₂.current = some (t, .outcome o stack) := by
  induction hleft : e.stagesLeft stage using Nat.strongRecOn generalizing stage seen m₁ with
  | ind n ih =>
    subst hleft
    have hafter {seen' : List Mark} {m₂ : Machine} (hseen : m.Seen t stack seen' m₂)
        (hcurrent : m₂.current = some (t, controlAfter label e stage stack)) :
        ∃ seen' m₂ o, m.Seen t stack seen' m₂ ∧ m₂.current = some (t, .outcome o stack) := by
      unfold controlAfter at hcurrent
      cases hnext : Move.nextStage e stage with
      | none =>
        rw [hnext] at hcurrent
        exact ⟨_, _, _, hseen, hcurrent⟩
      | some stage' =>
        rw [hnext] at hcurrent
        exact ih _ (stagesLeft_lt hnext) stage' hseen hcurrent rfl
    have hcome {seen' : List Mark} {m₂ : Machine} {compared : Option (Html.Expected × String)}
        {o : Outcome} (hseen : m.Seen t stack seen' m₂)
        (hcurrent : m₂.current = some (t, controlOf m₂.world label e stage stack compared o)) :
        ∃ seen' m₂ o, m.Seen t stack seen' m₂ ∧ m₂.current = some (t, .outcome o stack) := by
      unfold controlOf at hcurrent
      split at hcurrent
      · exact hafter hseen hcurrent
      · exact ⟨_, _, _, hseen, hcurrent⟩
    have hnot : ¬m₁.Resumes t stack := by
      rintro ⟨c, hc, hstack⟩
      cases hcurrent.symm.trans hc
      exact List.cons_ne_self _ _ hstack
    obtain ⟨w, current⟩ := m₁
    cases hcurrent
    cases helement : e.element? stage with
    | none =>
      obtain ⟨w', hstep⟩ := @step_verify_none w t label e stage stack helement
      exact hafter (hseen.step hnot hstep) rfl
    | some element =>
      cases element with
      | html expected => exact hcome (hseen.step hnot (step_verify_html helement)) rfl
      | run v =>
        obtain ⟨w', hstep⟩ := @step_verify_run w t label e stage stack v helement
        have hbegun := hseen.step hnot hstep
        obtain ⟨m₂, o, hduring, hover⟩ := hsubs _ _ stage v hbegun helement rfl
        obtain ⟨seen', hended⟩ := hbegun.during hduring
        obtain ⟨w₂, current⟩ := m₂
        cases hover
        refine hcome (hended.step ?_ (step_verified o)) rfl
        rintro ⟨c, hc, hstack⟩
        cases hc
        exact List.cons_ne_self _ _ hstack

end Machine

end

/-! ## Bracketing and blame -/

/-- All that is claimed of the assertion of an expectation by a task in front of some frames. -/
structure Machine.Verifies (m : Machine) (t : TaskId) (label : String) (e : Expectation)
    (stack : List Frame) : Prop where
  /-- Elements are run one after the other, and nothing is run after one that has failed. -/
  order : ∀ seen m', m.Seen t stack seen m' → e.Elapsed seen
  /-- A sub or a function is run where its stage is reached. -/
  begins : ∀ seen m₁ stage v, m.Seen t stack seen m₁ →
    m₁.current = some (t, .work (.verify label e stage) stack) → e.element? stage = some (.run v) →
    ∃ m₂, m₁.step = some m₂ ∧ m₂.current =
      some (t, .work (.sub m₂.world.processor v) (.verified label e stage :: stack))
  /-- The assertion is over where all elements have passed or one has failed, which is blamed. -/
  ends : ∀ seen m' o, m.Seen t stack seen m' → m'.current = some (t, .outcome o stack) →
    e.Ends label m'.world seen o
  /-- A failed assertion says which element of which label has failed; what is no failed assertion is
  left as it is. -/
  blame : ∀ (w : World) stage compared f, w.blamed label e stage compared (.fault f) =
      if f.kind = .assertion then
        .fault (.expectation e.title f.text (e.placeOf w.session.file label compared stage))
      else .fault f
  text : ∀ file reason stage compared,
    (Fault.expectation e.title reason (e.placeOf file label compared stage)).text =
      "Expectation failed" ++ e.shownTitle ++ ": " ++ reason ++ "\n" ++
        ("    " ++ "in \"" ++ (Place.inFile file).shownFile ++ "\"" ++ "\n" ++
          ("    " ++ "after update " ++ (Value.text label).shown ++ e.nameOf stage ++ "\n")) ++
        (compared.map fun pair => shownComparison pair.1 pair.2).getD ""
  /-- The assertion comes to its end unless one of its subs does not. -/
  returns : m.SubsEnd t label e stack →
    ∃ seen m' o, m.Seen t stack seen m' ∧ m'.current = some (t, .outcome o stack)

section

open Machine

variable {w : World} {work : Work} {m m' : Machine} {t : TaskId} {label : String} {e : Expectation}
  {stack : List Frame} {seen : List Mark} {o : Outcome}

/-- What an assertion comes to, with all that was seen of it. -/
theorem Verifying.ends_of_outcome (h : Verifying t label e stack seen m)
    (hcurrent : m.current = some (t, .outcome o stack)) : e.Ends label m.world seen o := by
  cases h with
  | stage hpassed helements hstage => cases hstage.symm.trans hcurrent
  | within above hpassed helement helements hframes =>
    have heq := Option.some.inj ((frames_current hcurrent).symm.trans hframes)
    have hlength := congrArg List.length heq
    simp only [Control.frames, List.length_append, List.length_cons] at hlength
    omega
  | ended hended hends =>
    cases hended.symm.trans hcurrent
    exact hends

/-- The assertion of an expectation, whatever its hooks and its steps are and whatever they come to, runs
the hook in front, the steps in their order and the hook behind, and stops at the first that fails.  A
failed assertion is replaced by one that blames this element, with what was compared if its HTML was read,
and any other fault is passed on as it is. -/
theorem assertion_verifies (h : w.Runs work m)
    (hcurrent : m.current = some (t, .work (.verify label e .before) stack)) :
    m.Verifies t label e stack where
  order _ _ hseen := (verifying_of_seen h.sound hcurrent hseen).elapsed
  begins seen m₁ stage v hseen hstage helement := by
    obtain ⟨w₁, current⟩ := m₁
    cases hstage
    obtain ⟨w₂, hstep⟩ := @step_verify_run w₁ t label e stage stack v helement
    exact ⟨_, hstep, rfl⟩
  ends _ _ _ hseen hover := (verifying_of_seen h.sound hcurrent hseen).ends_of_outcome hover
  blame _ _ _ _ := rfl
  text file reason stage compared := text_blamed e file label reason stage compared
  returns hsubs := exists_seen_end hsubs .before .refl hcurrent

/-- What is seen of a run can be seen by running the machine. -/
theorem seen_after (n : Nat) (h : ∀ k < n, (after k m).depth? t ≠ some stack.length) :
    m.Seen t stack ((List.range n).flatMap fun k => (after k m).marks t stack.length) (after n m) := by
  induction n with
  | zero => exact .refl
  | succ n ih =>
    have hseen := ih fun k hk => h k (Nat.lt_succ_of_lt hk)
    rw [List.range_succ, List.flatMap_append, List.flatMap_singleton, after_add n 1, after]
    cases hstep : (after n m).step with
    | some m' =>
      exact hseen.step (fun hresumes => h n (Nat.lt_succ_self n) hresumes.depth?) hstep
    | none =>
      -- A task that has its turn always makes a step.
      have hidle : (after n m).current = none := by
        by_contra hne
        obtain ⟨c, hcurrent⟩ := Option.ne_none_iff_exists'.mp hne
        obtain ⟨m', hsome⟩ := exists_step hcurrent
        cases hstep.symm.trans hsome
      have hmarks : (after n m).marks t stack.length = [] := by simp [marks, hidle]
      rw [hmarks, List.append_nil]
      exact hseen

/-- An expectation with a hook in front, HTML that is there, a function that fails, and a hook behind. -/
def failingExpectation : Expectation :=
  let hook : Value := .callback ⟨"hook", [], none, none, .nothing⟩
  let failing : Value := .callback ⟨"failing", [], some ⟨.assertion, "no"⟩, none, .nothing⟩
  ⟨none, some hook, some hook, [.html (.exact ""), .function failing]⟩

/-- A run of its assertion. -/
def failingRun (n : Nat) : Machine :=
  after n (ofWork TestSetup.plain.world (.verify "1" failingExpectation .before)).2

/-- The stage that begins at a mark. -/
def Mark.begun? : Mark → Option Stage
  | .began stage => some stage
  | .ended .. => none

/-- The text of the fault that a task has come to with nothing to go on with. -/
def Machine.failureText? (m : Machine) (t : TaskId) : Option String :=
  match m.current with
  | some (u, .outcome (.fault f) []) => if u = t then some f.text else none
  | _ => none

theorem exists_fault_of_failureText? {text : String} (h : m.failureText? t = some text) :
    ∃ f, m.current = some (t, .outcome (.fault f) []) ∧ f.text = text := by
  unfold Machine.failureText? at h
  split at h
  · next u f hcurrent =>
    obtain ⟨rfl, htext⟩ := Option.ite_none_right_eq_some.mp h
    exact ⟨f, hcurrent, Option.some.inj htext⟩
  · cases h

/-- The text of its failure. -/
def failingText : String :=
  "Expectation failed: no\n" ++ "    in \"<inline spec>\"\n" ++
    "    after update \x271\x27, step 1 (function)\n"

/-- The function that fails is blamed by its number, and the hook behind it is not run. -/
theorem assertion_verifies_failing :
    failingExpectation.elements = [.before, .step 0, .step 1, .after] ∧
    (failingRun 0).Verifies 0 "1" failingExpectation [] ∧
    ∃ seen f, (failingRun 0).Seen 0 [] seen (failingRun 7) ∧
      (failingRun 7).current = some (0, .outcome (.fault f) []) ∧
      failingExpectation.Ends "1" (failingRun 7).world seen (.fault f) ∧
      seen.filterMap Mark.begun? = [.before, .step 0, .step 1] ∧
      f.text = failingText := by
  have hfresh : TestSetup.plain.world.Fresh := ⟨rfl, rfl, rfl, rfl⟩
  have hruns : TestSetup.plain.world.Runs _ (failingRun 0) := hfresh.runs _
  have hverifies := assertion_verifies hruns rfl
  have hseen : (failingRun 0).Seen 0 [] _ (failingRun 7) := seen_after 7 (by decide +kernel)
  have hfails : (failingRun 7).failureText? 0 = some failingText := by decide +kernel
  obtain ⟨f, hcurrent, htext⟩ := exists_fault_of_failureText? hfails
  exact ⟨by decide +kernel, hverifies, _, f, hseen, hcurrent, hverifies.ends _ _ _ hseen hcurrent,
    by decide +kernel, htext⟩

end

end HotSpec
