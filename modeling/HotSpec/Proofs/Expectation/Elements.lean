import HotSpec.Proofs.Expectation.ExactChange

/-!
# The elements of an expectation

An expectation is a hook, steps, and another hook.  What an observer of its assertion sees are marks:
an element begins, and comes to an outcome.  This is the specification of an assertion: which marks
there can be at any time, and what the assertion comes to.

Main definitions:

- `Element`, `Expectation.element?`, `Expectation.elements`: what there is to be done, by stages.
- `World.compare`: what comes of comparing HTML.
- `Mark`, `Expectation.Passed`, `Expectation.Elapsed`: what is seen of the elements.
- `World.blamed`, `Expectation.Ends`: what an assertion comes to.

Main results:

- Theorem `elementsFrom_eq`: the elements from a stage on are those at it and those from the next one on.
- Theorem `text_blamed`: the text of a failed assertion names the label and the element.
-/

namespace HotSpec

/-! ## Elements -/

/-- Something to be done in the assertion of an expectation: HTML to compare, or a sub or a function to
run. -/
inductive Element
  | html (expected : Html.Expected)
  | run (sub : Value)

/-- The element that a step is. -/
def Step.toElement : Step → Element
  | .html expected => .html expected
  | .sub v | .function v => .run v

namespace Expectation

/-- The element at a stage of an expectation. -/
def element? (e : Expectation) : Stage → Option Element
  | .before => e.before.map .run
  | .step i => (e.steps[i]?).map Step.toElement
  | .after => e.after.map .run

/-- The stages of an expectation from one on. -/
def stagesFrom (e : Expectation) : Stage → List Stage
  | .before => .before :: (List.range' 0 e.steps.length).map .step ++ [.after]
  | .step i => (List.range' i (e.steps.length - i)).map .step ++ [.after]
  | .after => [.after]

/-- The elements of an expectation from a stage on. -/
def elementsFrom (e : Expectation) (stage : Stage) : List Stage :=
  (e.stagesFrom stage).filter fun stage => (e.element? stage).isSome

/-- The elements of an expectation: the hook in front, the steps in their order, the hook behind. -/
def elements (e : Expectation) : List Stage :=
  (Stage.before :: (List.range e.steps.length).map Stage.step ++ [Stage.after]).filter
    fun stage => (e.element? stage).isSome

theorem elements_eq (e : Expectation) : e.elements = e.elementsFrom .before := by
  rw [elements, elementsFrom, stagesFrom, List.range_eq_range']

/-- The elements from a stage on are the one at it and those from the next stage on. -/
theorem elementsFrom_eq (e : Expectation) (stage : Stage) :
    e.elementsFrom stage = (if (e.element? stage).isSome then [stage] else []) ++
      ((Move.nextStage e stage).map e.elementsFrom).getD [] := by
  cases stage with
  | before =>
    have hnext : ((Move.nextStage e .before).map e.elementsFrom).getD [] =
        ((List.range' 0 e.steps.length).map Stage.step ++ [Stage.after]).filter
          fun stage => (e.element? stage).isSome := by
      cases hsteps : e.steps with
      | nil => simp [Move.nextStage, hsteps, elementsFrom, stagesFrom]
      | cons step steps => simp [Move.nextStage, hsteps, elementsFrom, stagesFrom]
    rw [hnext, elementsFrom, stagesFrom, List.cons_append, List.filter_cons]
    split <;> rfl
  | step i =>
    by_cases hi : i < e.steps.length
    · have hsome : (e.element? (.step i)).isSome = true := by simp [element?, hi]
      have hrange : List.range' i (e.steps.length - i) =
          i :: List.range' (i + 1) (e.steps.length - (i + 1)) := by
        rw [show e.steps.length - i = e.steps.length - (i + 1) + 1 by omega, List.range'_succ]
      rw [if_pos hsome, elementsFrom, stagesFrom, hrange, List.map_cons, List.cons_append,
        List.filter_cons, if_pos hsome]
      by_cases hnext : i + 1 < e.steps.length
      · simp [Move.nextStage, hnext, elementsFrom, stagesFrom]
      · have hnil : e.steps.length - (i + 1) = 0 := by omega
        simp [Move.nextStage, hnext, elementsFrom, stagesFrom, hnil]
    · have hnone : (e.element? (.step i)).isSome = false := by simp [element?, hi]
      have hnil : e.steps.length - i = 0 := by omega
      have hlast : ¬ i + 1 < e.steps.length := by omega
      simp [hnone, elementsFrom, stagesFrom, hnil, Move.nextStage, hlast]
  | after =>
    simp only [elementsFrom, stagesFrom, Move.nextStage, Option.map_none, Option.getD_none,
      List.append_nil, List.filter_cons, List.filter_nil]

end Expectation

/-! ## Marks -/

/-- What comes of comparing the HTML under test, and what was compared, if it could be read. -/
def World.compare (w : World) (expected : Html.Expected) :
    Outcome × Option (Html.Expected × String) :=
  match w.rendered with
  | .error f => (.fault f, none)
  | .ok actual =>
    match expected.check actual with
    | .ok () => (.finished, some (expected, actual))
    | .error mismatch => (.fault (.mismatch mismatch), some (expected, actual))

/-- What is seen of an element: it begins, or it has come to an outcome, perhaps by a comparison. -/
inductive Mark
  | began (stage : Stage)
  | ended (stage : Stage) (o : Outcome) (compared : Option (Html.Expected × String))

namespace Expectation

/-- An element that comes to an outcome in a world: HTML by comparing it, a sub or a function by running
it, without any comparison. -/
def Comes (e : Expectation) (w : World) (stage : Stage) (o : Outcome)
    (compared : Option (Html.Expected × String)) : Prop :=
  (∃ expected, e.element? stage = some (.html expected) ∧ w.compare expected = (o, compared)) ∨
    ∃ v, e.element? stage = some (.run v) ∧ compared = none

/-- What is seen of elements that have passed one after the other. -/
inductive Passed (e : Expectation) : List Stage → List Mark → Prop
  | nil : Passed e [] []
  | next {stages marks stage v compared} (h : Passed e stages marks) (w : World)
      (hcomes : e.Comes w stage (.value v) compared) :
      Passed e (stages ++ [stage]) (marks ++ [.began stage, .ended stage (.value v) compared])

/-- What can be seen of the assertion of an expectation at any time: some elements have passed, one after
the other and in their order, and then the next one may have begun, and may have failed. -/
inductive Elapsed (e : Expectation) : List Mark → Prop
  | between {passed rest marks} (h : e.Passed passed marks) (helements : e.elements = passed ++ rest) :
      Elapsed e marks
  | within {passed stage rest marks} (h : e.Passed passed marks)
      (helements : e.elements = passed ++ stage :: rest) : Elapsed e (marks ++ [.began stage])
  | failed {passed stage rest marks o compared} (h : e.Passed passed marks)
      (helements : e.elements = passed ++ stage :: rest) (ho : o.isValue = false) (w : World)
      (hcomes : e.Comes w stage o compared) :
      Elapsed e (marks ++ [.began stage, .ended stage o compared])

/-! ## Blame -/

/-- The place of an element: its label, the number of a step and its kind, and what was compared. -/
def placeOf (e : Expectation) (file : Option String) (label : String)
    (compared : Option (Html.Expected × String)) (stage : Stage) : Place where
  file := file
  line := none
  column := none
  label := some (.text label)
  step := match stage with
    | .step i => some (.int i)
    | .before | .after => none
  kind := some <| match stage with
    | .before => "before"
    | .step i => ((e.steps[i]?).map Step.kind).getD ""
    | .after => "after"
  element := match compared with
    | some (expected, actual) =>
      Value.ofTable [("expected", expected.toValue), ("actual", .text actual)]
    | none => .nothing

end Expectation

/-- What an assertion comes to where an element has failed: a failed assertion blames the element, and
anything else is left as it is. -/
def World.blamed (w : World) (label : String) (e : Expectation) (stage : Stage)
    (compared : Option (Html.Expected × String)) : Outcome → Outcome
  | .fault f =>
    if f.kind = .assertion then
      .fault (.expectation e.title f.text (e.placeOf w.session.file label compared stage))
    else .fault f
  | o => o

/-- What an assertion comes to, with all that was seen of it: nothing but its end where all elements have
passed, or else what comes of the first one that has failed. -/
inductive Expectation.Ends (e : Expectation) (label : String) (w : World) :
    List Mark → Outcome → Prop
  | passed {marks} (h : e.Passed e.elements marks) : Ends e label w marks .finished
  | failed {passed stage rest marks o compared} (h : e.Passed passed marks)
      (helements : e.elements = passed ++ stage :: rest) (ho : o.isValue = false)
      (hcomes : e.Comes w stage o compared) :
      Ends e label w (marks ++ [.began stage, .ended stage o compared])
        (w.blamed label e stage compared o)

/-- The blame of the engine is that of the specification. -/
theorem World.blame_eq (w : World) (label : String) (e : Expectation) (stage : Stage)
    (compared : Option (Html.Expected × String)) (f : Fault) :
    Outcome.fault (w.blame label e stage (e.placeOf w.session.file label compared stage).element f) =
      w.blamed label e stage compared (.fault f) := by
  have hplace : w.placeAt label e stage (e.placeOf w.session.file label compared stage).element =
      e.placeOf w.session.file label compared stage := by
    cases stage <;> rfl
  unfold World.blame World.blamed
  rw [hplace]
  by_cases hkind : f.kind = .assertion
  · rw [if_pos hkind]
    exact (if_pos hkind).symm
  · rw [if_neg hkind]
    exact (if_neg hkind).symm

/-! ## The text of a failed assertion -/

/-- How the element at a stage is named: a hook by its place, a step by its number and its kind. -/
def Expectation.nameOf (e : Expectation) : Stage → String
  | .before => " (before)"
  | .step i =>
    ", step " ++ (Value.int i).plain ++ ((e.steps[i]?).map fun step => " (" ++ step.kind ++ ")").getD ""
  | .after => " (after)"

/-- How a comparison is shown. -/
def shownComparison (expected : Html.Expected) (actual : String) : String :=
  "         ...\n" ++ Place.indented (Value.ofTable
    [("expected", expected.toValue), ("actual", .text actual)]).toData.document "        " ++ "\n"

/-- The title of an expectation, as the text of a failed assertion gives it. -/
def Expectation.shownTitle (e : Expectation) : String :=
  (e.title.map fun title => if title = "" then "" else " (" ++ title ++ ")").getD ""

theorem kind_ne_empty (step : Step) : step.kind ≠ "" := by
  cases step <;> simp [Step.kind]

/-- The lines that say where an element is name its label and the element. -/
theorem location_placeOf (e : Expectation) (file : Option String) (label : String)
    (compared : Option (Html.Expected × String)) (stage : Stage) (indent : String) :
    (e.placeOf file label compared stage).location indent =
      indent ++ "in \"" ++ (Place.inFile file).shownFile ++ "\"" ++ "\n" ++
        (indent ++ "after update " ++ (Value.text label).shown ++ e.nameOf stage ++ "\n") := by
  cases stage with
  | before => simp [Place.location, Expectation.placeOf, Expectation.nameOf, Place.inFile, Place.shownFile]
  | step i =>
    cases hstep : e.steps[i]? with
    | none =>
      simp [Place.location, Expectation.placeOf, Expectation.nameOf, hstep, Place.inFile, Place.shownFile]
    | some step =>
      simp [Place.location, Expectation.placeOf, Expectation.nameOf, hstep, Place.inFile, Place.shownFile,
        kind_ne_empty, String.append_assoc]
  | after => simp [Place.location, Expectation.placeOf, Expectation.nameOf, Place.inFile, Place.shownFile]

/-- The snippet of an element shows what was compared, if anything was. -/
theorem snippet_placeOf (e : Expectation) (file : Option String) (label : String)
    (compared : Option (Html.Expected × String)) (stage : Stage) :
    (e.placeOf file label compared stage).snippet "        " =
      (compared.map fun pair => shownComparison pair.1 pair.2).getD "" := by
  cases compared with
  | none => rfl
  | some pair => rfl

/-- The text of a failed assertion names its label and the element that has failed, a step also by its
number, and shows what was compared, if anything was. -/
theorem text_blamed (e : Expectation) (file : Option String) (label reason : String) (stage : Stage)
    (compared : Option (Html.Expected × String)) :
    (Fault.expectation e.title reason (e.placeOf file label compared stage)).text =
      "Expectation failed" ++ e.shownTitle ++ ": " ++ reason ++ "\n" ++
        ("    " ++ "in \"" ++ (Place.inFile file).shownFile ++ "\"" ++ "\n" ++
          ("    " ++ "after update " ++ (Value.text label).shown ++ e.nameOf stage ++ "\n")) ++
        (compared.map fun pair => shownComparison pair.1 pair.2).getD "" := by
  rw [← location_placeOf e file label compared, ← snippet_placeOf e file label compared stage]
  unfold Fault.text Expectation.shownTitle
  cases e.title <;> rfl

end HotSpec
