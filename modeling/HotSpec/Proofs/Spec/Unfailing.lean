import HotSpec.Proofs.Spec.Conservation
import HotSpec.Proofs.Spec.GuardedDrafts
import HotSpec.Proofs.Spec.GuardedOutline
import HotSpec.Proofs.Spec.Trailing

/-!
# Compiling fails in one way only

None of the guards is ever reached: a spec that is compiled with guards comes to what it comes to without
them.  So a text or a mixed list compiles, or it is refused as a spec.

Main definitions:

- `Draft.Callable`: a draft whose hooks and subs can be called.
- `Unfailing`: a spec that compiles within its guards, or is refused as a spec.

Main results:

- Theorem `Guarded.finish_eq`: no guard is reached where the expectation of a label is made.
- Theorem `Guarded.compile_eq`: none is reached where a source is compiled.
- Theorem `compile_unfailing`: texts and mixed lists compile or are refused.
-/

namespace HotSpec.Spec

open Html (Token Expected)

variable {ε : Type}

/-! ## Expectations -/

theorem toSubHandler?_of_isCallable {v : Value} (h : v.isCallable = true) : v.toSubHandler? = some v := by
  cases v <;> simp_all [Value.isCallable, Value.toSubHandler?, Value.isSubHandler]

theorem hookOf_getD {hook : Option Value} (h : ∀ v, hook = some v → v.isCallable = true) :
    hookOf (hook.getD .nothing) = .ok hook := by
  cases hook with
  | none => rfl
  | some v =>
    have hcallable := h v rfl
    have hhandler := toSubHandler?_of_isCallable hcallable
    have hhook : hookOf v = (Checked.ofOption v.toSubHandler?).map some := by
      cases v <;> simp_all [hookOf, Value.isCallable]
    rw [Option.getD_some, hhook, hhandler]
    rfl

theorem toExpected?_toValue (expected : Expected) : expected.toValue.toExpected? = some expected := by
  cases expected with
  | exact text => rfl
  | tokens tokens =>
    have htokens := @Guarded.mapM_map_eq_pure _ _ Option _ _ _ Value.toToken? Token.toValue id tokens
      fun token _ => by cases token <;> rfl
    simp [Expected.toValue, Value.toExpected?, Value.toText?, Value.toItems?, htokens]

/-- A record with one field is a step of the variant of that field. -/
theorem ofFields_html (expected : Expected) :
    Step.ofFields [("html", expected.toValue)] = .ok (.html expected) := by
  have hexpected := toExpected?_toValue expected
  have hget : Fields.get? [("html", expected.toValue)] "html" = some expected.toValue := by
    cases expected <;> rfl
  have hsub : Fields.get? [("html", expected.toValue)] "sub" = none := rfl
  have hfunction : Fields.get? [("html", expected.toValue)] "function" = none := rfl
  simp only [Step.ofFields, Step.variants, List.filterMap_cons, List.filterMap_nil, hget, hsub, hfunction,
    Option.map_some, Option.map_none, hexpected]
  rfl

theorem ofFields_sub {v : Value} (h : v.isCallable = true) : Step.ofFields [("sub", v)] = .ok (.sub v) := by
  have hhandler := toSubHandler?_of_isCallable h
  have hget : Fields.get? [("sub", v)] "sub" = some v := by
    cases v <;> simp_all [Value.isCallable, Fields.get?]
  have hhtml : Fields.get? [("sub", v)] "html" = none := rfl
  have hfunction : Fields.get? [("sub", v)] "function" = none := rfl
  simp only [Step.ofFields, Step.variants, List.filterMap_cons, List.filterMap_nil, hget, hhtml, hfunction,
    Option.map_some, Option.map_none, hhandler]
  rfl

/-- A draft whose hooks and subs can be called. -/
structure Draft.Callable (d : Draft) : Prop where
  before : ∀ v, d.before = some v → v.isCallable = true
  after : ∀ v, d.after = some v → v.isCallable = true
  subs : ∀ steps index v, d.steps = some (steps, index) → .sub v ∈ steps → v.isCallable = true

namespace Guarded

theorem htmlStep_eq (lines : List (List Token)) :
    (htmlStep (lines.map (List.map Token.toValue)) : Guarded ε Step) =
      .ok (.html (Expected.ofLines lines)) := by
  have hline (line : List Token) : (line.map Token.toValue).mapM Token.ofValue = pure line := by
    have hpure := @mapM_map_eq_pure _ _ (Except Fault) _ _ _ Token.ofValue Token.toValue id line
      fun token _ => by cases token <;> rfl
    rwa [List.map_id] at hpure
  have hlines := @mapM_map_eq_pure _ _ (Except Fault) _ _ _ (List.mapM Token.ofValue)
    (List.map Token.toValue) id lines fun line _ => hline line
  rw [htmlStep, Html.expectationOfLines, hlines, List.map_id]
  change checked (Step.ofFields [("html", (Expected.ofLines lines).toValue)]) = _
  rw [ofFields_html]
  rfl

theorem finish_given (above below : List (List Token)) {step : BlockStep}
    (h : ∀ v, step = .sub v → v.isCallable = true) :
    (step.given.finish (above.map (List.map Token.toValue)) (below.map (List.map Token.toValue)) :
      Guarded ε Step) = .ok (step.finish above below) := by
  cases step with
  | html tokens =>
    have hhtml := @htmlStep_eq ε (above ++ tokens :: below)
    rw [List.map_append, List.map_cons] at hhtml
    exact hhtml
  | sub v =>
    rw [BlockStep.given, GivenStep.finish, ofFields_sub (h v rfl)]
    rfl

/-- No guard is reached where the expectation of a label is made. -/
theorem finish_eq {d : Draft} (label : String) (hcallable : d.Callable) (horder : d.InOrder) :
    finish label d.given = lift (d.finish label) := by
  have hparts : Expectation.ofParts d.given.title (d.given.before.getD .nothing)
      (d.given.after.getD .nothing) [] = .ok ⟨d.title, d.before, d.after, []⟩ := by
    simp only [Expectation.ofParts, Draft.given, hookOf_getD hcallable.before,
      hookOf_getD hcallable.after]
    rfl
  rw [finish, hparts]
  cases hsteps : d.steps with
  | none =>
    have hgiven : d.given.steps = none := by simp [Draft.given, hsteps]
    rw [Draft.finish_of_none hsteps]
    simp only [checked, ok_bind, hgiven, Draft.given_lines, htmlStep_eq]
    rfl
  | some block =>
    obtain ⟨steps, index⟩ := block
    have hgiven : d.given.steps = some (steps.map BlockStep.given, index) := by
      simp [Draft.given, hsteps]
    have hhtml : d.given.hasHtml = d.hasHtml := by
      simp [Draft.given_lines, Bucket.hasHtml, Draft.hasHtml, Function.comp_def]
    have hany : (steps.map BlockStep.given).any GivenStep.isHtml = steps.any BlockStep.isHtml := by
      simp [Function.comp_def, BlockStep.isHtml_given]
    have hindex : index ≤ d.given.lines.length := by
      simpa [Draft.given_lines] using horder steps index hsteps
    rw [Draft.finish_of_some hsteps]
    simp only [checked, ok_bind, hgiven, hhtml, hany]
    by_cases hignored : (d.hasHtml && !steps.any BlockStep.isHtml) = true
    · rw [if_pos hignored, if_pos hignored]
      rfl
    · have hmade := @mapM_map_eq_pure _ _ (Guarded Fault) _ _ _
        (GivenStep.finish (d.given.lines.take index) (d.given.lines.drop index)) BlockStep.given
        (BlockStep.finish (d.lines.take index) (d.lines.drop index)) steps fun step hstep => by
          rw [Draft.given_lines, ← List.map_take, ← List.map_drop]
          apply finish_given
          rintro v rfl
          exact hcallable.subs steps index v hsteps hstep
      rw [if_neg hignored, if_neg hignored, slice_eq_ok (Nat.zero_le _) hindex, ok_bind,
        slice_eq_ok hindex (Nat.le_refl _), ok_bind, List.drop_zero, List.take_length, hmade]
      rfl

theorem finishAll_eq {drafts : Drafts} (h : ∀ row ∈ drafts, row.2.Callable ∧ row.2.InOrder) :
    finishAll (givenDrafts drafts) = lift (finishDrafts drafts) := by
  induction drafts with
  | nil => rfl
  | cons row drafts ih =>
    obtain ⟨label, d⟩ := row
    obtain ⟨hcallable, horder⟩ := h (label, d) List.mem_cons_self
    have hrest := ih fun row hrow => h row (List.mem_cons_of_mem _ hrow)
    rw [finishDrafts]
    change (finish label d.given >>= fun expectation => finishAll (givenDrafts drafts) >>= fun rest =>
      pure ((label, expectation) :: rest)) = _
    rw [finish_eq label hcallable horder, hrest]
    apply lift_bind
    intro expectation _
    apply lift_bind
    intro rest _
    rfl

end Guarded

/-! ## Values -/

/-- Anchored values in their order, none of which is plain. -/
structure WellAnchored (values : List Anchored) : Prop where
  sorted : Sorted values
  anchoring : ∀ a ∈ values, isAnchoring a.value = true

theorem wellAnchored_ofParts (parts : List Value) : WellAnchored (Source.ofParts parts).values where
  sorted := sorted_ofParts parts
  anchoring a ha := by
    have hmem : a.value ∈ parts.filter isAnchoring := by
      rw [← values_ofParts parts]
      exact List.mem_map_of_mem ha
    exact (List.mem_filter.mp hmem).2

/-- An anchored value that is no pattern can be called. -/
theorem WellAnchored.isCallable_value {values : List Anchored} {a : Anchored} (h : WellAnchored values)
    (ha : a ∈ values) (hcallable : a.isCallable = true) : a.value.isCallable = true := by
  have hanchoring := h.anchoring a ha
  obtain ⟨index, value⟩ := a
  cases value with
  | regex r => cases hcallable
  | _ => exact hanchoring

/-- What was written in some of the parts can be called, where patterns are left out. -/
theorem WellAnchored.isCallable_of_mem {values : List Anchored} {parts : List Part}
    (h : WellAnchored values) {choose : Part → Prop} [DecidablePred choose] {v : Value}
    (hv : v ∈ parts.flatMap fun p => if choose p then callablesOf (p.share values) else []) :
    v.isCallable = true := by
  obtain ⟨p, -, hp⟩ := List.mem_flatMap.mp hv
  split at hp
  · obtain ⟨a, ha, rfl⟩ := List.mem_map.mp hp
    obtain ⟨hshare, hcallable⟩ := List.mem_filter.mp ha
    exact h.isCallable_value (List.mem_of_mem_filter hshare) hcallable
  · cases hp

/-- A draft that holds what its parts were written with has hooks and subs that can be called. -/
theorem Draft.Keeps.callable {d : Draft} {label : String} {values : List Anchored} {parts : List Part}
    {lines block : List Regex} (hvalues : WellAnchored values)
    (h : d.Keeps (hooksOf label values parts) (subsOf label values parts) lines block) :
    d.Callable := by
  have hhook (v : Value) (hv : v ∈ d.before.toList ++ d.after.toList) : v.isCallable = true := by
    rw [h.hooks] at hv
    exact hvalues.isCallable_of_mem hv
  constructor
  · intro v hv
    apply hhook
    simp [hv]
  · intro v hv
    apply hhook
    simp [hv]
  · intro steps index v hsteps hv
    have hsub : v ∈ subsOf label values parts := by
      rw [← (h.block steps index hsteps).1, List.mem_filterMap]
      exact ⟨.sub v, List.mem_flatMap.mpr ⟨.sub v, hv, List.mem_singleton_self _⟩, rfl⟩
    exact hvalues.isCallable_of_mem hsub

/-- The drafts of a section can be finished: their hooks and subs can be called, and their blocks stand
among their lines. -/
theorem callable_draftsOf {source : List Char} {s : Section} {values left : List Anchored}
    {drafts : Drafts} (hlaid : s.Laid source) (hvalues : WellAnchored values)
    (h : draftsOf (s.labels.map fun label => (label, Draft.empty)) s.parts values =
      .ok (drafts, left)) :
    ∀ row ∈ drafts, row.2.Callable ∧ row.2.InOrder := by
  obtain ⟨hkeys, hread, -⟩ := draftsOf_start hlaid hvalues.sorted h
  have hnodup : drafts.keys.Nodup := by
    rw [hkeys, hlaid.labels]
    exact nodup_eraseDups _
  intro row hrow
  constructor
  · have hlabel : row.1 ∈ s.labels := hkeys ▸ List.mem_map_of_mem hrow
    obtain ⟨d, hd, hget⟩ := hread row.1 hlabel
    rw [Table.get?_of_mem hnodup hrow] at hget
    cases hget
    exact (Draft.keeps_read Draft.keeps_empty hvalues.sorted hlaid.parts hd).callable hvalues
  · exact (inOrder_start s.labels).draftsOf h row hrow

/-! ## Specs -/

theorem mem_of_mem_ofRows {α : Type} {rows : List (String × α)} {row : String × α}
    (h : row ∈ Table.ofRows rows) : row ∈ rows := by
  have hmerge (t : Table α) : row ∈ t.merge rows → row ∈ t ∨ row ∈ rows := by
    clear h
    induction rows generalizing t with
    | nil => exact .inl
    | cons first rows ih =>
      intro h
      rcases ih _ h with hput | hrest
      · rcases Table.mem_put hput with hmem | rfl
        · exact .inl hmem
        · exact .inr List.mem_cons_self
      · exact .inr (List.mem_cons_of_mem _ hrest)
  exact (hmerge [] h).resolve_left List.not_mem_nil

/-- The labels of all sections of a source are not empty. -/
theorem label_ne_of_mem_sections {source : List Char} {full : Bool} {outline : Outline}
    (h : Outline.of source full = .ok outline) {content : Section} (hcontent : content ∈ outline.sections)
    {label : String} (hlabel : label ∈ content.labels) : label ≠ "" := by
  have hlabels := forall_mem_iff_of_forall₂ (P := fun _ => True)
    (Q := fun (content : Section) => ∀ label ∈ content.labels, label ≠ "") (sections_faithful h)
    fun s content hs => ⟨fun _ label => hs.label_ne, fun _ => trivial⟩
  exact hlabels.mp (fun _ _ => trivial) content hcontent label hlabel

/-- The labels of the contents of all files are not empty. -/
theorem label_ne_of_mem_files {source : List Char} {full : Bool} {outline : Outline}
    (h : Outline.of source full = .ok outline) :
    ∀ row ∈ Table.ofRows (outline.files.map fun row => (row.1, row.2.variants)),
      ∀ variant ∈ row.2, variant.1 ≠ "" := by
  intro row hrow variant hvariant
  obtain ⟨file, hfile, rfl⟩ := List.mem_map.mp (mem_of_mem_ofRows hrow)
  have hcontent : file.2 ∈ outline.sections :=
    List.mem_append_left _ (List.mem_map_of_mem (f := Prod.snd) hfile)
  unfold Section.variants at hvariant
  split at hvariant
  · cases hvariant
  · obtain ⟨label, hlabel, rfl⟩ := List.mem_map.mp hvariant
    split at hlabel
    · rw [List.mem_singleton.mp hlabel]
      simp [anyLabel]
    · exact label_ne_of_mem_sections h hcontent hlabel

namespace Guarded

theorem labelled_eq {α : Type} {t : Table α} (h : ∀ row ∈ t, row.1 ≠ "") :
    (labelled t : Guarded ε (Table α)) = .ok t := by
  have hrows := @mapM_eq_ok ε _ _ (fun row : String × α => do
    let label ← named row.1
    return (label, row.2)) id t fun row hrow => by
      rw [named_eq_ok (h row hrow)]
      rfl
  rwa [List.map_id] at hrows

theorem spec_eq {files : Table (Table String)} {expects : Table Expectation}
    (hfiles : ∀ row ∈ files, ∀ variant ∈ row.2, variant.1 ≠ "")
    (hexpects : ∀ row ∈ expects, row.1 ≠ "") (title : Option String) :
    (spec title files expects : Guarded ε CompiledSpec) = .ok ⟨title, files, expects⟩ := by
  have hrows := @mapM_eq_ok ε _ _ (fun row : String × Table String => do
    let variants ← labelled row.2
    return (row.1, variants)) id files fun row hrow => by
      rw [labelled_eq (hfiles row hrow)]
      rfl
  rw [List.map_id] at hrows
  rw [spec, hrows, ok_bind, labelled_eq hexpects]
  rfl

/-- No guard is reached where the expectations of a section are compiled. -/
theorem expectations_eq {source : Source} {s : Section} (file : Option String)
    (hlaid : s.Laid source.text) (hvalues : WellAnchored source.values) :
    expectations source.text file source.values s =
      lift (compileExpectations source.text file source.values s) := by
  have hstart : (s.labels.map fun label => (label, Bucket.empty)) =
      givenDrafts (s.labels.map fun label => (label, Draft.empty)) := by
    simp [givenDrafts, Draft.given, Draft.empty, Bucket.empty]
  have hbuckets := @bucketsOf_eq source.text (s.labels.map fun label => (label, Draft.empty)) s.parts
    source.values hlaid.parts hvalues.sorted fun p hp label hlabel => by
      simpa [Table.keys, Function.comp_def] using hlaid.mem_labels.mpr ⟨p, hp, hlabel⟩
  simp only [expectations, hstart, hbuckets, locate_lift, compileExpectations]
  cases hdrafts : draftsOf (s.labels.map fun label => (label, Draft.empty)) s.parts source.values with
  | error refusal => rfl
  | ok result =>
    obtain ⟨drafts, left⟩ := result
    have hfinish := finishAll_eq (callable_draftsOf hlaid hvalues hdrafts)
    change (finishAll (givenDrafts drafts) >>= fun expects => pure (expects, left)) =
      lift (finishDrafts drafts >>= fun expects => pure (expects, left))
    rw [hfinish]
    apply lift_bind
    intro expects _
    rfl

end Guarded

theorem keys_compileExpectations {source : Source} {s : Section} {file : Option String}
    {expects : Table Expectation} {left : List Anchored} (hlaid : s.Laid source.text)
    (hvalues : WellAnchored source.values)
    (h : compileExpectations source.text file source.values s = .ok (expects, left)) :
    expects.keys = s.labels := by
  obtain ⟨⟨drafts, left'⟩, hdrafts, h⟩ := ok_of_bind h
  obtain ⟨expects', hfinish, heq⟩ := ok_of_bind h
  cases heq
  rw [(finishDrafts_spec hfinish).1]
  exact (draftsOf_start hlaid hvalues.sorted (ok_of_locate hdrafts)).1

/-- A source whose values are in order comes to the same with guards and without them. -/
theorem Guarded.compile_eq {source : Source} (hvalues : WellAnchored source.values) (full : Bool)
    (file : Option String) :
    Guarded.compile source full file = lift (Spec.compile source full file) := by
  unfold Guarded.compile Spec.compile
  rw [outline_eq, locate_lift]
  apply lift_bind
  intro outline hlocate
  have houtline := ok_of_locate hlocate
  have hspec {expects : Table Expectation} (hexpects : ∀ row ∈ expects, row.1 ≠ "") : (do
      let compiled ← (spec outline.title
        (Table.ofRows (outline.files.map fun row => (row.1, row.2.variants))) expects :
          Guarded Fault CompiledSpec)
      if full && compiled.expects.isEmpty then
        .error (.refused (.spec (.noAssertions compiled.title) none))
      else return compiled) =
      lift (if full && expects.isEmpty then .error (.spec (.noAssertions outline.title) none)
        else .ok ⟨outline.title,
          Table.ofRows (outline.files.map fun row => (row.1, row.2.variants)), expects⟩) := by
    rw [spec_eq (label_ne_of_mem_files houtline) hexpects, ok_bind]
    split <;> rfl
  unfold compileOutline
  cases hs : outline.expectations with
  | none =>
    cases source.values with
    | cons value values => rfl
    | nil => exact hspec (List.forall_mem_nil _)
  | some s =>
    have hlaid := laid_outline houtline hs
    simp only [expectations_eq file hlaid hvalues]
    cases hexpects : compileExpectations source.text file source.values s with
    | error fault => rfl
    | ok result =>
      obtain ⟨expects, left⟩ := result
      cases left with
      | cons value values => rfl
      | nil =>
        apply hspec
        intro row hrow
        have hlabel : row.1 ∈ expects.keys := List.mem_map_of_mem hrow
        rw [keys_compileExpectations hlaid hvalues hexpects] at hlabel
        have hcontent : s ∈ outline.sections := List.mem_append_right _ (by simp [hs])
        exact label_ne_of_mem_sections houtline hcontent hlabel

/-- A spec that compiles within its guards, or else is refused as a spec. -/
def Unfailing (spec : Value) (full : Bool) (file : Option String) : Prop :=
  (∃ compiled, compileValue spec full file = .ok compiled ∧
    Guarded.compileValue spec full file = .ok compiled) ∨
  ∃ cause place, compileValue spec full file = .error (.spec cause place) ∧
    Guarded.compileValue spec full file = .error (.refused (.spec cause place))

theorem unfailing_of_source {spec : Value} {source : Source} (hsource : Source.of spec = .ok source)
    (hvalues : WellAnchored source.values) (full : Bool) (file : Option String) : Unfailing spec full file := by
  have hcompile : compileValue spec full file = compile source full file := by
    rw [compileValue, hsource]
    rfl
  have hguarded : Guarded.compileValue spec full file = Guarded.lift (compile source full file) := by
    rw [Guarded.compileValue, hsource]
    exact Guarded.compile_eq hvalues full file
  unfold Unfailing
  rw [hcompile, hguarded]
  cases hresult : compile source full file with
  | ok compiled => exact .inl ⟨compiled, rfl, rfl⟩
  | error fault =>
    obtain ⟨cause, place, rfl⟩ := refusing_compile source full file fault hresult
    exact .inr ⟨cause, place, rfl, rfl⟩

/-- A text or a mixed list compiles, or it is refused as a spec.  No operation is ever used outside of its
domain: no draft is missing, no least number of none is asked for, no offset is negative, no piece lies
outside of its text, no label or path is empty, no token is unfit, and each step has one variant. -/
theorem compile_unfailing (text : String) (parts : List Value) (full : Bool) (file : Option String) :
    Unfailing (.text text) full file ∧ Unfailing (.list parts) full file := by
  constructor
  · apply @unfailing_of_source (.text text) ⟨text.toList, []⟩ rfl
    exact ⟨.nil, List.forall_mem_nil _⟩
  · exact unfailing_of_source rfl (wellAnchored_ofParts parts) full file

end HotSpec.Spec
