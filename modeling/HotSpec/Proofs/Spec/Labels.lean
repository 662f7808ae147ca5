import HotSpec.Proofs.Spec.Shares
import HotSpec.Proofs.Spec.Weave

/-!
# Each label with its parts

A spec that compiles has an expectation for each label of its expectations.  It is made of the parts
of that label and those without a label, each with the values that were written inside it; and every
value was written inside one of the parts.

Main definitions:

- `Routed`: what each label and each value of a compiled spec come from.

Main results:

- Theorem `routed_compile`: a spec that compiles is routed.
-/

namespace HotSpec.Spec

/-! ## Results -/

theorem ok_of_locate {α : Type} {source : List Char} {file : Option String} {r : Except Refusal α}
    {a : α} (h : locate source file r = .ok a) : r = .ok a := by
  cases r with
  | ok a' => exact congrArg Except.ok (Except.ok.inj h)
  | error refusal => cases h

/-- What a source compiles to is made of its outline. -/
theorem compile_of_outline {source : Source} {full : Bool} {outline : Outline}
    (h : Outline.of source.text full = .ok outline) (file : Option String) :
    compile source full file = compileOutline source file outline >>= fun compiled =>
      if full && compiled.expects.isEmpty then .error (.spec (.noAssertions compiled.title) none)
      else .ok compiled := by
  rw [compile, h]
  rfl

/-- A source without an outline does not compile. -/
theorem compile_of_refused {source : Source} {full : Bool} {refusal : Refusal}
    (h : Outline.of source.text full = .error refusal) (file : Option String) :
    compile source full file = .error (Refusal.fault source.text file refusal) := by
  rw [compile, h]
  rfl

theorem finishDrafts_spec {drafts : Drafts} {expects : Table Expectation}
    (h : finishDrafts drafts = .ok expects) : expects.keys = drafts.keys ∧
      ∀ label d, drafts.get? label = some d →
        ∃ e, d.finish label = .ok e ∧ expects.get? label = some e := by
  induction drafts generalizing expects with
  | nil =>
    cases h
    exact ⟨rfl, fun _ _ hnone => nomatch hnone⟩
  | cons row drafts ih =>
    obtain ⟨key, draft⟩ := row
    obtain ⟨e, hfinish, h⟩ := ok_of_bind h
    obtain ⟨rest, hrest, heq⟩ := ok_of_bind h
    cases heq
    obtain ⟨hkeys, hget⟩ := ih hrest
    refine ⟨congrArg (key :: ·) hkeys, fun label d hd => ?_⟩
    rw [Table.get?_cons] at hd
    rw [Table.get?_cons]
    by_cases hsame : key = label
    · rw [if_pos hsame] at hd
      cases hd
      exact ⟨e, hsame ▸ hfinish, if_pos hsame⟩
    · rw [if_neg hsame] at hd
      rw [if_neg hsame]
      exact hget label d hd

/-- Before any part is read, each label has the empty draft. -/
theorem get?_start {labels : List String} {label : String} (h : label ∈ labels) :
    Table.get? (labels.map fun label => (label, Draft.empty)) label = some .empty := by
  induction labels with
  | nil => cases h
  | cons first labels ih =>
    rw [List.map_cons, Table.get?_cons]
    by_cases hsame : first = label
    · exact if_pos hsame
    · rw [if_neg hsame]
      exact ih ((List.mem_cons.mp h).resolve_left fun heq => hsame heq.symm)

/-! ## Routes -/

/-- What each label and each value of a compiled spec come from: the label from its draft, the value
from a part of the expectations. -/
structure Routed (source : Source) (s : Section) (expects : Table Expectation) : Prop where
  laid : s.Laid source.text
  keys : expects.keys = s.labels
  label : ∀ label ∈ s.labels, ∃ d e, Draft.empty.read label source.values s.parts = .ok d ∧
    d.finish label = .ok e ∧ expects.get? label = some e
  value : ∀ a ∈ source.values,
    ∃ p ∈ s.parts, p.holds a = true ∧ (a.isCallable = true → p.label ≠ none)

theorem Section.Laid.mem_labels {source : List Char} {s : Section} (h : s.Laid source)
    {label : String} : label ∈ s.labels ↔ ∃ p ∈ s.parts, p.label = some label := by
  rw [h.labels, List.mem_eraseDups, List.mem_filterMap]

/-- The drafts of a section: each label has the one that its parts make, and each value is left or was
written inside a part. -/
theorem draftsOf_start {source : List Char} {s : Section} {values left : List Anchored}
    {drafts : Drafts} (hlaid : s.Laid source) (hsorted : Sorted values)
    (h : draftsOf (s.labels.map fun label => (label, Draft.empty)) s.parts values =
      .ok (drafts, left)) :
    drafts.keys = s.labels ∧
      (∀ label ∈ s.labels, ∃ d, Draft.empty.read label values s.parts = .ok d ∧
        drafts.get? label = some d) ∧
      ∀ a ∈ values, a ∈ left ∨
        ∃ p ∈ s.parts, p.holds a = true ∧ (a.isCallable = true → p.label ≠ none) := by
  have hstart : Table.keys (s.labels.map fun label => (label, Draft.empty)) = s.labels := by
    simp [Table.keys, Function.comp_def]
  obtain ⟨hkeys, hread, hvalue⟩ := draftsOf_spec hsorted hlaid.apart
    (fun p hp label hlabel => by
      rw [hstart]
      exact hlaid.mem_labels.mpr ⟨p, hp, hlabel⟩) h
  exact ⟨hkeys.trans hstart, fun label hlabel => hread label .empty (get?_start hlabel), hvalue⟩

/-- The expectations of a spec that compiles, if it has any, are routed; else it has no value. -/
theorem routed_compile {source : Source} {full : Bool} {file : Option String}
    {compiled : CompiledSpec} (hsorted : Sorted source.values)
    (h : compile source full file = .ok compiled) :
    ∃ outline, Outline.of source.text full = .ok outline ∧
      (outline.expectations = none → source.values = [] ∧ compiled.expects = []) ∧
      ∀ s, outline.expectations = some s → Routed source s compiled.expects := by
  obtain ⟨outline, houtline, h⟩ := ok_of_bind h
  obtain ⟨compiled', hcompiled, h⟩ := ok_of_bind h
  have houtline := ok_of_locate houtline
  obtain rfl : compiled' = compiled := by
    split at h
    · cases h
    · exact Except.ok.inj h
  refine ⟨outline, houtline, fun hnone => ?_, fun s hs => ?_⟩
  · unfold compileOutline at hcompiled
    rw [hnone] at hcompiled
    cases hvalues : source.values with
    | nil =>
      rw [hvalues] at hcompiled
      cases hcompiled
      exact ⟨rfl, rfl⟩
    | cons a values =>
      rw [hvalues] at hcompiled
      cases hcompiled
  · unfold compileOutline at hcompiled
    rw [hs] at hcompiled
    obtain ⟨⟨expects, left⟩, hexpects, h⟩ := ok_of_bind hcompiled
    have hleft : left = [] ∧ compiled'.expects = expects := by
      cases left with
      | cons a left => cases h
      | nil =>
        cases h
        exact ⟨rfl, rfl⟩
    obtain ⟨rfl, rfl⟩ := hleft
    have hlaid := laid_outline houtline hs
    obtain ⟨⟨drafts, left⟩, hdrafts, h⟩ := ok_of_bind hexpects
    obtain ⟨expects', hfinish, heq⟩ := ok_of_bind h
    obtain ⟨rfl, rfl⟩ := Prod.mk.inj (Except.ok.inj heq)
    obtain ⟨hkeys, hread, hvalue⟩ := draftsOf_start hlaid hsorted (ok_of_locate hdrafts)
    obtain ⟨hkeys', hfinished⟩ := finishDrafts_spec hfinish
    refine ⟨hlaid, hkeys'.trans hkeys, fun label hlabel => ?_, fun a ha => ?_⟩
    · obtain ⟨d, hd, hget⟩ := hread label hlabel
      obtain ⟨e, he, hget'⟩ := hfinished label d hget
      exact ⟨d, e, hd, he, hget'⟩
    · rcases hvalue a ha with hnone | hpart
      · cases hnone
      · exact hpart

/-- A full spec that compiles expects something. -/
theorem expects_of_full {source : Source} {file : Option String} {compiled : CompiledSpec}
    (h : compile source true file = .ok compiled) : compiled.expects ≠ [] := by
  obtain ⟨outline, -, h⟩ := ok_of_bind h
  obtain ⟨compiled', -, h⟩ := ok_of_bind h
  split at h
  · cases h
  · next hsome =>
    cases h
    exact fun hempty => hsome (by simp [hempty])

end HotSpec.Spec
