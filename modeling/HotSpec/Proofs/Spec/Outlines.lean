import HotSpec.Proofs.Spec.Alongside
import HotSpec.Proofs.Spec.Positions

/-!
# Outlines side by side

Two sources whose lines stand side by side have outlines that correspond, as soon as their sections do;
or both are refused, for one cause and at lines that stand next to each other.

Main definitions:

- `SectionsAlongside`: two sections of sources that stand side by side.
- `OutlinesAlongside`: outlines whose sections correspond.
- `Line.SamePlace`: two lines of one number in their sources.

Main results:

- Theorem `Alongside.outline`: the outlines of sources side by side.
- Theorem `forall₂_samePlace`: lines that stand next to each other have the same place.
-/

namespace HotSpec.Spec

open HotSpec.Text

/-! ## Results -/

/-- What is known of two results that correspond, where both are accepted. -/
theorem Together.of_ok {α β : Type} {At : Nat → Nat → Prop} {P : α → β → Prop} {x : Except Refusal α}
    {y : Except Refusal β} (h : Together At (fun _ _ => True) x y)
    (hP : ∀ a b, x = .ok a → y = .ok b → P a b) : Together At P x y := by
  cases h with
  | ok _ => exact .ok (hP _ _ rfl rfl)
  | error h => exact .error h

theorem Together.outcome {α β : Type} {At : Nat → Nat → Prop} {P : α → β → Prop} {x : Except Refusal α}
    {y : Except Refusal β} (h : Together At P x y) : (∃ a b, x = .ok a ∧ y = .ok b ∧ P a b) ∨
      ∃ cause i j, x = .error (cause, i) ∧ y = .error (cause, j) ∧ At i j := by
  cases h with
  | ok h => exact .inl ⟨_, _, rfl, rfl, h⟩
  | error h => exact .inr ⟨_, _, _, rfl, rfl, h⟩

/-! ## Sections and outlines -/

/-- Two sections of sources that stand side by side. -/
structure SectionsAlongside (R : Bool → Line → Line → Prop) (source source' : List Char)
    (s s' : Line × List Line) : Prop where
  first : ∃ inside, R inside s.1 s'.1
  lines : Alongside R false s.2 s'.2
  starts : ∀ line ∈ s.2, line.starts = false
  within : s.2 <:+: linesOf source
  within' : s'.2 <:+: linesOf source'

/-- Two outlines with the same title and the same files, whose sections correspond. -/
structure OutlinesAlongside (P Q : Section → Section → Prop) (o o' : Outline) : Prop where
  title : o.title = o'.title
  files : Table.Rel (fun _ => P) o.files o'.files
  expectations : Option.Rel Q o.expectations o'.expectations

section Outlines

variable {R : Bool → Line → Line → Prop} {At : Nat → Nat → Prop} {source source' : List Char}
variable {lines lines' : List Line} {sections sections' : List (Line × List Line)}
variable (hR : ∀ inside line line', R inside line line' → line.ReadsAs line')
variable (hAt : ∀ inside line line', R inside line line' → At line.textStart line'.textStart)

include hR in
theorem Alongside.sectionsAlongside (h : Alongside R false (linesOf source) (linesOf source')) :
    List.Forall₂ (SectionsAlongside R source source') (Spec.sectionLines (linesOf source))
      (Spec.sectionLines (linesOf source')) := by
  refine (forall₂_mem (h.sectionLines hR)).imp fun s s' hs => ?_
  obtain ⟨hmem, hmem', hfirst, hlines, hstarts⟩ := hs
  exact ⟨hfirst, hlines, hstarts, infix_of_mem_sectionLines hmem, infix_of_mem_sectionLines hmem'⟩

include hR hAt

theorem together_titleOf (h : Alongside R false (linesOf source) (linesOf source'))
    (hblank : (∀ line ∈ linesOf source, line.isBlank = true) → At source.length source'.length) :
    Together At Eq (titleOf source) (titleOf source') := by
  have hvisible : Option.Rel (fun line line' => ∃ inside, R inside line line')
      ((linesOf source).find? fun line => !line.isBlank)
      ((linesOf source').find? fun line => !line.isBlank) := by
    apply rel_find?_of_forall₂ h.forall₂
    intro line line' hline
    obtain ⟨inside, hline⟩ := hline
    rw [(hR _ _ _ hline).isBlank]
  unfold Spec.titleOf
  cases hfound : (linesOf source).find? fun line => !line.isBlank with
  | none =>
    rw [hfound] at hvisible
    cases hfound' : (linesOf source').find? fun line => !line.isBlank with
    | some line' =>
      rw [hfound'] at hvisible
      cases hvisible
    | none => exact .error (hblank (by simpa using hfound))
  | some line =>
    rw [hfound] at hvisible
    cases hfound' : (linesOf source').find? fun line => !line.isBlank with
    | none =>
      rw [hfound'] at hvisible
      cases hvisible
    | some line' =>
      rw [hfound'] at hvisible
      cases hvisible with
      | some hline =>
        obtain ⟨inside, hline⟩ := hline
        simp only [(hR _ _ _ hline).title]
        cases title? line'.trimmed with
        | none => exact .error (hAt _ _ _ hline)
        | some title => exact .ok rfl

theorem together_checkPreamble (titled : Bool)
    (h : List.Forall₂ (fun line line' => ∃ inside, R inside line line') lines lines') :
    Together At (fun _ _ => True) (checkPreamble titled lines) (checkPreamble titled lines') := by
  induction h with
  | nil => exact .ok trivial
  | cons hline _ ih =>
    obtain ⟨inside, hline⟩ := hline
    rw [checkPreamble, checkPreamble, (hR _ _ _ hline).isBlank, (hR _ _ _ hline).title]
    split
    · exact ih
    · exact .error (hAt _ _ _ hline)

theorem together_checkOrder (separated : Bool)
    (h : List.Forall₂ (SectionsAlongside R source source') sections sections') :
    Together At (fun _ _ => True) (checkOrder separated (sections.map fun s => chunkOf s.1 s.2))
      (checkOrder separated (sections'.map fun s => chunkOf s.1 s.2)) := by
  induction h generalizing separated with
  | nil => exact .ok trivial
  | cons hs _ ih =>
    obtain ⟨inside, hline⟩ := hs.first
    rw [List.map_cons, List.map_cons, chunkOf, chunkOf, (hR _ _ _ hline).header]
    split
    · rw [checkOrder, checkOrder]
      split
      · exact .error (hAt _ _ _ hline)
      · exact ih false
    · rw [checkOrder, checkOrder]
      split
      · exact .error (hAt _ _ _ hline)
      · exact ih true

theorem together_section (expectations : Bool) {s s' : Line × List Line}
    (h : SectionsAlongside R source source' s s') :
    Together At (fun _ _ => True) (Section.of source expectations s.2)
      (Section.of source' expectations s'.2) := by
  have hitems := (h.lines.trimLines hR).itemsOf hR hAt fun line hline =>
    h.starts line ((trimLines_sublist _).subset hline)
  rw [section_eq, section_eq]
  exact hitems.map fun _ _ _ => trivial

theorem together_fileSections {P : Section → Section → Prop}
    (hP : ∀ s s' content content', SectionsAlongside R source source' s s' →
      Section.of source false s.2 = .ok content → Section.of source' false s'.2 = .ok content' →
      P content content')
    (h : List.Forall₂ (SectionsAlongside R source source') sections sections') :
    Together At (Table.Rel fun _ => P) (fileSections source (sections.map fun s => chunkOf s.1 s.2))
      (fileSections source' (sections'.map fun s => chunkOf s.1 s.2)) := by
  induction h with
  | nil => exact .ok .nil
  | @cons s s' _ _ hs _ ih =>
    obtain ⟨inside, hline⟩ := hs.first
    rw [List.map_cons, List.map_cons, chunkOf, chunkOf, (hR _ _ _ hline).header]
    split
    · have hcontent := (together_section hR hAt false hs).of_ok fun content content' =>
        hP s s' content content' hs
      exact hcontent.bind fun content content' hcontent => ih.bind fun files files' hfiles =>
        .ok (.cons ⟨rfl, hcontent⟩ hfiles)
    · exact ih

theorem together_expectationSection {Q : Section → Section → Prop}
    (hQ : ∀ s s' content content', SectionsAlongside R source source' s s' →
      Section.of source true s.2 = .ok content → Section.of source' true s'.2 = .ok content' →
      Q content content')
    (h : List.Forall₂ (SectionsAlongside R source source') sections sections') :
    Together At (Option.Rel Q) (expectationSection source (sections.map fun s => chunkOf s.1 s.2))
      (expectationSection source' (sections'.map fun s => chunkOf s.1 s.2)) := by
  induction h with
  | nil => exact .ok .none
  | @cons s s' _ _ hs _ ih =>
    obtain ⟨inside, hline⟩ := hs.first
    rw [List.map_cons, List.map_cons, chunkOf, chunkOf, (hR _ _ _ hline).header]
    split
    · exact ih
    · have hcontent := (together_section hR hAt true hs).of_ok fun content content' =>
        hQ s s' content content' hs
      exact hcontent.bind fun content content' hcontent => .ok (.some hcontent)

/-- Sources side by side have outlines that correspond, if their sections do in a file and among the
expectations. -/
theorem Alongside.outline {P Q : Section → Section → Prop}
    (h : Alongside R false (linesOf source) (linesOf source'))
    (hblank : (∀ line ∈ linesOf source, line.isBlank = true) → At source.length source'.length)
    (hP : ∀ s s' content content', SectionsAlongside R source source' s s' →
      Section.of source false s.2 = .ok content → Section.of source' false s'.2 = .ok content' →
      P content content')
    (hQ : ∀ s s' content content', SectionsAlongside R source source' s s' →
      Section.of source true s.2 = .ok content → Section.of source' true s'.2 = .ok content' →
      Q content content') (full : Bool) :
    Together At (OutlinesAlongside P Q) (Outline.of source full) (Outline.of source' full) := by
  have hsections := h.sectionsAlongside hR
  have hrest (title : Option String) :
      Together At (OutlinesAlongside P Q) (outlineWith source title) (outlineWith source' title) := by
    rw [outlineWith, outlineWith, chunksOf_eq, chunksOf_eq]
    refine (together_checkPreamble hR hAt _ (h.takeWhile hR).forall₂).bind fun _ _ _ => ?_
    refine (together_checkOrder hR hAt false hsections).bind fun _ _ _ => ?_
    refine (together_fileSections hR hAt hP hsections).bind fun files files' hfiles => ?_
    refine (together_expectationSection hR hAt hQ hsections).bind fun expected expected' hexpected => ?_
    exact .ok ⟨rfl, hfiles, hexpected⟩
  rw [outline_eq_bind, outline_eq_bind]
  cases full with
  | false => exact hrest none
  | true =>
    have htitle := (together_titleOf hR hAt h hblank).map (f := some) (g := some)
      fun _ _ heq => congrArg some heq
    refine htitle.bind fun title title' heq => ?_
    rw [heq]
    exact hrest title'

end Outlines

/-! ## Places -/

/-- Two lines of one number in their sources, which both have a break or are both the last one. -/
structure Line.SamePlace (source source' : List Char) (line line' : Line) : Prop where
  ends : line.break = line'.break
  number : ∃ k : Nat, (linesOf source)[k]? = some line ∧ (linesOf source')[k]? = some line'

theorem Line.SamePlace.placeAt {source source' : List Char} {line line' : Line}
    (h : line.SamePlace source source' line') (hindent : line.indent = line'.indent)
    (file : Option String) :
    placeAt source file line.textStart = placeAt source' file line'.textStart := by
  obtain ⟨k, hline, hline'⟩ := h.number
  rw [placeAt_textStart hline, placeAt_textStart hline', hindent]

/-- Lines that stand next to each other in sources of as many lines have the same place. -/
theorem forall₂_samePlace {source source' : List Char}
    (h : (linesOf source).length = (linesOf source').length) :
    List.Forall₂ (Line.SamePlace source source') (linesOf source) (linesOf source') := by
  rw [List.forall₂_iff_get]
  refine ⟨h, fun k hk hk' => ?_⟩
  have hline : (linesOf source)[k]? = some ((linesOf source).get ⟨k, hk⟩) := List.getElem?_eq_getElem hk
  have hline' : (linesOf source')[k]? = some ((linesOf source').get ⟨k, hk'⟩) :=
    List.getElem?_eq_getElem hk'
  constructor
  · rw [break_of_getElem? hline, break_of_getElem? hline', h]
  · exact ⟨k, hline, hline'⟩

end HotSpec.Spec
