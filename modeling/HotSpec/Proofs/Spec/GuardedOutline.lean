import HotSpec.Proofs.Spec.Denotation
import HotSpec.Proofs.Spec.Guarded

/-!
# Sections without mishap

A source is cut into sections within the guards: lines that are trimmed end in one that is not blank, so
they have a common indentation; the parts of a section are pieces of its source; and neither a label nor
the path of a file is empty.

Main definitions:

- `Section.Valid`: a section whose parts are pieces of its source and whose labels are not empty.
- `Chunk.In`: a chunk that stands in a source.

Main results:

- Theorem `Guarded.sectionOf_eq`: no guard is reached where a section is cut into parts.
- Theorem `Guarded.outline_eq`: none is reached where a source is cut into sections.
-/

namespace HotSpec.Spec

open HotSpec.Text

/-! ## Sections -/

/-- Lines that are trimmed end in a line that is not blank. -/
theorem isBlank_of_getLast? {lines : List Line} {last : Line}
    (h : (trimLines lines).getLast? = some last) : last.isBlank = false := by
  have hnot := List.head?_dropWhile_not Line.isBlank (lines.dropWhile Line.isBlank).reverse
  rw [trimLines, List.getLast?_reverse] at h
  rw [h] at hnot
  exact hnot

/-- The parts of an item have its label. -/
theorem Cut.label_of_mem {cut : Cut} {item : Item} {p : Part} (h : p ∈ cut.partsOf item) :
    p.label = item.label? := by
  cases item with
  | plain line => simp_all [partsOf, Item.label?]
  | condition label marker line => simp_all [partsOf, Item.label?]
  | block label title opener inner =>
    by_cases hcut : cut.expectations = true
    · cases inner <;> simp_all [partsOf, Item.label?]
    · simp only [partsOf, hcut] at h
      obtain ⟨line, -, rfl⟩ := List.mem_map.mp h
      rfl

/-- The labels of a section are not empty. -/
theorem Section.Faithful.label_ne {source : List Char} {lines : List Line} {s : Section}
    (h : s.Faithful source lines) {label : String} (hlabel : label ∈ s.labels) : label ≠ "" := by
  rw [h.labels, List.mem_eraseDups, List.mem_filterMap] at hlabel
  obtain ⟨row, hrow, hbrings⟩ := hlabel
  have hne := (isLabel_of_brings? hrow hbrings).ne_nil
  simpa using hne

/-- A section whose parts are pieces of its source, and which has their labels, none of them empty. -/
structure Section.Valid (source : List Char) (s : Section) : Prop where
  parts : ∀ p ∈ s.parts, p.Laid source
  labels : ∀ label ∈ s.labels, label ≠ ""
  label : ∀ p ∈ s.parts, ∀ label, p.label = some label → label ∈ s.labels

theorem valid_section {source : List Char} {expectations : Bool} {lines : List Line} {s : Section}
    (hlines : lines <:+: linesOf source) (h : Section.of source expectations lines = .ok s) :
    s.Valid source := by
  have hfaithful := faithful_section hlines h
  obtain ⟨items, -, hparts, hlabels⟩ := section_eq_ok h
  constructor
  · exact hfaithful.parts
  · exact fun label => hfaithful.label_ne
  · intro p hp label hlabel
    rw [hparts] at hp
    obtain ⟨item, hitem, hp⟩ := List.mem_flatMap.mp hp
    rw [hlabels, List.mem_eraseDups, List.mem_filterMap]
    exact ⟨item, hitem, (Cut.label_of_mem hp).symm.trans hlabel⟩

namespace Guarded

variable {ε : Type}

theorem indentOf_eq {lines : List Line} {line : Line} (hline : line ∈ lines)
    (hvisible : line.isBlank = false) : (indentOf lines : Guarded ε Nat) = .ok (commonIndent lines) := by
  have hindents : ((lines.filter fun line => !line.isBlank).mapM fun line =>
      minus line.text.length (trimStart line.text).length) =
        (.ok ((lines.filter fun line => !line.isBlank).map Line.indent) : Guarded ε (List Nat)) :=
    mapM_eq_ok fun line _ => minus_eq_ok (List.dropWhile_sublist _).length_le
  have hmem : line.indent ∈ (lines.filter fun line => !line.isBlank).map Line.indent := by
    apply List.mem_map_of_mem
    simp [hline, hvisible]
  unfold indentOf commonIndent
  rw [hindents]
  cases hall : (lines.filter fun line => !line.isBlank).map Line.indent with
  | nil => simp [hall] at hmem
  | cons n ns =>
    rw [ok_bind, List.min?_cons']
    rfl

theorem part_eq {source : List Char} {p : Part} (hlaid : p.Laid source) (hlabel : p.label ≠ some "") :
    (part source p : Guarded ε Part) = .ok p := by
  unfold part
  rw [slice_eq_ok hlaid.le hlaid.size, ← hlaid.text]
  obtain ⟨label, text, start, stop, block, title⟩ := p
  cases label with
  | none => rfl
  | some label =>
    have hnamed : (named label : Guarded ε String) = .ok label := by
      apply named_eq_ok
      simpa using hlabel
    simp [hnamed, bind, Except.bind, pure, Except.pure]

/-- No guard is reached where a section is cut into parts. -/
theorem sectionOf_eq {source : List Char} {lines : List Line} (expectations : Bool)
    (hlines : lines <:+: linesOf source) :
    sectionOf source expectations lines = lift (Section.of source expectations lines) := by
  rw [section_eq]
  unfold sectionOf
  cases hlast : (trimLines lines).getLast? with
  | none =>
    rw [List.getLast?_eq_none_iff.mp hlast, itemsOf]
    rfl
  | some last =>
    have hcut : cutOf source expectations lines =
        ⟨source, commonIndent (trimLines lines), expectations, last.start⟩ := by
      simp [cutOf, hlast]
    simp only [indentOf_eq (List.mem_of_getLast? hlast) (isBlank_of_getLast? hlast), ok_bind]
    cases hitems : itemsOf (trimLines lines) with
    | error refusal => rfl
    | ok items =>
      have hvalid : Section.Valid source ⟨items.flatMap (cutOf source expectations lines).partsOf,
          (items.filterMap Item.label?).eraseDups⟩ := by
        apply valid_section hlines
        rw [section_eq, hitems]
        rfl
      have hparts := mapM_eq_ok fun p hp => @part_eq Refusal _ _ (hvalid.parts p hp) fun hempty =>
        hvalid.labels _ (hvalid.label p hp _ hempty) rfl
      have hlabels := mapM_eq_ok fun label hlabel =>
        @named_eq_ok Refusal label (hvalid.labels label hlabel)
      simp only [List.map_id', hcut] at hparts hlabels
      simp only [lift_ok, ok_bind, hparts, hlabels, hcut]
      rfl

end Guarded

/-! ## Outlines -/

/-- The path of a header is not empty. -/
theorem ne_nil_of_headerPath? {text path : List Char} (h : headerPath? text = some path) : path ≠ [] := by
  unfold headerPath? at h
  simp only at h
  obtain ⟨rest, -, h⟩ := List.exists_of_findSome?_eq_some h
  obtain ⟨size, hfind, rfl⟩ := Option.map_eq_some_iff.mp h
  have hpath := List.find?_some hfind
  intro hnil
  simp [isPathOf, hnil] at hpath

/-- A chunk of a source: its lines are there, and its path is not empty. -/
def Chunk.In (source : List Char) : Chunk → Prop
  | .file _ path body => path ≠ "" ∧ body <:+: linesOf source
  | .expectations _ body => body <:+: linesOf source

theorem in_of_mem_chunksOf {source : List Char} {chunk : Chunk}
    (h : chunk ∈ (chunksOf (linesOf source)).2) : chunk.In source := by
  rw [chunksOf_eq] at h
  obtain ⟨s, hs, rfl⟩ := List.mem_map.mp h
  have hlines := infix_of_mem_sectionLines hs
  unfold chunkOf
  cases hpath : headerPath? s.1.trimmed with
  | none => exact hlines
  | some path =>
    have hne := ne_nil_of_headerPath? hpath
    exact ⟨by simpa using hne, hlines⟩

namespace Guarded

theorem fileSections_eq {source : List Char} {chunks : List Chunk}
    (h : ∀ chunk ∈ chunks, chunk.In source) :
    fileSections source chunks = lift (Spec.fileSections source chunks) := by
  induction chunks with
  | nil => rfl
  | cons chunk chunks ih =>
    have hrest := ih fun c hc => h c (List.mem_cons_of_mem _ hc)
    have hchunk := h chunk List.mem_cons_self
    cases chunk with
    | expectations line body => exact hrest
    | file line path body =>
      rw [fileSections, Spec.fileSections, named_eq_ok hchunk.1, ok_bind, sectionOf_eq false hchunk.2]
      apply lift_bind
      intro content _
      rw [hrest]
      apply lift_bind
      intro files _
      rfl

theorem expectationSection_eq {source : List Char} {chunks : List Chunk}
    (h : ∀ chunk ∈ chunks, chunk.In source) :
    expectationSection source chunks = lift (Spec.expectationSection source chunks) := by
  induction chunks with
  | nil => rfl
  | cons chunk chunks ih =>
    cases chunk with
    | file line path body => exact ih fun c hc => h c (List.mem_cons_of_mem _ hc)
    | expectations line body =>
      rw [expectationSection, Spec.expectationSection, sectionOf_eq true (h _ List.mem_cons_self)]
      apply lift_bind
      intro content _
      rfl

/-- No guard is reached where a source is cut into sections. -/
theorem outline_eq (source : List Char) (full : Bool) :
    outline source full = lift (Outline.of source full) := by
  rw [outline, outline_eq_bind]
  apply lift_bind
  intro title _
  unfold outlineWith
  apply lift_bind
  intro _ _
  apply lift_bind
  intro _ _
  rw [fileSections_eq fun _ => in_of_mem_chunksOf]
  apply lift_bind
  intro files _
  rw [expectationSection_eq fun _ => in_of_mem_chunksOf]
  apply lift_bind
  intro expectations _
  rfl

end Guarded

end HotSpec.Spec
