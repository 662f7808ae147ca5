import HotSpec.Proofs.Spec.Grammar
import HotSpec.Proofs.Spec.Lines

/-!
# Nothing of a section is lost

The parts of a section are pieces of the source that stand one after the other.  Together they hold all
that is visible in the lines of the section, but for the markers of conditions and the lines that open
and close blocks, and each part belongs to the label under which its text was written.

Main definitions:

- `Outline.sections`: the sections of a source, in order.
- `LineKind.textFrom?`: where the text of a line starts that is its own.
- `Section.Faithful`: a section that holds what its lines say.

Main results:

- Theorem `outline_files`: the files and the expectations of a source are sections of its lines.
- Theorem `sections_faithful`: each section of a source holds what its lines say.
-/

namespace HotSpec.Spec

open HotSpec.Text

/-! ## Sections of a source -/

/-- The sections of a source, in order. -/
def Outline.sections (outline : Outline) : List Section :=
  outline.files.map Prod.snd ++ outline.expectations.toList

theorem infix_of_mem_sectionLines {lines : List Line} {s : Line × List Line}
    (h : s ∈ sectionLines lines) : s.2 <:+: lines := by
  induction lines with
  | nil => cases h
  | cons line lines ih =>
    rw [sectionLines] at h
    split at h
    · rcases List.mem_cons.mp h with rfl | h
      · exact (List.takeWhile_prefix _).isInfix.trans (List.suffix_cons _ _).isInfix
      · exact (ih h).trans (List.suffix_cons _ _).isInfix
    · exact (ih h).trans (List.suffix_cons _ _).isInfix

/-- A file of a spec, from the header and the lines of its section. -/
structure FileOf (source : List Char) (s : Line × List Line) (file : String × Section) : Prop where
  path : ∃ path, headerPath? s.1.trimmed = some path ∧ file.1 = String.ofList path
  content : Section.of source false s.2 = .ok file.2

theorem fileSections_eq_ok {source : List Char} {sections : List (Line × List Line)}
    {files : List (String × Section)} (hstarts : ∀ s ∈ sections, s.1.starts = true)
    (h : fileSections source (sections.map fun s => chunkOf s.1 s.2) = .ok files) :
    List.Forall₂ (FileOf source) (sections.filter (·.1.isHeader)) files := by
  induction sections generalizing files with
  | nil =>
    cases h
    exact .nil
  | cons s sections ih =>
    have ih {files} := @ih files fun s hs => hstarts s (List.mem_cons_of_mem _ hs)
    rw [List.map_cons] at h
    rcases chunkOf_cases (hstarts s List.mem_cons_self) s.2 with
      ⟨hheader, -, path, hpath, hchunk⟩ | ⟨hheader, -, hchunk⟩
    · rw [hchunk] at h
      obtain ⟨content, hcontent, h⟩ := ok_of_bind h
      obtain ⟨files, hfiles, heq⟩ := ok_of_bind h
      cases heq
      rw [List.filter_cons, if_pos hheader]
      exact .cons ⟨⟨path, hpath, rfl⟩, hcontent⟩ (ih hfiles)
    · rw [hchunk] at h
      rw [List.filter_cons_of_neg (by simp [hheader])]
      exact ih h

theorem expectationSection_eq_ok {source : List Char} {sections : List (Line × List Line)}
    {expectations : Option Section} (hstarts : ∀ s ∈ sections, s.1.starts = true)
    (h : expectationSection source (sections.map fun s => chunkOf s.1 s.2) = .ok expectations) :
    List.Forall₂ (fun s content => Section.of source true s.2 = .ok content)
      (sections.find? (·.1.separates)).toList expectations.toList := by
  induction sections with
  | nil =>
    cases h
    exact .nil
  | cons s sections ih =>
    have ih := ih fun s hs => hstarts s (List.mem_cons_of_mem _ hs)
    rw [List.map_cons] at h
    rcases chunkOf_cases (hstarts s List.mem_cons_self) s.2 with
      ⟨-, hseparates, path, -, hchunk⟩ | ⟨-, hseparates, hchunk⟩
    · rw [hchunk] at h
      rw [List.find?_cons_of_neg (by simp [hseparates])]
      exact ih h
    · rw [hchunk] at h
      obtain ⟨content, hcontent, heq⟩ := ok_of_bind h
      cases heq
      rw [List.find?_cons, hseparates]
      exact .cons hcontent .nil

/-- Where nothing follows the separator, its section is the last one. -/
theorem sections_eq {sections : List (Line × List Line)} (hstarts : ∀ s ∈ sections, s.1.starts = true)
    (horder : sections.Pairwise fun first _ => first.1.separates = false) :
    sections = sections.filter (·.1.isHeader) ++ (sections.find? (·.1.separates)).toList := by
  induction sections with
  | nil => rfl
  | cons s sections ih =>
    obtain ⟨hfirst, horder⟩ := List.pairwise_cons.mp horder
    have ih := ih (fun s hs => hstarts s (List.mem_cons_of_mem _ hs)) horder
    rcases chunkOf_cases (hstarts s List.mem_cons_self) s.2 with
      ⟨hheader, hseparates, -⟩ | ⟨hheader, hseparates, -⟩
    · rw [List.filter_cons, if_pos hheader, List.find?_cons_of_neg (by simp [hseparates]),
        List.cons_append, ← ih]
    · obtain rfl : sections = [] := List.eq_nil_iff_forall_not_mem.mpr fun next hnext => by
        simpa [hseparates] using hfirst next hnext
      simp [hheader, hseparates]

/-- The files and the expectations of a source are the sections of its headers and of its separator. -/
theorem outline_files {source : List Char} {full : Bool} {outline : Outline}
    (h : Outline.of source full = .ok outline) :
    List.Forall₂ (FileOf source) ((sectionLines (linesOf source)).filter (·.1.isHeader))
        outline.files ∧
      List.Forall₂ (fun s content => Section.of source true s.2 = .ok content)
        ((sectionLines (linesOf source)).find? (·.1.separates)).toList
        outline.expectations.toList := by
  have hstarts : ∀ s ∈ sectionLines (linesOf source), s.1.starts = true :=
    fun s => starts_of_mem_sectionLines
  rw [outline_eq_bind] at h
  obtain ⟨title, -, h⟩ := ok_of_bind h
  obtain ⟨-, hfiles, hexpectations⟩ := outlineWith_eq_ok h
  rw [chunksOf_eq] at hfiles hexpectations
  exact ⟨fileSections_eq_ok hstarts hfiles, expectationSection_eq_ok hstarts hexpectations⟩

/-! ## Text of a section -/

/-- Where the text of a line starts that is its own; lines that open and close blocks have none. -/
def LineKind.textFrom? (line : Line) : LineKind → Option Nat
  | .plain | .inner _ => some 0
  | .condition _ marker => some (line.indent + marker)
  | .opener _ | .closer | .stray => none

/-- The label that a line brings into its section. -/
def LineKind.brings? : LineKind → Option String
  | .condition label _ | .opener label => some label
  | .plain | .inner _ | .closer | .stray => none

/-- A section that holds what its lines say: its parts are pieces of the source, one after the other;
what is visible of the text of a line is in exactly one part, which has the label of the line; and its
labels are those that its lines bring into it. -/
structure Section.Faithful (source : List Char) (lines : List Line) (s : Section) : Prop where
  parts : ∀ p ∈ s.parts, p.Laid source
  apart : s.parts.Pairwise fun p q => p.stop ≤ q.start
  cover : ∀ line kind k, (line, kind) ∈ readLines none lines → kind.textFrom? line = some k →
    ∀ i c, line.start + k ≤ i → i < line.finish → source[i]? = some c → isBlank c = false →
      ∃ p ∈ s.parts, p.Covers i ∧ p.label = kind.label? ∧ ∀ q ∈ s.parts, q.Covers i → q = p
  labels : s.labels = ((readLines none lines).filterMap (·.2.brings?)).eraseDups

/-- No line of a section ends behind its last one. -/
theorem next_le_last {size : Nat} {lines : List Line} {last line : Line}
    (hfits : ∀ line ∈ lines, line.Fits size) (happart : lines.Pairwise fun a b => a.next ≤ b.start)
    (hlast : lines.getLast? = some last) (hline : line ∈ lines) : line.next ≤ last.next := by
  obtain ⟨front, rfl⟩ := List.getLast?_eq_some_iff.mp hlast
  rcases List.mem_append.mp hline with hfront | heq
  · have hle := (List.pairwise_append.mp happart).2.2 line hfront last (List.mem_singleton_self _)
    have hfinish := (hfits last (by simp)).finish
    have hnext := (hfits last (by simp)).next
    omega
  · rw [List.mem_singleton.mp heq]

/-- What is visible of the text of an item is in one of its parts. -/
theorem Cut.covers_partsOf {cut : Cut} {source : List Char} {item : Item} {line : Line}
    {kind : LineKind} {k i : Nat} {c : Char} (hin : ∀ line ∈ item.lines, line.In source)
    (happart : item.lines.Pairwise fun a b => a.next ≤ b.start) (hrow : (line, kind) ∈ item.read)
    (hfrom : kind.textFrom? line = some k) (hk : line.start + k ≤ i) (hi : i < line.finish)
    (hc : source[i]? = some c) (hvisible : isBlank c = false) :
    ∃ p ∈ cut.partsOf item, p.Covers i ∧ p.label = kind.label? := by
  have hbehind (hline : line.In source) : cut.startOf line ≤ i := by
    have hindent := hline.indent_le (by omega) hi hc hvisible
    unfold Cut.startOf
    omega
  have hend (l : Line) (hl : l.In source) : l.finish ≤ cut.endOf l := by
    have hnext := hl.finish_le
    unfold Cut.endOf
    split <;> omega
  cases item with
  | plain l =>
    obtain ⟨rfl, rfl⟩ := Prod.mk.inj (List.mem_singleton.mp hrow)
    have hline := hin line (List.mem_singleton_self _)
    exact ⟨_, List.mem_singleton_self _, ⟨hbehind hline, Nat.lt_of_lt_of_le hi (hend line hline)⟩, rfl⟩
  | condition label marker l =>
    obtain ⟨rfl, rfl⟩ := Prod.mk.inj (List.mem_singleton.mp hrow)
    cases hfrom
    have hline := hin line (List.mem_singleton_self _)
    refine ⟨_, List.mem_singleton_self _, ⟨?_, Nat.lt_of_lt_of_le hi (hend line hline)⟩, rfl⟩
    simp only [Cut.part, Line.textStart]
    omega
  | block label title opener inner =>
    rcases List.mem_cons.mp hrow with heq | hinner
    · cases heq
      cases hfrom
    · obtain ⟨l, hmem, heq⟩ := List.mem_map.mp hinner
      obtain ⟨rfl, rfl⟩ := Prod.mk.inj heq
      have hlines (a : Line) (ha : a ∈ inner) := hin a (List.mem_cons_of_mem _ ha)
      have happart := (List.pairwise_cons.mp happart).2
      by_cases hcut : cut.expectations = true
      · cases inner with
        | nil => cases hmem
        | cons first rest =>
          have hlast : (first :: rest).getLast? = some ((first :: rest).getLastD first) := by
            rw [List.getLastD_eq_getLast?, List.getLast?_cons]
            rfl
          have hle := next_le_last (fun a ha => (hlines a ha).fits) happart hlast hmem
          have hfinish := (hlines l hmem).finish_le
          have hfirst : cut.startOf first ≤ i := by
            rcases List.mem_cons.mp hmem with rfl | hrest
            · exact hbehind (hlines l List.mem_cons_self)
            · have hstart := cut.startOf_le (hlines first List.mem_cons_self).fits
              have hnext := (hlines first List.mem_cons_self).finish_le
              have hapart := (List.pairwise_cons.mp happart).1 l hrest
              omega
          refine ⟨cut.part (cut.startOf first) (cut.endOf ((first :: rest).getLastD first))
            (some label) true title, by simp [Cut.partsOf, hcut], ⟨hfirst, ?_⟩, rfl⟩
          simp only [Cut.part, Cut.endOf, hcut, Bool.true_or, if_true]
          omega
      · exact ⟨cut.part (cut.startOf l) (cut.endOf l) (some label) true title,
          by simp only [Cut.partsOf, hcut]; exact List.mem_map_of_mem hmem,
          ⟨hbehind (hlines l hmem), Nat.lt_of_lt_of_le hi (hend l (hlines l hmem))⟩, rfl⟩

/-! ## Sections -/

/-- The label of an item is the one that its lines bring. -/
theorem brings_read (item : Item) :
    item.read.filterMap (·.2.brings?) = item.label?.toList := by
  cases item with
  | plain line => rfl
  | condition label marker line => rfl
  | block label title opener inner =>
    have hinner : (inner.map fun l => (l, LineKind.inner label)).filterMap (·.2.brings?) = [] := by
      simp [LineKind.brings?]
    rw [Item.read, List.filterMap_cons, hinner]
    rfl

/-- The labels that lines bring are those of their items. -/
theorem filterMap_brings {lines : List Line} {items : List Item} (h : itemsOf lines = .ok items) :
    (readLines none lines).filterMap (·.2.brings?) = items.filterMap Item.label? := by
  have hclosers : (readLines none lines).filterMap (·.2.brings?) =
      ((readLines none lines).filter (·.2 ≠ .closer)).filterMap (·.2.brings?) := by
    rw [List.filterMap_filter]
    apply List.filterMap_congr
    rintro ⟨line, kind⟩ -
    cases kind <;> rfl
  rw [hclosers, itemsOf_eq_ok h, List.filterMap_flatMap]
  simp only [brings_read]
  exact (List.filterMap_eq_flatMap_toList _ _).symm

/-- How the parts of a section are cut. -/
def cutOf (source : List Char) (expectations : Bool) (lines : List Line) : Cut :=
  ⟨source, commonIndent (trimLines lines), expectations,
    ((trimLines lines).getLast?.map Line.start).getD 0⟩

/-- A section is made of the items of its lines, without the blank lines at its ends. -/
theorem section_eq (source : List Char) (expectations : Bool) (lines : List Line) :
    Section.of source expectations lines = (itemsOf (trimLines lines)).map fun items =>
      ⟨items.flatMap (cutOf source expectations lines).partsOf,
        (items.filterMap Item.label?).eraseDups⟩ := by
  unfold Section.of
  simp only
  split
  · next hnone =>
    rw [List.getLast?_eq_none_iff.mp hnone, itemsOf]
    rfl
  · next last hlast =>
    rw [cutOf, hlast]
    cases itemsOf (trimLines lines) <;> rfl

theorem section_eq_ok {source : List Char} {expectations : Bool} {lines : List Line} {s : Section}
    (h : Section.of source expectations lines = .ok s) : ∃ items,
      itemsOf (trimLines lines) = .ok items ∧
      s.parts = items.flatMap (cutOf source expectations lines).partsOf ∧
      s.labels = (items.filterMap Item.label?).eraseDups := by
  rw [section_eq] at h
  cases hitems : itemsOf (trimLines lines) with
  | error refusal =>
    rw [hitems] at h
    cases h
  | ok items =>
    rw [hitems] at h
    cases h
    exact ⟨items, rfl, rfl, rfl⟩

/-- The section of lines that follow each other holds what they say. -/
theorem faithful_section {source : List Char} {expectations : Bool} {lines : List Line} {s : Section}
    (hlines : lines <:+: linesOf source) (h : Section.of source expectations lines = .ok s) :
    s.Faithful source lines := by
  obtain ⟨items, hitems, hparts, hlabels⟩ := section_eq_ok h
  obtain ⟨front, back, hread, hblank⟩ := readLines_trimLines lines
  have hin (line : Line) (hline : line ∈ lines) : line.In source := linesOf_in (hlines.subset hline)
  have hsub : (items.flatMap Item.lines).Sublist (linesOf source) :=
    (itemsOf_lines hitems).trans ((trimLines_sublist lines).trans hlines.sublist)
  have hfits (line : Line) (hline : line ∈ items.flatMap Item.lines) : line.Fits source.length :=
    (linesOf_in (hsub.subset hline)).fits
  have happart := ((linesOf_spec source).2).sublist hsub
  obtain ⟨hspans, hapart⟩ := @Cut.spans_flatMap (cutOf source expectations lines) _ _ hfits happart
  have hrows := itemsOf_eq_ok hitems
  constructor
  · intro p hp
    rw [hparts] at hp
    obtain ⟨item, hitem, hp⟩ := hspans p hp
    obtain ⟨line, hline, hstop⟩ := hp.last
    have hsize := (hfits line (List.mem_flatMap.mpr ⟨item, hitem, hline⟩)).size
    exact ⟨hp.text, hp.le, Nat.le_trans hstop hsize⟩
  · rwa [hparts]
  · intro line kind k hrow hfrom i c hk hi hc hvisible
    have hline : line ∈ lines := by
      rw [← readLines_map_fst none lines]
      exact List.mem_map_of_mem hrow
    rw [hread, List.mem_append, List.mem_append] at hrow
    -- a blank line has no visible character
    have hmiddle : (line, kind) ∈ readLines none (trimLines lines) := by
      have hnot : (line, kind) ∉ front ++ back := fun hmem => by
        have hall := (hblank _ hmem).1
        rw [(hin line hline).getElem? (by omega) hi] at hc
        have hc := List.all_eq_true.mp hall c (List.mem_of_getElem? hc)
        rw [hvisible] at hc
        cases hc
      rw [List.mem_append, not_or] at hnot
      exact (hrow.resolve_left hnot.1).resolve_right hnot.2
    have hcloser : kind ≠ .closer := by
      rintro rfl
      cases hfrom
    have hmem : (line, kind) ∈ items.flatMap Item.read := by
      rw [← hrows, List.mem_filter]
      exact ⟨hmiddle, by simpa using hcloser⟩
    obtain ⟨item, hitem, hrow⟩ := List.mem_flatMap.mp hmem
    have hitemLines : item.lines.Sublist (items.flatMap Item.lines) :=
      List.sublist_flatten_of_mem (List.mem_map_of_mem hitem)
    obtain ⟨p, hp, hcovers, hlabel⟩ := @Cut.covers_partsOf (cutOf source expectations lines) _ _ _ _
      _ _ _ (fun l hl => linesOf_in (hsub.subset (hitemLines.subset hl))) (happart.sublist hitemLines) hrow
      hfrom hk hi hc hvisible
    have hp : p ∈ s.parts := hparts ▸ List.mem_flatMap.mpr ⟨item, hitem, hp⟩
    exact ⟨p, hp, hcovers, hlabel, fun q hq hqi => eq_of_covers (hparts ▸ hapart) hp hq hcovers hqi⟩
  · have hnone (rows : List (Line × LineKind)) (hrows : ∀ row ∈ rows, row.2.IsText) :
        rows.filterMap (·.2.brings?) = [] := by
      rw [List.filterMap_eq_nil_iff]
      intro row hrow
      rcases hrows row hrow with hplain | ⟨label, hinner⟩
      · rw [hplain]; rfl
      · rw [hinner]; rfl
    rw [hlabels, hread, List.filterMap_append, List.filterMap_append,
      hnone front fun row hrow => (hblank row (List.mem_append_left _ hrow)).2,
      hnone back fun row hrow => (hblank row (List.mem_append_right _ hrow)).2, List.nil_append,
      List.append_nil, filterMap_brings hitems]

/-- Each section of a source holds what its lines say: the files those of its headers, and the
expectations those of its separator. -/
theorem sections_faithful {source : List Char} {full : Bool} {outline : Outline}
    (h : Outline.of source full = .ok outline) :
    List.Forall₂ (fun s content => Section.Faithful source s.2 content)
      (sectionLines (linesOf source)) outline.sections := by
  have horder : (sectionLines (linesOf source)).Pairwise fun first _ => first.1.separates = false := by
    rcases decides_outline source full with ⟨_, -, hwell⟩ | ⟨refusal, herror, -⟩
    · exact hwell.order
    · rw [h] at herror
      cases herror
  obtain ⟨hfiles, hexpectations⟩ := outline_files h
  have hsections := sections_eq (fun s hs => starts_of_mem_sectionLines hs) horder
  have hlines {s : Line × List Line} (hs : s ∈ (sectionLines (linesOf source)).filter (·.1.isHeader) ++
      ((sectionLines (linesOf source)).find? (·.1.separates)).toList) : s.2 <:+: linesOf source :=
    infix_of_mem_sectionLines (hsections ▸ hs)
  rw [hsections]
  refine List.rel_append ?_ ?_
  · rw [List.forall₂_map_right_iff]
    refine ((List.forall₂_and_left _ _).mpr ⟨fun s hs => hlines (List.mem_append_left _ hs), hfiles⟩).imp ?_
    rintro s file ⟨hs, hfile⟩
    exact faithful_section hs hfile.content
  · refine ((List.forall₂_and_left _ _).mpr
      ⟨fun s hs => hlines (List.mem_append_right _ hs), hexpectations⟩).imp ?_
    rintro s content ⟨hs, hof⟩
    exact faithful_section hs hof

/-- A file with a condition, and expectations with a block. -/
def labelledSource : List Char :=
  "---- a.html ----\n  <b>\n  ::1 on\n***\n\n::1:: block\n  <p>\n\n  </p>\n::::\n::2 <i>".toList

theorem sections_faithful_labelled : ∃ outline file expectations,
    Outline.of labelledSource false = .ok outline ∧ outline.sections = [file, expectations] ∧
      file.labels = ["1"] ∧ expectations.labels = ["1", "2"] ∧
      ∃ first second, sectionLines (linesOf labelledSource) = [first, second] ∧
        file.Faithful labelledSource first.2 ∧ expectations.Faithful labelledSource second.2 := by
  have hlabels : (Outline.of labelledSource false).toOption.map
      (fun outline => outline.sections.map Section.labels) = some [["1"], ["1", "2"]] := by
    decide +kernel
  cases houtline : Outline.of labelledSource false with
  | error refusal =>
    rw [houtline] at hlabels
    cases hlabels
  | ok outline =>
    rw [houtline] at hlabels
    have hlabels : outline.sections.map Section.labels = [["1"], ["1", "2"]] := Option.some.inj hlabels
    obtain ⟨file, rest, hsections, hfile, hrest⟩ := List.map_eq_cons_iff.mp hlabels
    obtain ⟨expectations, rest, rfl, hexpectations, hnil⟩ := List.map_eq_cons_iff.mp hrest
    obtain rfl := List.map_eq_nil_iff.mp hnil
    have hfaithful := sections_faithful houtline
    rw [hsections] at hfaithful
    obtain ⟨first, lines, hfirst, hlines, heq⟩ := List.forall₂_cons_right_iff.mp hfaithful
    obtain ⟨second, rest, hsecond, hrest, rfl⟩ := List.forall₂_cons_right_iff.mp hlines
    obtain rfl := List.forall₂_nil_right_iff.mp hrest
    exact ⟨outline, file, expectations, rfl, hsections, hfile, hexpectations, first, second, heq,
      hfirst, hsecond⟩

end HotSpec.Spec
