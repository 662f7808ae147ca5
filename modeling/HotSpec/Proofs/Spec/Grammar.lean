import HotSpec.Proofs.Spec.Reading
import HotSpec.Spec.Compile

/-!
# The language of specs

Which sources have an outline.  A source is looked at line by line: its headers and separators start
sections, nothing but blank lines and titles stands in front of the first section, no section follows
the separator, and the lines of each section are balanced.

Main definitions:

- `sectionLines`: the lines that start a section, each with the lines of its section.
- `WellFormed`: the lines of a source that has an outline.

Main results:

- Theorem `chunksOf_eq`: the chunks of lines are their sections.
- Theorem `outline_iff_wellFormed`: a source has an outline exactly if its lines are well formed, and
  all else is a fault of the grammar.
-/

namespace HotSpec.Spec

/-! ## Sections -/

/-- Whether a line is a file header. -/
def Line.isHeader (line : Line) : Bool := (headerPath? line.trimmed).isSome

/-- Whether a line is a separator. -/
def Line.separates (line : Line) : Bool := isSeparator line.trimmed

/-- Whether a line is a title. -/
def Line.isTitle (line : Line) : Bool := (title? line.trimmed).isSome

/-- Whether a line starts a section. -/
def Line.starts (line : Line) : Bool := line.isHeader || line.separates

/-- The lines that start a section, each with the lines up to the next one. -/
def sectionLines : List Line → List (Line × List Line)
  | [] => []
  | line :: lines =>
    if line.starts then (line, lines.takeWhile (!·.starts)) :: sectionLines lines
    else sectionLines lines

/-- A separator is no header. -/
theorem Line.isHeader_of_separates {line : Line} (h : line.separates = true) :
    line.isHeader = false := by
  unfold separates isSeparator at h
  cases htext : line.trimmed with
  | nil =>
    rw [htext] at h
    simp at h
  | cons c text =>
    rw [htext] at h
    obtain rfl : c = '*' := by
      simp only [List.head?_cons, Bool.and_eq_true, beq_iff_eq, Option.some.injEq] at h
      exact h.1.1
    rw [isHeader, htext]
    rfl

/-- The chunk of a line that starts a section. -/
def chunkOf (line : Line) (body : List Line) : Chunk :=
  match headerPath? line.trimmed with
  | some path => .file line (String.ofList path) body
  | none => .expectations line body

/-- The chunks of lines are their sections, behind the lines that belong to none. -/
theorem chunksOf_eq (lines : List Line) : chunksOf lines =
    (lines.takeWhile (!·.starts), (sectionLines lines).map fun s => chunkOf s.1 s.2) := by
  induction lines with
  | nil => rfl
  | cons line lines ih =>
    rw [chunksOf, ih]
    cases hpath : headerPath? line.trimmed with
    | some path =>
      have hstarts : line.starts = true := by simp [Line.starts, Line.isHeader, hpath]
      simp [hpath, sectionLines, hstarts, chunkOf]
    | none =>
      have hstarts : line.starts = line.separates := by simp [Line.starts, Line.isHeader, hpath]
      cases hseparates : line.separates with
      | true =>
        have hs : isSeparator line.trimmed = true := hseparates
        simp [hpath, sectionLines, hstarts, hseparates, hs, chunkOf]
      | false =>
        have hs : isSeparator line.trimmed = false := hseparates
        simp [sectionLines, hstarts, hseparates, hs]

theorem starts_of_mem_sectionLines {lines : List Line} {s : Line × List Line}
    (h : s ∈ sectionLines lines) : s.1.starts = true := by
  induction lines with
  | nil => cases h
  | cons line lines ih =>
    rw [sectionLines] at h
    split at h
    · next hstarts =>
      rcases List.mem_cons.mp h with rfl | h
      · exact hstarts
      · exact ih h
    · exact ih h

/-- What starts a section is a header or else a separator. -/
theorem chunkOf_cases {line : Line} (h : line.starts = true) (body : List Line) :
    (line.isHeader = true ∧ line.separates = false ∧
      ∃ path, headerPath? line.trimmed = some path ∧
        chunkOf line body = .file line (String.ofList path) body) ∨
    (line.isHeader = false ∧ line.separates = true ∧ chunkOf line body = .expectations line body) := by
  unfold chunkOf
  cases hpath : headerPath? line.trimmed with
  | some path =>
    have hheader : line.isHeader = true := by simp [Line.isHeader, hpath]
    refine .inl ⟨hheader, ?_, path, rfl, rfl⟩
    cases hseparates : line.separates with
    | false => rfl
    | true => rw [Line.isHeader_of_separates hseparates] at hheader; cases hheader
  | none =>
    have hheader : line.isHeader = false := by simp [Line.isHeader, hpath]
    exact .inr ⟨hheader, by simpa [Line.starts, hheader] using h, rfl⟩

/-! ## Well-formed sources -/

/-- The lines of a source that has an outline.  Titles in front of the first section are for full
specs, which start with one. -/
structure WellFormed (full : Bool) (lines : List Line) : Prop where
  title : full = true → ∃ line, lines.find? (!·.isBlank) = some line ∧ line.isTitle = true
  preamble : ∀ line ∈ lines.takeWhile (!·.starts),
    line.isBlank = true ∨ full = true ∧ line.isTitle = true
  order : (sectionLines lines).Pairwise fun first _ => first.1.separates = false
  sections : ∀ s ∈ sectionLines lines, Balanced (readLines none s.2)

theorem decides_titleOf (source : List Char) : Decides (titleOf source)
    (∃ line, (linesOf source).find? (!·.isBlank) = some line ∧ line.isTitle = true) := by
  unfold titleOf
  cases hfind : (linesOf source).find? fun line => !line.isBlank with
  | none => exact .error rfl (by simp)
  | some line =>
    simp only
    cases htitle : title? line.trimmed with
    | none => exact .error rfl (by simp [Line.isTitle, htitle])
    | some title => exact .ok _ ⟨line, rfl, by simp [Line.isTitle, htitle]⟩

theorem decides_checkPreamble (titled : Bool) (lines : List Line) :
    Decides (checkPreamble titled lines)
      (∀ line ∈ lines, line.isBlank = true ∨ titled = true ∧ line.isTitle = true) := by
  induction lines with
  | nil => exact .ok _ (by simp)
  | cons line lines ih =>
    rw [checkPreamble]
    have hline : (line.isBlank || titled && (title? line.trimmed).isSome) = true ↔
        (line.isBlank = true ∨ titled = true ∧ line.isTitle = true) := by
      simp [Line.isTitle]
    by_cases hpasses : line.isBlank = true ∨ titled = true ∧ line.isTitle = true
    · rw [if_pos (hline.mpr hpasses)]
      exact ih.iff (by simp [hpasses])
    · rw [if_neg fun h => hpasses (hline.mp h)]
      exact .error rfl fun h => hpasses (h line List.mem_cons_self)

theorem decides_checkOrder (separated : Bool) {sections : List (Line × List Line)}
    (hstarts : ∀ s ∈ sections, s.1.starts = true) :
    Decides (checkOrder separated (sections.map fun s => chunkOf s.1 s.2))
      ((separated = true → sections = []) ∧
        sections.Pairwise fun first _ => first.1.separates = false) := by
  induction sections generalizing separated with
  | nil => exact .ok _ (by simp)
  | cons s sections ih =>
    have ih separated := ih separated fun s hs => hstarts s (List.mem_cons_of_mem _ hs)
    rw [List.map_cons, List.pairwise_cons]
    rcases chunkOf_cases (hstarts s List.mem_cons_self) s.2 with
      ⟨-, hseparates, path, -, hchunk⟩ | ⟨-, hseparates, hchunk⟩
    · rw [hchunk]
      cases separated with
      | true => exact .error rfl (by simp)
      | false => exact (ih false).iff (by simp [hseparates])
    · rw [hchunk]
      cases separated with
      | true => exact .error rfl (by simp)
      | false =>
        refine (ih true).iff ⟨fun ⟨hnil, _⟩ => by simp [hnil rfl], fun ⟨_, hfirst, hrest⟩ =>
          ⟨fun _ => List.eq_nil_iff_forall_not_mem.mpr fun next hnext => ?_, hrest⟩⟩
        simpa [hseparates] using hfirst next hnext

theorem decides_section (source : List Char) (expectations : Bool) (lines : List Line) :
    Decides (Section.of source expectations lines) (Balanced (readLines none lines)) := by
  rw [propext (balanced_trimLines lines)]
  unfold Section.of
  simp only
  split
  · next hnone =>
    rw [List.getLast?_eq_none_iff] at hnone
    rw [hnone]
    exact .ok _ ⟨by simp [readLines], by simp [readLines]⟩
  · exact (decides_itemsOf _).bind_pure fun items => ⟨_, rfl⟩

theorem decides_fileSections (source : List Char) {sections : List (Line × List Line)}
    (hstarts : ∀ s ∈ sections, s.1.starts = true) :
    Decides (fileSections source (sections.map fun s => chunkOf s.1 s.2))
      (∀ s ∈ sections, s.1.isHeader = true → Balanced (readLines none s.2)) := by
  induction sections with
  | nil => exact .ok _ (by simp)
  | cons s sections ih =>
    have ih := ih fun s hs => hstarts s (List.mem_cons_of_mem _ hs)
    rw [List.map_cons]
    rcases chunkOf_cases (hstarts s List.mem_cons_self) s.2 with
      ⟨hheader, -, path, -, hchunk⟩ | ⟨hheader, -, hchunk⟩
    · rw [hchunk]
      refine ((decides_section source false s.2).bind fun content =>
        ih.bind_pure fun files => ⟨_, rfl⟩).iff ?_
      rw [List.forall_mem_cons]
      simp [hheader]
    · rw [hchunk]
      exact ih.iff (by simp [hheader])

theorem decides_expectationSection (source : List Char) {sections : List (Line × List Line)}
    (horder : sections.Pairwise fun first _ => first.1.separates = false)
    (hstarts : ∀ s ∈ sections, s.1.starts = true) :
    Decides (expectationSection source (sections.map fun s => chunkOf s.1 s.2))
      (∀ s ∈ sections, s.1.separates = true → Balanced (readLines none s.2)) := by
  induction sections with
  | nil => exact .ok _ (by simp)
  | cons s sections ih =>
    obtain ⟨hfirst, horder⟩ := List.pairwise_cons.mp horder
    have ih := ih horder fun s hs => hstarts s (List.mem_cons_of_mem _ hs)
    rw [List.map_cons]
    rcases chunkOf_cases (hstarts s List.mem_cons_self) s.2 with
      ⟨-, hseparates, path, -, hchunk⟩ | ⟨-, hseparates, hchunk⟩
    · rw [hchunk]
      exact ih.iff (by simp [hseparates])
    · -- nothing follows the separator
      obtain rfl : sections = [] := List.eq_nil_iff_forall_not_mem.mpr fun next hnext => by
        simpa [hseparates] using hfirst next hnext
      rw [hchunk]
      exact ((decides_section source true s.2).bind_pure fun content => ⟨_, rfl⟩).iff
        (by simp [hseparates])

/-- A source has an outline exactly if its lines are well formed. -/
theorem decides_outline (source : List Char) (full : Bool) :
    Decides (Outline.of source full) (WellFormed full (linesOf source)) := by
  have hstarts : ∀ s ∈ sectionLines (linesOf source), s.1.starts = true :=
    fun s => starts_of_mem_sectionLines
  have hrest (titled : Bool) (title : Option String) (htitled : title.isSome = titled) :
      Decides (outlineWith source title) ((∀ line ∈ (linesOf source).takeWhile (!·.starts),
          line.isBlank = true ∨ titled = true ∧ line.isTitle = true) ∧
        ((sectionLines (linesOf source)).Pairwise fun first _ => first.1.separates = false) ∧
        ∀ s ∈ sectionLines (linesOf source), Balanced (readLines none s.2)) := by
    rw [outlineWith, chunksOf_eq, htitled]
    refine (decides_checkPreamble _ _).bind fun _ => ?_
    have horder := decides_checkOrder false hstarts
    have hsections : (∀ s ∈ sectionLines (linesOf source), Balanced (readLines none s.2)) ↔
        (∀ s ∈ sectionLines (linesOf source), s.1.isHeader = true → Balanced (readLines none s.2)) ∧
          ∀ s ∈ sectionLines (linesOf source), s.1.separates = true →
            Balanced (readLines none s.2) := by
      refine ⟨fun h => ⟨fun s hs _ => h s hs, fun s hs _ => h s hs⟩, fun ⟨hfiles, hexpected⟩ s hs => ?_⟩
      rcases Bool.or_eq_true_iff.mp (hstarts s hs) with hheader | hseparates
      · exact hfiles s hs hheader
      · exact hexpected s hs hseparates
    by_cases hpairs : (sectionLines (linesOf source)).Pairwise fun first _ => first.1.separates = false
    · refine (horder.bind fun _ => (decides_fileSections source hstarts).bind fun files =>
        (decides_expectationSection source hpairs hstarts).bind_pure fun expectations =>
          ⟨_, rfl⟩).iff ?_
      rw [hsections]
      simp
    · rcases horder with ⟨_, -, h⟩ | ⟨refusal, heq, hcause, -⟩
      · exact absurd h.2 hpairs
      · exact .inr ⟨refusal, by simp only [heq]; rfl, hcause, fun h => hpairs h.1⟩
  cases full with
  | true =>
    have htitle := (decides_titleOf source).bind fun title => hrest true (some title) rfl
    have heq : Outline.of source true =
        titleOf source >>= fun title => outlineWith source (some title) := by
      rw [outline_eq_bind]
      cases titleOf source <;> rfl
    rw [heq]
    exact htitle.iff ⟨fun ⟨title, preamble, order, sections⟩ =>
      ⟨fun _ => title, preamble, order, sections⟩,
      fun h => ⟨h.title rfl, h.preamble, h.order, h.sections⟩⟩
  | false =>
    exact (hrest false none rfl).iff ⟨fun ⟨preamble, order, sections⟩ => ⟨nofun, preamble, order, sections⟩,
      fun h => ⟨h.preamble, h.order, h.sections⟩⟩

/-- A source is accepted exactly if its lines are well formed, and whatever else it is, it is refused
with a fault of the grammar. -/
theorem outline_iff_wellFormed (source : List Char) (full : Bool) (file : Option String) :
    (WellFormed full (linesOf source) ∧
      ∃ outline, locate source file (Outline.of source full) = .ok outline) ∨
    (¬ WellFormed full (linesOf source) ∧
      ∃ fault, locate source file (Outline.of source full) = .error fault ∧
        fault.kind = .grammar) := by
  rcases decides_outline source full with ⟨outline, heq, h⟩ | ⟨refusal, heq, hcause, h⟩
  · exact .inl ⟨h, outline, by rw [heq]; rfl⟩
  · exact .inr ⟨h, Refusal.fault source file refusal, by rw [heq]; rfl, if_pos hcause⟩

end HotSpec.Spec
