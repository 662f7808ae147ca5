import HotSpec.Engine.Prepare
import HotSpec.Proofs.Html.Stable
import HotSpec.Proofs.Spec.Alongside
import HotSpec.Proofs.Spec.Positions

/-!
# Specs given as files by path

A table of contents by path, and the text that has a header for each of them, are two ways to write one
spec.  The text compiles exactly if each content does, and to the same files: a header gives its path
back, and a content says the same wherever it stands.

Main definitions:

- `headerOf`, `textOf`: the header of a path, and the text of some files.
- `IsPath`: a text that can be the path of a header.

Main results:

- Theorem `headerPath?_headerOf`: a header gives its path back.
- Theorem `compile_textOf`: the text of some files compiles to what each of them compiles to.
- Theorem `compile_textOf_one_character`: a path of one character is misread.
-/

namespace HotSpec.Spec

open HotSpec.Text

/-! ## Headers -/

/-- The header of a path. -/
def headerOf (path : List Char) : List Char := "---- ".toList ++ (path ++ " ----".toList)

/-- A text that can be the path of a header: it stays on its line, and there is no blank at either end.
It has two characters at least. -/
structure IsPath (path : List Char) : Prop where
  two : 2 ≤ path.length
  oneLine : '\n' ∉ path
  first : ∀ c, path.head? = some c → isBlank c = false
  last : ∀ c, path.getLast? = some c → isBlank c = false

theorem isPath_iff {path : List Char} : IsPath path ↔ 2 ≤ path.length ∧ '\n' ∉ path ∧
    path.head?.all (fun c => !isBlank c) = true ∧ path.getLast?.all (fun c => !isBlank c) = true := by
  constructor
  · intro h
    exact ⟨h.two, h.oneLine, by simpa [Option.all_eq_true] using h.first,
      by simpa [Option.all_eq_true] using h.last⟩
  · rintro ⟨htwo, hline, hfirst, hlast⟩
    exact ⟨htwo, hline, by simpa [Option.all_eq_true] using hfirst,
      by simpa [Option.all_eq_true] using hlast⟩

instance (path : List Char) : Decidable (IsPath path) := decidable_of_iff _ isPath_iff.symm

theorem drop_takeWhile {α : Type} (p : α → Bool) (l : List α) :
    l.drop (l.takeWhile p).length = l.dropWhile p := by
  have h := @List.drop_left _ (l.takeWhile p) (l.dropWhile p)
  rwa [List.takeWhile_append_dropWhile] at h

/-- What ends with something visible does not end a header together with the end of one. -/
theorem isHeaderEnd_append {text : List Char} (hne : text ≠ [])
    (hlast : ∀ c, text.getLast? = some c → isBlank c = false) :
    isHeaderEnd (text ++ " ----".toList) = false := by
  have hvisible : text.getLast hne ∈ trimStart text := by
    apply Html.mem_trimStart (List.getLast_mem hne)
    exact hlast _ (List.getLast?_eq_some_getLast hne)
  have htrim : trimStart (text ++ " ----".toList) = trimStart text ++ " ----".toList := by
    unfold trimStart at hvisible ⊢
    rw [List.dropWhile_append, if_neg]
    intro hempty
    rw [List.isEmpty_iff.mp hempty] at hvisible
    cases hvisible
  have hdashes : (trimStart text ++ " ----".toList).dropWhile (· == '-') =
      (trimStart text).dropWhile (· == '-') ++ " ----".toList := by
    rw [List.dropWhile_append]
    split
    · next hempty =>
      rw [List.isEmpty_iff.mp hempty]
      rfl
    · rfl
  unfold isHeaderEnd
  simp only [htrim, dashes, drop_takeWhile, hdashes]
  simp [blank, show isBlank '-' = false by decide]

/-- A header gives its path back. -/
theorem headerPath?_headerOf {path : List Char} (h : IsPath path) :
    headerPath? (headerOf path) = some path := by
  have htwo := h.two
  have hdashes : dashes (headerOf path) = 4 := by simp [dashes, headerOf]
  have hhead : ∀ c, (path ++ " ----".toList).head? = some c → isBlank c = false := by
    intro c hc
    cases path with
    | nil => cases htwo
    | cons d rest => exact h.first c hc
  have htrim : trimStart ((headerOf path).drop 4) = path ++ " ----".toList := by
    have hspace : (headerOf path).drop 4 = ' ' :: (path ++ " ----".toList) := rfl
    rw [hspace, Html.trimStart_cons_of_blank (by decide), Html.trimStart_eq_self_iff.mpr hhead]
  -- no shorter text is a path, for what is left of the path stands in front of the dashes
  have hshort (size : Nat) (hsize : size < path.length) :
      isPathOf (path ++ " ----".toList) size = false := by
    have hne : path.drop size ≠ [] := fun hnil => Nat.not_le.mpr hsize (List.drop_eq_nil_iff.mp hnil)
    have hlast : ∀ c, (path.drop size).getLast? = some c → isBlank c = false := by
      intro c hc
      rw [List.getLast?_drop, if_neg (Nat.not_le.mpr hsize)] at hc
      exact h.last c hc
    unfold isPathOf
    rw [List.drop_append_of_le_length hsize.le, isHeaderEnd_append hne hlast, Bool.and_false]
  have hwhole : isPathOf (path ++ " ----".toList) path.length = true := by
    have hend : isHeaderEnd " ----".toList = true := by decide
    have hany (c? : Option Char) (hsome : c?.isSome) (hvisible : ∀ c, c? = some c → isBlank c = false) :
        c?.any (fun c => !isBlank c) = true := by
      obtain ⟨c, rfl⟩ := Option.isSome_iff_exists.mp hsome
      simp [hvisible c rfl]
    have hne : path ≠ [] := by
      rintro rfl
      cases htwo
    unfold isPathOf
    simp only [List.take_left, List.drop_left, hend, beq_self_eq_true, Bool.true_and, Bool.and_true,
      hany _ (by simpa using hne) h.first, hany _ (by simpa using hne) h.last]
    simpa using h.oneLine
  have hfind : (pathSizes (path ++ " ----".toList)).find? (isPathOf (path ++ " ----".toList)) =
      some path.length := by
    have hrange : (List.range ((path ++ " ----".toList).length - 1)).find?
        (isPathOf (path ++ " ----".toList) ∘ (· + 2)) = some (path.length - 2) := by
      rw [List.find?_range_eq_some]
      refine ⟨?_, ?_, fun size hsize => ?_⟩
      · rw [Function.comp_apply, Nat.sub_add_cancel htwo, hwhole]
      · rw [List.mem_range, List.length_append]
        simp only [String.reduceToList, List.length_cons, List.length_nil]
        omega
      · rw [Function.comp_apply, hshort _ (by omega), Bool.not_false]
    rw [pathSizes, List.find?_append, List.find?_map, hrange, Option.map_some,
      Nat.sub_add_cancel htwo, Option.some_or]
  unfold headerPath?
  simp only [hdashes, List.range_succ_eq_map, List.map_cons, Nat.sub_zero, htrim, List.findSome?_cons,
    hfind, Option.map_some, List.take_left]

theorem trim_headerOf (path : List Char) : trim (headerOf path) = headerOf path := by
  have hstart : trimStart (headerOf path) = headerOf path := rfl
  rw [trim, hstart]
  refine Html.trimEnd_eq_self fun c hc => ?_
  have hdash : (headerOf path).getLast? = some '-' := by
    simp only [headerOf, List.getLast?_append]
    rfl
  rw [hdash] at hc
  cases hc
  decide

/-! ## The text of some files -/

/-- The text of some files: for each of them a header, its content, and a line break. -/
def textOf (files : List (String × String)) : List Char :=
  files.flatMap fun file => headerOf file.1.toList ++ '\n' :: (file.2.toList ++ ['\n'])

theorem splitOn_append (front rest : List Char) :
    splitOn '\n' (front ++ '\n' :: rest) = splitOn '\n' front ++ splitOn '\n' rest := by
  induction front with
  | nil => rfl
  | cons c front ih =>
    rw [List.cons_append, splitOn, splitOn, ih]
    split
    · rfl
    · have hne := splitOn_ne_nil '\n' front
      cases hfront : splitOn '\n' front with
      | nil => exact absurd hfront hne
      | cons piece pieces => rfl

theorem splitOn_of_notMem {text : List Char} (h : '\n' ∉ text) : splitOn '\n' text = [text] := by
  induction text with
  | nil => rfl
  | cons c text ih =>
    rw [List.mem_cons, not_or] at h
    rw [splitOn, if_neg fun heq => h.1 heq.symm, ih h.2]

theorem splitOn_textOf {files : List (String × String)} (h : ∀ file ∈ files, IsPath file.1.toList) :
    splitOn '\n' (textOf files) =
      files.flatMap (fun file => headerOf file.1.toList :: splitOn '\n' file.2.toList) ++ [[]] := by
  induction files with
  | nil => rfl
  | cons file files ih =>
    have hheader : '\n' ∉ headerOf file.1.toList := by
      have hpath := (h file List.mem_cons_self).oneLine
      simp [headerOf, hpath]
    have ih := ih fun file hfile => h file (List.mem_cons_of_mem _ hfile)
    unfold textOf at ih ⊢
    rw [List.flatMap_cons, List.flatMap_cons, List.append_assoc, List.cons_append, List.append_assoc,
      List.singleton_append, splitOn_append, splitOn_append, splitOn_of_notMem hheader, ih]
    simp

/-! ## Sections of files -/

/-- The section of a file: its header has the path, and its lines say what the content says. -/
structure SectionFor (file : String × String) (s : Line × List Line) : Prop where
  header : headerPath? s.1.trimmed = some file.1.toList
  balanced : Balanced (readLines none (linesOf file.2.toList)) ↔ Balanced (readLines none s.2)
  contents : contentsIn (linesOf file.2.toList) = contentsIn s.2

theorem SectionFor.isHeader {file : String × String} {s : Line × List Line} (h : SectionFor file s) :
    s.1.isHeader = true := by
  simp [Line.isHeader, h.header]

theorem SectionFor.separates {file : String × String} {s : Line × List Line} (h : SectionFor file s) :
    s.1.separates = false := by
  by_contra hseparates
  have hheader := Line.isHeader_of_separates (Bool.of_not_eq_false hseparates)
  rw [h.isHeader] at hheader
  cases hheader

/-- Lines that say what some files say are the sections of those files. -/
theorem sectionLines_files {files : List (String × String)} {lines : List Line}
    (hpaths : ∀ file ∈ files, IsPath file.1.toList)
    (hcontents : ∀ file ∈ files, ∀ line ∈ linesOf file.2.toList, line.starts = false)
    (h : lines.map Line.text =
      files.flatMap fun file => headerOf file.1.toList :: splitOn '\n' file.2.toList) :
    lines.takeWhile (!·.starts) = [] ∧ List.Forall₂ SectionFor files (sectionLines lines) := by
  induction files generalizing lines with
  | nil =>
    obtain rfl := List.map_eq_nil_iff.mp h
    exact ⟨rfl, .nil⟩
  | cons file files ih =>
    rw [List.flatMap_cons, List.cons_append, List.map_eq_cons_iff] at h
    obtain ⟨header, lines, rfl, hheader, h⟩ := h
    obtain ⟨body, rest, rfl, hbody, hrest⟩ := List.map_eq_append_iff.mp h
    obtain ⟨hfront, hsections⟩ := ih (fun file hfile => hpaths file (List.mem_cons_of_mem _ hfile))
      (fun file hfile => hcontents file (List.mem_cons_of_mem _ hfile)) hrest
    have hpath : headerPath? header.trimmed = some file.1.toList := by
      rw [Line.trimmed, hheader, trim_headerOf, headerPath?_headerOf (hpaths file List.mem_cons_self)]
    have hstarts : header.starts = true := by simp [Line.starts, Line.isHeader, hpath]
    have htexts : body.map Line.text = (linesOf file.2.toList).map Line.text :=
      hbody.trans (map_text_linesOf _).symm
    -- no line of a content starts a section
    have hnone : ∀ line ∈ body, line.starts = false := by
      intro line hline
      have hmem : line.text ∈ (linesOf file.2.toList).map Line.text :=
        htexts ▸ List.mem_map_of_mem hline
      obtain ⟨line', hline', htext⟩ := List.mem_map.mp hmem
      rw [← (Line.readsAs_of_text htext).starts]
      exact hcontents file List.mem_cons_self line' hline'
    have hskip : sectionLines (body ++ rest) = sectionLines rest := by
      clear hbody htexts h
      induction body with
      | nil => rfl
      | cons line body ih =>
        rw [List.cons_append, sectionLines, if_neg (by simp [hnone line List.mem_cons_self])]
        exact ih fun line hline => hnone line (List.mem_cons_of_mem _ hline)
    have hbodyOnly : (body ++ rest).takeWhile (!·.starts) = body := by
      rw [List.takeWhile_append_of_pos fun line hline => by simp [hnone line hline], hfront,
        List.append_nil]
    rw [List.takeWhile_cons_of_neg (by simp [hstarts]), sectionLines, if_pos hstarts, hskip, hbodyOnly]
    obtain ⟨hbalanced, hsays⟩ :=
      reads_sameText (hcontents file List.mem_cons_self) (forall₂_sameText htexts.symm)
    exact ⟨rfl, .cons ⟨hpath, hbalanced, hsays⟩ hsections⟩

/-- The text of some files has their sections, and nothing in front of them. -/
theorem sections_textOf {files : List (String × String)} (hpaths : ∀ file ∈ files, IsPath file.1.toList)
    (hcontents : ∀ file ∈ files, ∀ line ∈ linesOf file.2.toList, line.starts = false) :
    (∀ line ∈ (linesOf (textOf files)).takeWhile (!·.starts), line.isBlank = true) ∧
      List.Forall₂ SectionFor files (sectionLines (linesOf (textOf files))) := by
  have htexts := map_text_linesOf (textOf files)
  rw [splitOn_textOf hpaths, List.map_eq_append_iff] at htexts
  obtain ⟨lines, back, heq, hlines, hback⟩ := htexts
  obtain ⟨last, none, rfl, hlast, hnone⟩ := List.map_eq_cons_iff.mp hback
  obtain rfl := List.map_eq_nil_iff.mp hnone
  have hblank : last.isBlank = true := by simp [Line.isBlank, hlast, blank]
  obtain ⟨hfront, hsections⟩ := sectionLines_files hpaths hcontents hlines
  rw [heq]
  constructor
  · intro line hline
    rw [List.takeWhile_append, hfront] at hline
    split at hline
    · next hempty =>
      obtain rfl := List.length_eq_zero_iff.mp hempty.symm
      have hmem := (List.takeWhile_prefix _).subset hline
      rwa [List.mem_singleton.mp hmem]
    · cases hline
  · refine forall₂_trans (fun file s s' hs hs' => ?_) hsections (sectionLines_append_blank hblank lines)
    obtain ⟨hfirst, hbody | hbody⟩ := hs'
    · exact ⟨hfirst ▸ hs.header, hbody ▸ hs.balanced, hbody ▸ hs.contents⟩
    · constructor
      · exact hfirst ▸ hs.header
      · rw [hbody, balanced_append_blank hblank]
        exact hs.balanced
      · rw [hbody, contentsIn_append_blank hblank]
        exact hs.contents

/-! ## Contents -/

/-- What a content compiles to: what its lines say, if they are balanced. -/
theorem compileFile_eq_ok_iff {content : String} {file : Option String} {variants : Table String} :
    compileFile content file = .ok variants ↔
      Balanced (readLines none (linesOf content.toList)) ∧
        variants = contentsIn (linesOf content.toList) := by
  unfold compileFile
  rcases decides_section content.toList false (linesOf content.toList) with
    ⟨s, hs, hbalanced⟩ | ⟨refusal, herror, -, hnot⟩
  · simp only [hs, variants_eq (List.infix_refl _) hs, Except.ok.injEq]
    constructor
    · intro h
      exact ⟨hbalanced, h.symm⟩
    · intro h
      exact h.2.symm
  · simp only [herror, hnot, false_and, iff_false]
    intro h
    cases h

/-- What some contents compile to, each under its path. -/
theorem forall₂_compileFile_iff {files : List (String × String)} {file : Option String}
    {table : Table (Table String)} :
    List.Forall₂ (fun given row => row.1 = given.1 ∧ compileFile given.2 file = .ok row.2) files table ↔
      (∀ given ∈ files, Balanced (readLines none (linesOf given.2.toList))) ∧
        table = files.map fun given => (given.1, contentsIn (linesOf given.2.toList)) := by
  constructor
  · intro h
    induction h with
    | nil => simp
    | @cons given row files table hfirst _ ih =>
      obtain ⟨path, variants⟩ := row
      obtain ⟨rfl, hvariants⟩ := hfirst
      obtain ⟨hbalanced, rfl⟩ := compileFile_eq_ok_iff.mp hvariants
      obtain ⟨hrest, rfl⟩ := ih
      exact ⟨List.forall_mem_cons.mpr ⟨hbalanced, hrest⟩, rfl⟩
  · rintro ⟨hbalanced, rfl⟩
    rw [List.forall₂_map_right_iff, List.forall₂_same]
    intro given hgiven
    exact ⟨rfl, compileFile_eq_ok_iff.mpr ⟨hbalanced given hgiven, rfl⟩⟩

/-- The contents that are registered by path are what each of them compiles to. -/
theorem fileVariants_eq_ok_iff {files : List (String × String)} {file : Option String}
    {table : Table (Table String)} :
    Engine.fileVariants file (files.map fun given => (given.1, .text given.2)) = .ok table ↔
      List.Forall₂ (fun given row => row.1 = given.1 ∧ compileFile given.2 file = .ok row.2)
        files table := by
  induction files generalizing table with
  | nil =>
    rw [List.map_nil, Engine.fileVariants, List.forall₂_nil_left_iff, Except.ok.injEq]
    exact eq_comm
  | cons given files ih =>
    rw [List.map_cons, Engine.fileVariants, List.forall₂_cons_left_iff]
    constructor
    · intro h
      obtain ⟨variants, hvariants, h⟩ := ok_of_bind h
      obtain ⟨rest, hrest, heq⟩ := ok_of_bind h
      cases heq
      exact ⟨_, rest, ⟨rfl, hvariants⟩, ih.mp hrest, rfl⟩
    · rintro ⟨⟨path, variants⟩, rest, ⟨rfl, hvariants⟩, hrest, rfl⟩
      rw [hvariants, ih.mpr hrest]
      rfl

/-! ## Both forms -/

/-- A source that is no full spec has no title. -/
theorem title_of_not_full {source : Source} {file : Option String} {compiled : CompiledSpec}
    (h : compile source false file = .ok compiled) : compiled.title = none := by
  obtain ⟨outline, houtline, h⟩ := ok_of_bind h
  have htitle : outline.title = none := title_outline (ok_of_locate houtline)
  obtain ⟨compiled', hcompiled, heq⟩ := ok_of_bind h
  cases heq
  unfold compileOutline at hcompiled
  cases hs : outline.expectations <;> rw [hs] at hcompiled <;>
    obtain ⟨⟨expects, left⟩, -, hleft⟩ := ok_of_bind hcompiled <;>
    cases left <;> cases hleft <;> exact htitle

/-- The text of some files has no separator. -/
theorem separates_textOf {files : List (String × String)} (hpaths : ∀ file ∈ files, IsPath file.1.toList)
    (hcontents : ∀ file ∈ files, ∀ line ∈ linesOf file.2.toList, line.starts = false) :
    ∀ s ∈ sectionLines (linesOf (textOf files)), s.1.separates = false := by
  have hsections := (sections_textOf hpaths hcontents).2
  have hiff := forall_mem_iff_of_forall₂ (P := fun _ => True) hsections
    fun file s h => iff_of_true trivial h.separates
  exact hiff.mp fun _ _ => trivial

/-- The text of some files has an outline exactly if the lines of each content are balanced. -/
theorem wellFormed_textOf {files : List (String × String)} (hpaths : ∀ file ∈ files, IsPath file.1.toList)
    (hcontents : ∀ file ∈ files, ∀ line ∈ linesOf file.2.toList, line.starts = false) :
    WellFormed false (linesOf (textOf files)) ↔
      ∀ file ∈ files, Balanced (readLines none (linesOf file.2.toList)) := by
  obtain ⟨hblank, hsections⟩ := sections_textOf hpaths hcontents
  have hbalanced := forall_mem_iff_of_forall₂ hsections fun _ _ h => h.balanced
  rw [hbalanced]
  constructor
  · intro h
    exact h.sections
  · intro h
    constructor
    · intro hfull
      cases hfull
    · intro line hline
      exact .inl (hblank line hline)
    · exact List.pairwise_of_forall_mem_list fun s hs _ _ => separates_textOf hpaths hcontents s hs
    · exact h

/-- The files of the text of some files have what the contents say. -/
theorem files_textOf {files : List (String × String)} (hnodup : (files.map Prod.fst).Nodup)
    (hpaths : ∀ file ∈ files, IsPath file.1.toList)
    (hcontents : ∀ file ∈ files, ∀ line ∈ linesOf file.2.toList, line.starts = false) :
    Table.ofRows (((sectionLines (linesOf (textOf files))).filter (·.1.isHeader)).map
        fun s => (pathIn s.1, contentsIn s.2)) =
      files.map fun file => (file.1, contentsIn (linesOf file.2.toList)) := by
  obtain ⟨-, hsections⟩ := sections_textOf hpaths hcontents
  have hrows : ((sectionLines (linesOf (textOf files))).filter (·.1.isHeader)).map
      (fun s => (pathIn s.1, contentsIn s.2)) =
        files.map fun file => (file.1, contentsIn (linesOf file.2.toList)) := by
    generalize sectionLines (linesOf (textOf files)) = sections at hsections
    clear hnodup hpaths hcontents
    induction hsections with
    | nil => rfl
    | cons hfile _ ih =>
      rw [List.filter_cons, if_pos hfile.isHeader, List.map_cons, List.map_cons, ih, hfile.contents,
        pathIn, hfile.header, Option.getD_some, String.ofList_toList]
  rw [hrows, Table.ofRows, Table.merge_of_nodup, List.nil_append]
  simpa [Table.keys, Function.comp_def] using hnodup

/-- A text of files that has an outline compiles. -/
theorem ok_of_wellFormed {text : List Char} (h : WellFormed false (linesOf text))
    (hheaders : ∀ s ∈ sectionLines (linesOf text), s.1.separates = false) (file : Option String) :
    ∃ compiled, compile ⟨text, []⟩ false file = .ok compiled := by
  rcases decides_outline text false with ⟨outline, houtline, -⟩ | ⟨_, -, -, hnot⟩
  · have hnone : outline.expectations = none := by
      have hexpected := (outline_files houtline).2
      rw [List.find?_eq_none.mpr (by simpa using hheaders)] at hexpected
      simpa using List.forall₂_nil_left_iff.mp hexpected
    refine ⟨⟨outline.title, Table.ofRows (outline.files.map fun row => (row.1, row.2.variants)), []⟩, ?_⟩
    have hcompiled : compileOutline ⟨text, []⟩ file outline = .ok ⟨outline.title,
        Table.ofRows (outline.files.map fun row => (row.1, row.2.variants)), []⟩ := by
      rw [compileOutline, hnone]
      rfl
    rw [compile_of_outline houtline, hcompiled]
    rfl
  · exact absurd h hnot

/-- The two forms of a spec agree.  The text of some files compiles exactly if each content does; then
it has the files with what their contents compile to, in their order, and it expects nothing.  These are
the files that are registered where the contents are given by path. -/
theorem compile_textOf {files : List (String × String)} (hnodup : (files.map Prod.fst).Nodup)
    (hpaths : ∀ file ∈ files, IsPath file.1.toList)
    (hcontents : ∀ file ∈ files, ∀ line ∈ linesOf file.2.toList, line.starts = false)
    (file : Option String) :
    (∀ compiled, compile ⟨textOf files, []⟩ false file = .ok compiled ↔
      compiled.title = none ∧ compiled.expects = [] ∧
        List.Forall₂ (fun given row => row.1 = given.1 ∧ compileFile given.2 file = .ok row.2)
          files compiled.files) ∧
    ∀ table, Engine.fileVariants file (files.map fun given => (given.1, .text given.2)) = .ok table ↔
      List.Forall₂ (fun given row => row.1 = given.1 ∧ compileFile given.2 file = .ok row.2)
        files table := by
  refine ⟨fun compiled => ?_, fun table => fileVariants_eq_ok_iff⟩
  have hseparates := separates_textOf hpaths hcontents
  rw [forall₂_compileFile_iff, ← wellFormed_textOf hpaths hcontents]
  -- what a compiled text looks like, which leaves no choice
  have hcompiled {compiled : CompiledSpec} (h : compile ⟨textOf files, []⟩ false file = .ok compiled) :
      compiled.title = none ∧ compiled.expects = [] ∧ WellFormed false (linesOf (textOf files)) ∧
        compiled.files = files.map fun given => (given.1, contentsIn (linesOf given.2.toList)) := by
    obtain ⟨hfiles, -, hexpects⟩ := denotation_compile rfl h
    rw [files_textOf hnodup hpaths hcontents] at hfiles
    rw [List.find?_eq_none.mpr (by simpa using hseparates)] at hexpects
    obtain ⟨outline, houtline, -⟩ := files_compile h
    rcases decides_outline (textOf files) false with ⟨_, -, hwell⟩ | ⟨refusal, herror, -⟩
    · exact ⟨title_of_not_full h, List.map_eq_nil_iff.mp hexpects, hwell, hfiles⟩
    · rw [houtline] at herror
      cases herror
  constructor
  · exact hcompiled
  · rintro ⟨htitle, hexpects, hwell, hfiles⟩
    obtain ⟨compiled', h⟩ := ok_of_wellFormed hwell hseparates file
    obtain ⟨htitle', hexpects', -, hfiles'⟩ := hcompiled h
    rw [h]
    congr 1
    obtain ⟨_, _, _⟩ := compiled
    obtain ⟨_, _, _⟩ := compiled'
    simp_all

/-- Two files, one of which has a condition, under paths with dashes. -/
def dashedFiles : List (String × String) := [("src/a--b.html", "<p>\n  ::1 on\n"), ("---", "let b")]

theorem compile_textOf_dashed : ∃ compiled, compile ⟨textOf dashedFiles, []⟩ false none = .ok compiled ∧
    compiled.files = [("src/a--b.html", [("1", "<p>\non")]), ("---", [("*", "let b")])] ∧
    compiled.expects = [] := by
  have hpaths : ∀ file ∈ dashedFiles, IsPath file.1.toList := by decide +kernel
  have hok : (compile ⟨textOf dashedFiles, []⟩ false none).isOk = true := by decide +kernel
  cases hcompile : compile ⟨textOf dashedFiles, []⟩ false none with
  | error fault =>
    rw [hcompile] at hok
    cases hok
  | ok compiled =>
    have hforms := compile_textOf (by decide +kernel) hpaths (by decide +kernel) none
    obtain ⟨-, hexpects, hfiles⟩ := (hforms.1 compiled).mp hcompile
    refine ⟨compiled, rfl, ?_, hexpects⟩
    rw [(forall₂_compileFile_iff.mp hfiles).2]
    decide +kernel

/-- The path of a header with one character is misread: a second one is taken from the dashes. -/
theorem compile_textOf_one_character : compileFile "x" none = .ok [("*", "x")] ∧
    (∀ line ∈ linesOf "x".toList, line.starts = false) ∧ ∃ compiled,
      compile ⟨textOf [("a", "x")], []⟩ false none = .ok compiled ∧
      compiled.files = [("a -", [("*", "x")])] ∧ compiled.files ≠ [("a", [("*", "x")])] := by
  have hfile : (compileFile "x" none).toOption = some [("*", "x")] := by decide +kernel
  have hfiles : (compile ⟨textOf [("a", "x")], []⟩ false none).toOption.map CompiledSpec.files =
      some [("a -", [("*", "x")])] := by
    decide +kernel
  refine ⟨?_, by decide +kernel, ?_⟩
  · cases hcompile : compileFile "x" none with
    | error fault =>
      rw [hcompile] at hfile
      cases hfile
    | ok variants =>
      rw [hcompile] at hfile
      rw [Option.some.inj hfile]
  · cases hcompile : compile ⟨textOf [("a", "x")], []⟩ false none with
    | error fault =>
      rw [hcompile] at hfiles
      cases hfiles
    | ok compiled =>
      rw [hcompile] at hfiles
      have hfiles : compiled.files = [("a -", [("*", "x")])] := Option.some.inj hfiles
      refine ⟨compiled, rfl, hfiles, ?_⟩
      rw [hfiles]
      decide

end HotSpec.Spec
