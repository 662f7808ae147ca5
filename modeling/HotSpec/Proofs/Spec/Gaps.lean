import HotSpec.Proofs.Spec.GuardedOutline
import HotSpec.Proofs.Spec.Inserted

/-!
# Text between two lines of the expectations

Lines that are put between two lines of the expectations, outside of any block, leave the rest of the
source what it is: its title and its files do not change, and the expectations get the parts of these
lines, and no others.

Main definitions:

- `Enclosed`: a value that stands among lines with text.
- `Gap`: a place between two lines of the expectations, outside of any block.
- `Source.insert`: a source with some text put into it.

Main results:

- Theorem `outline_of_separator`: what follows the separator changes the expectations only.
- Theorem `section_of_itemized`: the parts of a section that count, from the items of its lines.
- Theorem `Gap.inserted`: the expectations with some lines put into them.
-/

namespace HotSpec.Spec

open HotSpec.Text

/-! ## Behind the separator -/

section Separator

variable {before body : List Line} {separator : Line} (h : separator.starts = true)
include h

theorem takeWhile_of_separator :
    (before ++ separator :: body).takeWhile (!·.starts) = before.takeWhile (!·.starts) := by
  rw [List.takeWhile_append, List.takeWhile_cons_of_neg (by simp [h]), List.append_nil]
  split
  · next hall => exact ((List.takeWhile_prefix _).eq_of_length hall).symm
  · rfl

theorem sectionLines_of_separator : sectionLines (before ++ separator :: body) =
    sectionLines before ++ (separator, body.takeWhile (!·.starts)) :: sectionLines body := by
  induction before with
  | nil => simp only [List.nil_append, sectionLines, if_pos h]
  | cons line before ih =>
    rw [List.cons_append, sectionLines, sectionLines, ih, takeWhile_of_separator h]
    split <;> rfl

end Separator

theorem sectionLines_eq_nil {lines : List Line} :
    sectionLines lines = [] ↔ ∀ line ∈ lines, line.starts = false := by
  induction lines with
  | nil => simp [sectionLines]
  | cons line lines ih =>
    rw [sectionLines, List.forall_mem_cons, ← ih]
    split <;> simp_all

/-- A file in front of an offset is the same in all sources that start alike. -/
theorem section_of_take {source source' : List Char} {k : Nat} {lines : List Line}
    (hsource : source'.take k = source.take k)
    (hlines : ∀ line ∈ lines, line.finish ≤ line.next ∧ line.next ≤ k) :
    Section.of source' false lines = Section.of source false lines := by
  rw [section_eq, section_eq]
  cases hitems : itemsOf (trimLines lines) with
  | error refusal => rfl
  | ok items =>
    have hsub := (itemsOf_lines hitems).trans (trimLines_sublist lines)
    have hparts : items.flatMap (cutOf source' false lines).partsOf =
        items.flatMap (cutOf source false lines).partsOf := by
      refine List.flatMap_congr fun item hitem => ?_
      refine Cut.partsOf_of_take rfl rfl (fun _ => rfl) hsource fun line hline => ?_
      exact hlines line (hsub.subset (List.mem_flatMap.mpr ⟨item, hitem, hline⟩))
    simp only [Except.map, hparts]

/-- The files in front of the separator do not depend on what follows it. -/
theorem fileSections_of_take {source source' : List Char} {sections : List (Line × List Line)}
    (hsections : ∀ s ∈ sections, Section.of source' false s.2 = Section.of source false s.2)
    (separator : Line) (body body' : List Line) :
    fileSections source' (sections.map (fun s => chunkOf s.1 s.2) ++ [.expectations separator body']) =
      fileSections source (sections.map (fun s => chunkOf s.1 s.2) ++
        [.expectations separator body]) := by
  induction sections with
  | nil => rfl
  | cons s sections ih =>
    have ih := ih fun s hs => hsections s (List.mem_cons_of_mem _ hs)
    rw [List.map_cons, List.cons_append, List.cons_append, chunkOf]
    cases headerPath? s.1.trimmed with
    | some path => simp only [fileSections, hsections s List.mem_cons_self, ih]
    | none => simp only [fileSections, ih]

/-- Behind files, the expectations are those of the separator. -/
theorem expectationSection_of_files {source : List Char} {sections : List (Line × List Line)}
    (hsections : ∀ s ∈ sections, s.1.starts = true ∧ s.1.separates = false) (separator : Line)
    (body : List Line) : expectationSection source (sections.map (fun s => chunkOf s.1 s.2) ++
      [.expectations separator body]) = (Section.of source true body).map some := by
  induction sections with
  | nil =>
    simp only [List.map_nil, List.nil_append, expectationSection]
    cases Section.of source true body <;> rfl
  | cons s sections ih =>
    have ih := ih fun s hs => hsections s (List.mem_cons_of_mem _ hs)
    obtain ⟨hstarts, hseparates⟩ := hsections s List.mem_cons_self
    rcases chunkOf_cases hstarts s.2 with ⟨-, -, path, -, hchunk⟩ | ⟨-, hseparates', -⟩
    · rw [List.map_cons, List.cons_append, hchunk, expectationSection, ih]
    · rw [hseparates] at hseparates'
      cases hseparates'

/-- The order of sections does not depend on what follows the separator. -/
theorem checkOrder_of_separator (chunks : List Chunk) (separated : Bool) (separator : Line)
    (body body' : List Line) :
    checkOrder separated (chunks ++ [.expectations separator body']) =
      checkOrder separated (chunks ++ [.expectations separator body]) := by
  induction chunks generalizing separated with
  | nil => rfl
  | cons chunk chunks ih => cases chunk <;> simp only [List.cons_append, checkOrder, ih]

/-- Nothing starts behind the separator, and none of the sections in front of it is one. -/
theorem starts_of_separator {source : List Char} {full : Bool} {outline : Outline}
    {before body : List Line} {separator : Line}
    (hlines : linesOf source = before ++ separator :: body) (hseparates : separator.separates = true)
    (h : Outline.of source full = .ok outline) : (∀ line ∈ body, line.starts = false) ∧
      ∀ s ∈ sectionLines before, s.1.separates = false := by
  have hstarts : separator.starts = true := by simp [Line.starts, hseparates]
  have horder : (sectionLines (linesOf source)).Pairwise fun first _ => first.1.separates = false := by
    rcases decides_outline source full with ⟨_, -, hwell⟩ | ⟨refusal, herror, -⟩
    · exact hwell.order
    · rw [h] at herror
      cases herror
  rw [hlines, sectionLines_of_separator hstarts, List.pairwise_append, List.pairwise_cons] at horder
  obtain ⟨-, ⟨hlast, -⟩, hfiles⟩ := horder
  refine ⟨sectionLines_eq_nil.mp (List.eq_nil_iff_forall_not_mem.mpr fun s hs => ?_),
    fun s hs => hfiles s hs _ List.mem_cons_self⟩
  have hnot := hlast s hs
  rw [hseparates] at hnot
  cases hnot

/-- What follows the separator is one chunk, behind those of the files. -/
theorem chunksOf_of_separator {before body : List Line} {separator : Line}
    (hseparates : separator.separates = true) (hplain : ∀ line ∈ body, line.starts = false) :
    chunksOf (before ++ separator :: body) = (before.takeWhile (!·.starts),
      (sectionLines before).map (fun s => chunkOf s.1 s.2) ++ [.expectations separator body]) := by
  have hstarts : separator.starts = true := by simp [Line.starts, hseparates]
  have hchunk : chunkOf separator body = .expectations separator body := by
    rcases chunkOf_cases hstarts body with ⟨-, hnot, -⟩ | ⟨-, -, hchunk⟩
    · rw [hseparates] at hnot
      cases hnot
    · exact hchunk
  have hall : body.takeWhile (!·.starts) = body :=
    List.takeWhile_eq_self_iff.mpr fun line hline => by simp [hplain line hline]
  rw [chunksOf_eq, takeWhile_of_separator hstarts, sectionLines_of_separator hstarts,
    sectionLines_eq_nil.mpr hplain, hall, List.map_append, List.map_singleton, hchunk]

/-- The title does not depend on what follows a line with text. -/
theorem titleOf_of_visible {source source' : List Char} {before body body' : List Line} {line : Line}
    (hlines : linesOf source = before ++ line :: body)
    (hlines' : linesOf source' = before ++ line :: body') (hvisible : line.isBlank = false) :
    titleOf source' = titleOf source := by
  have hfind (rest : List Line) : (before ++ line :: rest).find? (fun line => !line.isBlank) =
      (before.find? fun line => !line.isBlank).or (some line) := by
    rw [List.find?_append, List.find?_cons, hvisible]
    rfl
  unfold titleOf
  rw [hlines, hlines', hfind, hfind]
  cases before.find? fun line => !line.isBlank <;> rfl

/-- What follows the separator changes the expectations only. -/
theorem outline_of_separator {source source' : List Char} {full : Bool} {outline : Outline}
    {before body body' : List Line} {separator : Line}
    (hlines : linesOf source = before ++ separator :: body)
    (hlines' : linesOf source' = before ++ separator :: body')
    (hseparates : separator.separates = true)
    (hsource : source'.take separator.start = source.take separator.start)
    (hplain' : ∀ line ∈ body', line.starts = false) (h : Outline.of source full = .ok outline) :
    ∃ s, outline.expectations = some s ∧ Section.of source true body = .ok s ∧
      ∀ s', Section.of source' true body' = .ok s' →
        Outline.of source' full = .ok { outline with expectations := some s' } := by
  have hstarts : separator.starts = true := by simp [Line.starts, hseparates]
  have hvisible : separator.isBlank = false := by
    by_contra hblank
    rw [Line.starts_of_blank (by simpa using hblank)] at hstarts
    cases hstarts
  obtain ⟨hplain, hfiles⟩ := starts_of_separator hlines hseparates h
  have hfile (s : Line × List Line) (hs : s ∈ sectionLines before) :
      s.1.starts = true ∧ s.1.separates = false :=
    ⟨starts_of_mem_sectionLines hs, hfiles s hs⟩
  have hchunks := @chunksOf_of_separator before _ _ hseparates hplain
  have hchunks' := @chunksOf_of_separator before _ _ hseparates hplain'
  have hfits (line : Line) (hline : line ∈ before) :
      line.finish ≤ line.next ∧ line.next ≤ separator.start := by
    obtain ⟨hfits, happart⟩ := linesOf_spec source
    rw [hlines] at hfits happart
    exact ⟨(hfits line (List.mem_append_left _ hline)).next,
      (List.pairwise_append.mp happart).2.2 line hline separator List.mem_cons_self⟩
  have hsections : fileSections source' (chunksOf (linesOf source')).2 =
      fileSections source (chunksOf (linesOf source)).2 := by
    rw [hlines, hlines', hchunks, hchunks']
    refine fileSections_of_take (fun s hs => section_of_take hsource fun line hline => ?_) _ _ _
    exact hfits line ((infix_of_mem_sectionLines hs).subset hline)
  rw [outline_eq_bind] at h
  obtain ⟨title, hread, h⟩ := ok_of_bind h
  obtain ⟨heq, hfiles, hexpected⟩ := outlineWith_eq_ok h
  obtain ⟨_, hpreamble, h⟩ := ok_of_bind h
  obtain ⟨_, hchecked, -⟩ := ok_of_bind h
  rw [hlines, hchunks] at hpreamble hchecked hexpected
  rw [expectationSection_of_files hfile] at hexpected
  cases hof : Section.of source true body with
  | error refusal =>
    rw [hof] at hexpected
    cases hexpected
  | ok s =>
    rw [hof] at hexpected
    refine ⟨s, (Except.ok.inj hexpected).symm, rfl, fun s' hs' => ?_⟩
    rw [checkOrder_of_separator _ _ _ body' body] at hchecked
    rw [outline_eq_bind, titleOf_of_visible hlines hlines' hvisible, hread]
    simp only [bind, Except.bind, outlineWith, hsections, hfiles]
    rw [hlines', hchunks', expectationSection_of_files hfile, hs', hpreamble, hchecked]
    obtain rfl := heq
    rfl

/-! ## Values among lines with text -/

/-- A value that stands among lines with text. -/
structure Enclosed (lines : List Line) (a : Anchored) : Prop where
  first : ∃ line ∈ lines, line.isBlank = false ∧ line.start ≤ a.index
  last : ∃ line ∈ lines, line.isBlank = false ∧ a.index < line.next

/-- Lines that are trimmed start with a line that is not blank. -/
theorem isBlank_of_head? {lines : List Line} {first : Line}
    (h : (trimLines lines).head? = some first) : first.isBlank = false := by
  have hprefix : trimLines lines <+: lines.dropWhile Line.isBlank := List.rdropWhile_prefix _ _
  obtain ⟨rest, hrest⟩ := List.head?_eq_some_iff.mp h
  rw [hrest] at hprefix
  obtain ⟨back, hback⟩ := hprefix
  have hnot := List.head?_dropWhile_not Line.isBlank lines
  rw [← hback] at hnot
  exact hnot

section

variable {source : List Char} {lines : List Line} (hlines : lines.Sublist (linesOf source))
include hlines

/-- What stands in a part of a section stands among lines with text. -/
theorem enclosed_of_holds {s : Section} {p : Part} {a : Anchored}
    (h : Section.of source true lines = .ok s) (hp : p ∈ s.parts) (hholds : p.holds a = true) :
    Enclosed lines a := by
  obtain ⟨items, hitems, hparts, -⟩ := section_eq_ok h
  obtain ⟨hstart, hstop⟩ := Part.holds_iff.mp hholds
  have htrimmed := (trimLines_sublist lines).trans hlines
  have hsub := itemsOf_lines hitems
  obtain ⟨hfits, happart⟩ := linesOf_spec source
  have hfits (line : Line) (hline : line ∈ trimLines lines) : line.Fits source.length :=
    hfits line (htrimmed.subset hline)
  have happart := happart.sublist htrimmed
  obtain ⟨hspans, -⟩ := @Cut.spans_flatMap (cutOf source true lines) _ _
    (fun line hline => hfits line (hsub.subset hline)) (happart.sublist hsub)
  obtain ⟨item, hitem, hspan⟩ := hspans p (hparts ▸ hp)
  have hmem (line : Line) (hline : line ∈ item.lines) : line ∈ trimLines lines :=
    hsub.subset (List.mem_flatMap.mpr ⟨item, hitem, hline⟩)
  obtain ⟨line, hline, hle⟩ := hspan.first
  obtain ⟨line', hline', hle'⟩ := hspan.last
  constructor
  · obtain ⟨first, rest, hcons⟩ := List.exists_cons_of_ne_nil (List.ne_nil_of_mem (hmem line hline))
    have hfirst : first ∈ trimLines lines := hcons ▸ List.mem_cons_self
    have hhead : (trimLines lines).head? = some first := hcons ▸ rfl
    refine ⟨first, (trimLines_sublist lines).subset hfirst, isBlank_of_head? hhead, ?_⟩
    have hmem := hmem line hline
    rw [hcons] at hmem happart
    rcases List.mem_cons.mp hmem with heq | hrest
    · rw [← heq]
      omega
    · have hnext := (List.pairwise_cons.mp happart).1 line hrest
      have hfinish := (hfits first hfirst).finish
      have hend := (hfits first hfirst).next
      omega
  · have hne := List.ne_nil_of_mem (hmem line' hline')
    have hlast := List.getLast?_eq_some_getLast hne
    refine ⟨_, (trimLines_sublist lines).subset (List.getLast_mem hne), isBlank_of_getLast? hlast, ?_⟩
    have hnext := next_le_last hfits happart hlast (hmem line' hline')
    omega

/-- A blank line in front of the lines with text, or behind them, has a part that does not count. -/
theorem counts_of_blank {front shown back : List Line} {values : List Anchored} {line : Line}
    (heq : lines = front ++ (shown ++ back)) (hblank : ∀ line ∈ front ++ back, line.isBlank = true)
    (hvalues : ∀ a ∈ values, Enclosed lines a) (hline : line ∈ front ++ back) :
    ((cutOf source true lines).part ((cutOf source true lines).startOf line)
      ((cutOf source true lines).endOf line) none false none).counts values = false := by
  have happart := (linesOf_spec source).2.sublist hlines
  rw [heq, List.pairwise_append] at happart
  obtain ⟨-, hrest, hfront⟩ := happart
  obtain ⟨-, -, hback⟩ := List.pairwise_append.mp hrest
  have hmem : line ∈ lines := by
    rw [heq]
    rcases List.mem_append.mp hline with hline | hline <;> simp [hline]
  have hshown (other : Line) (hother : other ∈ lines) (hvisible : other.isBlank = false) :
      other ∈ shown := by
    have hnot : other ∉ front ++ back := fun hmem => by
      rw [hblank other hmem] at hvisible
      cases hvisible
    rw [heq, List.mem_append, List.mem_append] at hother
    simp only [List.mem_append, not_or] at hnot
    exact (hother.resolve_left hnot.1).resolve_right hnot.2
  refine Part.counts_eq_false.mpr ⟨rfl, ?_, List.filter_eq_nil_iff.mpr fun a ha hholds => ?_⟩
  · rw [Cut.text_line (linesOf_in (hlines.subset hmem))]
    exact (blank_drop (Nat.min_le_right _ _)).trans (hblank line hline)
  · obtain ⟨hstart, hstop⟩ := Part.holds_iff.mp hholds
    simp only [Cut.part, Cut.startOf, Cut.endOf, cutOf, Bool.true_or, if_true] at hstart hstop
    obtain ⟨first, hfirst, hvisible, hle⟩ := (hvalues a ha).first
    obtain ⟨last, hlast, hvisible', hlt⟩ := (hvalues a ha).last
    rcases List.mem_append.mp hline with hline | hline
    · have hnext := hfront line hline first (List.mem_append_left _ (hshown first hfirst hvisible))
      omega
    · have hnext := hback last (hshown last hlast hvisible') line hline
      omega

/-- The parts of a section that count are those of the items of its lines, where all values stand among
lines with text. -/
theorem section_of_itemized {items : List Item} {values : List Anchored} (h : Itemized lines items)
    (hvalues : ∀ a ∈ values, Enclosed lines a) :
    ∃ s, Section.of source true lines = .ok s ∧
      s.parts.filter (Part.counts values) =
        (items.flatMap (cutOf source true lines).partsOf).filter (Part.counts values) ∧
      s.labels = (items.filterMap Item.label?).eraseDups := by
  have hbalanced : Balanced (readLines none (trimLines lines)) := by
    rcases decides_itemsOf lines with ⟨_, -, hbalanced⟩ | ⟨refusal, herror, -⟩
    · exact (balanced_trimLines lines).mp hbalanced
    · rw [h.itemsOf] at herror
      cases herror
  obtain ⟨trimmed, hitems⟩ : ∃ trimmed, itemsOf (trimLines lines) = .ok trimmed := by
    rcases decides_itemsOf (trimLines lines) with ⟨trimmed, hok, -⟩ | ⟨refusal, -, -, hnot⟩
    · exact ⟨trimmed, hok⟩
    · exact absurd hbalanced hnot
  obtain ⟨front, back, heq, hblank, hall⟩ := itemized_trimLines (itemized_of_itemsOf hitems)
  obtain rfl : items = front.map .plain ++ (trimmed ++ back.map .plain) :=
    Except.ok.inj (h.itemsOf.symm.trans hall.itemsOf)
  have hnone (blanks : List Line) (hsub : blanks ⊆ front ++ back) :
      ((blanks.map Item.plain).flatMap (cutOf source true lines).partsOf).filter
        (Part.counts values) = [] := by
    refine List.filter_eq_nil_iff.mpr fun p hp => ?_
    obtain ⟨item, hitem, hp⟩ := List.mem_flatMap.mp hp
    obtain ⟨line, hline, rfl⟩ := List.mem_map.mp hitem
    rw [List.mem_singleton.mp hp, counts_of_blank hlines heq hblank hvalues (hsub hline)]
    exact Bool.false_ne_true
  refine ⟨⟨trimmed.flatMap (cutOf source true lines).partsOf, (trimmed.filterMap Item.label?).eraseDups⟩,
    by rw [section_eq, hitems]; rfl, ?_, ?_⟩
  · simp only [List.flatMap_append, List.filter_append, hnone front (List.subset_append_left _ _),
      hnone back (List.subset_append_right _ _), List.nil_append, List.append_nil]
  · have hplain (blanks : List Line) : (blanks.map Item.plain).filterMap Item.label? = [] :=
      List.filterMap_eq_nil_iff.mpr fun item hitem => by
        obtain ⟨line, -, rfl⟩ := List.mem_map.mp hitem
        rfl
    simp only [List.filterMap_append, hplain, List.nil_append, List.append_nil]

end

/-! ## Gaps -/

theorem sublist_of_linesOf {source : List Char} {before body : List Line} {line : Line}
    (h : linesOf source = before ++ line :: body) : body.Sublist (linesOf source) :=
  h ▸ (List.sublist_cons_self _ _).trans (List.sublist_append_right _ _)

/-- A place between two lines of the expectations, outside of any block: the lines behind the separator,
and in front of the line that starts there, close all their blocks. -/
structure Gap (source : List Char) (k : Nat) (above below : List Line) : Prop where
  lines : ∃ before separator, linesOf source = before ++ separator :: (above ++ below) ∧
    separator.separates = true
  start : below.head?.map Line.start = some k
  outside : Balanced (readLines none above)

/-- A source with some text put into it: what is written behind it moves. -/
def Source.insert (source : Source) (k : Nat) (text : List Char) : Source :=
  ⟨source.text.take k ++ (text ++ source.text.drop k),
    source.values.map (Anchored.movedFrom k text.length)⟩

/-- The labels that lines bring into a section, each as often as it is brought. -/
def broughtBy (lines : List Line) : List String := (readLines none lines).filterMap (·.2.brings?)

theorem Itemized.broughtBy {lines : List Line} {items : List Item} (h : Itemized lines items) :
    broughtBy lines = items.filterMap Item.label? := filterMap_brings h.itemsOf

theorem itemized_of_balanced {lines : List Line} (h : Balanced (readLines none lines)) :
    ∃ items, Itemized lines items := by
  rcases decides_itemsOf lines with ⟨items, hok, -⟩ | ⟨refusal, -, -, hnot⟩
  · exact ⟨items, itemized_of_itemsOf hok⟩
  · exact absurd h hnot

/-- All lines but the last one have a break. -/
theorem next_of_linesOf {source : List Char} {front back : List Line} {line other : Line}
    (h : linesOf source = front ++ line :: back) (hother : other ∈ front) :
    other.next = other.finish + 1 := by
  have hfollows := linesOf_follows source
  rw [h, List.append_cons] at hfollows
  have hsize := congrArg List.length (break_of_follows hfollows.left_of_append hother)
  rw [Line.break, List.length_replicate, List.length_singleton] at hsize
  have hnext := (linesOf_in (h ▸ List.mem_append_left _ hother)).fits.next
  omega

/-- The lines in front of an offset are those that start there. -/
theorem filter_start_lt {front back : List Line} {k : Nat} (hfront : ∀ line ∈ front, line.start < k)
    (hback : ∀ line ∈ back, k ≤ line.start) :
    (front ++ back).filter (fun line => line.start < k) = front := by
  rw [List.filter_append, List.filter_eq_self.mpr, List.filter_eq_nil_iff.mpr, List.append_nil]
  · intro line hline
    have hle := hback line hline
    simp only [decide_eq_true_eq]
    omega
  · intro line hline
    exact decide_eq_true (hfront line hline)

/-- Where a line starts that is not the first one, the source is cut behind a break. -/
theorem exists_break {source : List Char} {front back : List Line} {line : Line}
    (h : linesOf source = front ++ line :: back) (hne : front ≠ []) : ∃ text rest,
      source = text ++ '\n' :: rest ∧ text.length + 1 = line.start ∧ brokenLines text = front ∧
        (linesOf rest).map (Line.moved line.start) = line :: back := by
  have hfollows := linesOf_follows source
  rw [h] at hfollows
  have hin {other : Line} (hother : other ∈ front ++ line :: back) : other.In source :=
    linesOf_in (h ▸ hother)
  have hbreak (other : Line) (hother : other ∈ front) : other.next = other.finish + 1 :=
    next_of_linesOf h hother
  have happart := (linesOf_spec source).2
  rw [h, List.pairwise_append, List.pairwise_cons] at happart
  obtain ⟨-, ⟨hbehind, -⟩, hcross⟩ := happart
  obtain ⟨start, last, rfl⟩ : ∃ start last, front = start ++ [last] :=
    ⟨_, _, (List.dropLast_append_getLast hne).symm⟩
  have hlast : last ∈ start ++ [last] := List.mem_append_right _ (List.mem_singleton_self _)
  have hlastIn := hin (List.mem_append_left _ hlast)
  have hnext : line.start = last.next := by
    rw [List.append_assoc, List.singleton_append] at hfollows
    exact (List.isChain_cons_cons.mp hfollows.right_of_append).1.1
  have hwhole : last.whole = last.text ++ ['\n'] := by
    rw [Line.whole, Line.break, hbreak last hlast, Nat.add_sub_cancel_left]
    rfl
  have hlength : (source.take last.start ++ last.text).length + 1 = line.start := by
    have hfits := hlastIn.fits
    have hfinish := hfits.finish
    have hend := hfits.next
    have hsize := hfits.size
    have hlastBreak := hbreak last hlast
    rw [List.length_append, List.length_take, Nat.min_eq_left (by omega)]
    omega
  have hsource : source = (source.take last.start ++ last.text) ++ '\n' :: source.drop last.next := by
    conv_lhs => rw [← List.take_append_drop last.start source, hlastIn.text, hwhole]
    simp
  refine ⟨source.take last.start ++ last.text, source.drop last.next, hsource, hlength, ?_⟩
  -- both ways to cut the lines are by where they start
  have hlines := linesOf_break (source.take last.start ++ last.text) (source.drop last.next)
  rw [← hsource, h, hlength] at hlines
  have hfront : (start ++ [last] ++ line :: back).filter (fun other => other.start < line.start) =
      start ++ [last] := by
    refine filter_start_lt (fun other hother => ?_) fun other hother => ?_
    · have hle := hcross other hother line List.mem_cons_self
      have hend := hbreak other hother
      have hfinish := (hin (List.mem_append_left _ hother)).finish
      omega
    · rcases List.mem_cons.mp hother with rfl | hmem
      · exact Nat.le_refl _
      · have hle := hbehind other hmem
        have hfits := (hin (List.mem_append_right _ (List.mem_cons_self (a := line) (l := back)))).fits
        have hfinish := hfits.finish
        have hend := hfits.next
        omega
  have hbroken : (brokenLines (source.take last.start ++ last.text) ++
      (linesOf (source.drop last.next)).map (Line.moved line.start)).filter
        (fun other => other.start < line.start) =
      brokenLines (source.take last.start ++ last.text) := by
    refine filter_start_lt (fun other hother => ?_) fun other hother => ?_
    · obtain ⟨hfinish, hend, hle⟩ := brokenLines_spec hother
      omega
    · obtain ⟨inner, -, rfl⟩ := List.mem_map.mp hother
      exact Nat.le_add_right _ _
  have hsame : brokenLines (source.take last.start ++ last.text) = start ++ [last] := by
    rw [← hbroken, ← hlines, hfront]
  rw [hsame] at hlines
  exact ⟨hsame, (List.append_cancel_left hlines).symm⟩

/-- Lines of a text, each with its break, that can be put into a gap: they stand for some items, start no
section, are not indented less than all lines with text around them, and leave the labels in order. -/
structure Fill (above below : List Line) (labels : List String) (body : List Char) (items : List Item) :
    Prop where
  made : Itemized (brokenLines body) items
  plain : ∀ line ∈ brokenLines body, line.starts = false
  indent : ∀ line ∈ brokenLines body, line.isBlank = true ∨
    ∃ other ∈ above ++ below, other.isBlank = false ∧ other.indent ≤ line.indent
  labels : (broughtBy above ++ (items.filterMap Item.label? ++ broughtBy below)).eraseDups = labels

/-- A gap, and the text in front of it. -/
theorem Gap.cut {source : List Char} {k : Nat} {above below : List Line}
    (h : Gap source k above below) : ∃ before separator text rest,
      linesOf source = before ++ separator :: (above ++ below) ∧ separator.separates = true ∧
      source = text ++ '\n' :: rest ∧ text.length + 1 = k ∧
      brokenLines text = before ++ separator :: above ∧ (linesOf rest).map (Line.moved k) = below := by
  obtain ⟨before, separator, hlines, hseparates⟩ := h.lines
  obtain ⟨line, hline, rfl⟩ := Option.map_eq_some_iff.mp h.start
  obtain ⟨back, rfl⟩ := List.head?_eq_some_iff.mp hline
  have hcut : linesOf source = (before ++ separator :: above) ++ line :: back := by
    rw [hlines]
    simp
  obtain ⟨text, rest, hsource, hlength, hbroken, hrest⟩ := exists_break hcut (by simp)
  exact ⟨before, separator, text, rest, hlines, hseparates, hsource, hlength, hbroken, hrest⟩

/-- The lines of a source with some lines put into it. -/
theorem linesOf_insert (text body rest : List Char) :
    linesOf (text ++ '\n' :: (body ++ '\n' :: rest)) =
      brokenLines text ++ ((brokenLines body).map (Line.moved (text.length + 1)) ++
        ((linesOf rest).map (Line.moved (text.length + 1))).map (Line.moved (body.length + 1))) := by
  rw [linesOf_break, linesOf_break, List.map_append, List.map_map, List.map_map]
  refine congrArg (fun lines => brokenLines text ++ (_ ++ lines)) (List.map_congr_left fun line _ => ?_)
  simp only [Function.comp_apply, Line.moved, Nat.add_left_comm]

/-- Broken lines are lines of the text with a break. -/
theorem brokenLines_sublist (text : List Char) :
    (brokenLines text).Sublist (linesOf (text ++ ['\n'])) := by
  rw [linesOf_break]
  exact List.sublist_append_left _ _

/-- The lines of items are lines that they are made of. -/
theorem Itemized.mem_lines {lines : List Line} {items : List Item} (h : Itemized lines items) {item : Item}
    {line : Line} (hitem : item ∈ items) (hline : line ∈ item.lines) : line ∈ lines :=
  (itemsOf_lines h.itemsOf).subset (List.mem_flatMap.mpr ⟨item, hitem, hline⟩)

/-- The parts of items lie within the lines that the items are made of. -/
theorem Itemized.spans {source : List Char} {lines : List Line} {items : List Item}
    (h : Itemized lines items) (hlines : lines.Sublist (linesOf source)) (cut : Cut) {p : Part}
    (hp : p ∈ items.flatMap cut.partsOf) :
    (∃ line ∈ lines, line.start ≤ p.start) ∧ ∃ line ∈ lines, p.stop ≤ line.next := by
  have hsub := itemsOf_lines h.itemsOf
  obtain ⟨hfits, happart⟩ := linesOf_spec source
  obtain ⟨hspans, -⟩ := @Cut.spans_flatMap cut _ _
    (fun line hline => hfits line ((hsub.trans hlines).subset hline))
    (happart.sublist (hsub.trans hlines))
  obtain ⟨item, hitem, hspan⟩ := hspans p hp
  obtain ⟨first, hfirst, hstart⟩ := hspan.first
  obtain ⟨last, hlast, hstop⟩ := hspan.last
  exact ⟨⟨first, h.mem_lines hitem hfirst, hstart⟩, ⟨last, h.mem_lines hitem hlast, hstop⟩⟩

/-- Values among lines with text stay among them. -/
theorem Enclosed.moved {k n : Nat} {above inserted below : List Line} {a : Anchored}
    (h : Enclosed (above ++ below) a) (habove : ∀ line ∈ above, line.next ≤ k)
    (hbelow : ∀ line ∈ below, k ≤ line.start) :
    Enclosed (above ++ (inserted ++ below.map (Line.moved n))) (a.movedFrom k n) := by
  have hindex : (a.movedFrom k n).index = if a.index < k then a.index else n + a.index := by
    rw [Anchored.movedFrom, apply_ite Anchored.index, Anchored.index_moved]
  obtain ⟨first, hfirst, hvisible, hstart⟩ := h.first
  obtain ⟨last, hlast, hvisible', hnext⟩ := h.last
  constructor
  · rcases List.mem_append.mp hfirst with hfirst | hfirst
    · refine ⟨first, List.mem_append_left _ hfirst, hvisible, ?_⟩
      rw [hindex]
      split <;> omega
    · have hle := hbelow first hfirst
      refine ⟨first.moved n, List.mem_append_right _ (List.mem_append_right _
        (List.mem_map_of_mem hfirst)), hvisible, ?_⟩
      rw [hindex, if_neg (by omega), Line.start_moved]
      omega
  · rcases List.mem_append.mp hlast with hlast | hlast
    · have hle := habove last hlast
      refine ⟨last, List.mem_append_left _ hlast, hvisible', ?_⟩
      rw [hindex, if_pos (by omega)]
      exact hnext
    · refine ⟨last.moved n, List.mem_append_right _ (List.mem_append_right _
        (List.mem_map_of_mem hlast)), hvisible', ?_⟩
      rw [hindex, Line.next_moved]
      split <;> omega

/-- The parts of the expectations do not depend on which line is the last one. -/
theorem partsOf_cutOf (source : List Char) (lines : List Line) :
    (cutOf source true lines).partsOf =
      Cut.partsOf ⟨source, commonIndent (trimLines lines), true, 0⟩ := by
  funext item
  cases item with
  | plain line => rfl
  | condition label marker line => rfl
  | block label title opener inner => cases inner <;> rfl

/-- Lines put between the lines of a section, and the section with them. -/
theorem section_inserted {source source' : List Char} {k n : Nat} {above inserted below : List Line}
    {items : List Item} {values : List Anchored} {s : Section}
    (hlines : (above ++ below).Sublist (linesOf source))
    (hlines' : (above ++ (inserted ++ below.map (Line.moved n))).Sublist (linesOf source'))
    (habove : ∀ line ∈ above, line.next ≤ k)
    (hinserted : ∀ line ∈ inserted, k ≤ line.start ∧ line.next ≤ k + n)
    (hbelow : ∀ line ∈ below, k ≤ line.start) (htake : source'.take k = source.take k)
    (hdrop : source'.drop (n + k) = source.drop k) (houtside : Balanced (readLines none above))
    (hitems : Itemized inserted items)
    (hindent : ∀ line ∈ inserted, line.isBlank = true ∨
      ∃ other ∈ above ++ below, other.isBlank = false ∧ other.indent ≤ line.indent)
    (hlabels : (broughtBy above ++ (items.filterMap Item.label? ++ broughtBy below)).eraseDups = s.labels)
    (hof : Section.of source true (above ++ below) = .ok s)
    (hinside : ∀ a ∈ values, ∃ p ∈ s.parts, p.holds a = true) :
    ∃ s' first last indent, Section.of source' true (above ++ (inserted ++ below.map (Line.moved n))) =
        .ok s' ∧ Itemized above first ∧
      Section.Inserted k n values
        ((first.flatMap (Cut.partsOf ⟨source, indent, true, 0⟩)).filter (Part.counts values))
        ((items.flatMap (Cut.partsOf ⟨source', indent, true, 0⟩)).filter
          (Part.counts (values.map (Anchored.movedFrom k n)))) last s s' := by
  obtain ⟨trimmed, htrimmed, -, -⟩ := section_eq_ok hof
  obtain ⟨front, back, -, -, hall⟩ := itemized_trimLines (itemized_of_itemsOf htrimmed)
  obtain ⟨first, hfirst⟩ := itemized_of_balanced houtside
  obtain ⟨last, heq, hlast⟩ := hfirst.of_append hall
  rw [heq] at hall
  have hall' := hfirst.append (hitems.append (hlast.moved n))
  have henclosed : ∀ a ∈ values, Enclosed (above ++ below) a := fun a ha => by
    obtain ⟨p, hp, hholds⟩ := hinside a ha
    exact enclosed_of_holds hlines hof hp hholds
  have henclosed' : ∀ a ∈ values.map (Anchored.movedFrom k n),
      Enclosed (above ++ (inserted ++ below.map (Line.moved n))) a := fun a ha => by
    obtain ⟨b, hb, rfl⟩ := List.mem_map.mp ha
    exact (henclosed b hb).moved habove hbelow
  obtain ⟨s₀, hs₀, hparts, hnames⟩ := section_of_itemized hlines hall henclosed
  obtain rfl : s₀ = s := Except.ok.inj (hs₀.symm.trans hof)
  obtain ⟨s', hs', hparts', hnames'⟩ := section_of_itemized hlines' hall' henclosed'
  have hindents : commonIndent (trimLines (above ++ (inserted ++ below.map (Line.moved n)))) =
      commonIndent (trimLines (above ++ below)) := by
    rw [commonIndent_trimLines, commonIndent_trimLines, ← List.append_assoc, commonIndent_moved,
      commonIndent_insert hindent]
  rw [partsOf_cutOf] at hparts hparts'
  rw [hindents] at hparts'
  generalize commonIndent (trimLines (above ++ below)) = indent at hparts hparts'
  have hin (line : Line) (hline : line ∈ above ++ below) : line.Fits source.length :=
    (linesOf_spec source).1 line (hlines.subset hline)
  have hfront : first.flatMap (Cut.partsOf ⟨source', indent, true, 0⟩) =
      first.flatMap (Cut.partsOf ⟨source, indent, true, 0⟩) :=
    List.flatMap_congr fun item hitem => Cut.partsOf_of_take rfl rfl (fun _ => rfl) htake
      fun line hline => by
        have hmem := hfirst.mem_lines hitem hline
        exact ⟨(hin line (List.mem_append_left _ hmem)).next, habove line hmem⟩
  have hback := @partsOf_map_moved source source' n k indent last hdrop fun item hitem line hline => by
    have hmem := hlast.mem_lines hitem hline
    have hfits := hin line (List.mem_append_right _ hmem)
    have hfinish := hfits.finish
    exact ⟨hbelow line hmem, by omega, hfits.next⟩
  have hstop (p : Part) (hp : p ∈ first.flatMap (Cut.partsOf ⟨source, indent, true, 0⟩)) : p.stop ≤ k := by
    obtain ⟨-, line, hline, hle⟩ :=
      hfirst.spans ((List.sublist_append_left _ _).trans hlines) _ hp
    exact hle.trans (habove line hline)
  have hstart (p : Part) (hp : p ∈ last.flatMap (Cut.partsOf ⟨source, indent, true, 0⟩)) :
      k ≤ p.start := by
    obtain ⟨⟨line, hline, hle⟩, -⟩ :=
      hlast.spans ((List.sublist_append_right _ _).trans hlines) _ hp
    exact (hbelow line hline).trans hle
  refine ⟨s', first, (last.flatMap (Cut.partsOf ⟨source, indent, true, 0⟩)).filter (Part.counts values),
    indent, hs', hfirst, ?_, ?_, ?_, ?_, ?_, ?_⟩
  · rw [hparts, List.flatMap_append, List.filter_append]
  · rw [hparts', List.flatMap_append, List.flatMap_append, List.filter_append, List.filter_append, hfront,
      hback, List.filter_map]
    refine congrArg₂ (· ++ ·) (List.filter_congr fun p hp => ?_)
      (congrArg (_ ++ ·) (congrArg (List.map _) (List.filter_congr fun p hp => ?_)))
    · exact Part.counts_of_stop_le (hstop p hp)
    · exact Part.counts_moved (hstart p hp)
  · exact fun p hp => hstop p (List.mem_of_mem_filter hp)
  · intro p hp
    obtain ⟨⟨first, hfirst, hle⟩, last, hlast, hle'⟩ := hitems.spans
      (((List.sublist_append_left _ _).trans (List.sublist_append_right _ _)).trans hlines') _
      (List.mem_of_mem_filter hp)
    exact ⟨(hinserted first hfirst).1.trans hle, hle'.trans (hinserted last hlast).2⟩
  · exact fun p hp => hstart p (List.mem_of_mem_filter hp)
  · rw [hnames', List.filterMap_append, List.filterMap_append, filterMap_label?_moved,
      ← hfirst.broughtBy, ← hlast.broughtBy, hlabels]

/-- A part of the expectations ends where one of its lines does. -/
theorem Cut.stop_partsOf {cut : Cut} {item : Item} {p : Part} (hcut : cut.expectations = true)
    (hp : p ∈ cut.partsOf item) : ∃ line ∈ item.lines, p.stop = line.next := by
  have hend (line : Line) : cut.endOf line = line.next := by simp [Cut.endOf, hcut]
  cases item with
  | plain line =>
    rw [List.mem_singleton.mp hp]
    exact ⟨line, List.mem_singleton_self _, hend line⟩
  | condition label marker line =>
    rw [List.mem_singleton.mp hp]
    exact ⟨line, List.mem_singleton_self _, hend line⟩
  | block label title opener inner =>
    cases inner with
    | nil =>
      simp only [Cut.partsOf, hcut, if_true, List.mem_singleton] at hp
      rw [hp]
      exact ⟨opener, List.mem_singleton_self _, rfl⟩
    | cons first rest =>
      simp only [Cut.partsOf, hcut, if_true, List.mem_singleton] at hp
      have hlast : (first :: rest).getLastD first ∈ first :: rest := by
        rw [List.getLastD_eq_getLast?, List.getLast?_eq_some_getLast (List.cons_ne_nil _ _)]
        exact List.getLast_mem _
      rw [hp]
      exact ⟨_, List.mem_cons_of_mem _ hlast, hend _⟩

/-- The text of a part in front of other lines ends in a break, if there is any. -/
theorem Itemized.ends {source : List Char} {lines : List Line} {items : List Item}
    (h : Itemized lines items) (hlines : lines.Sublist (linesOf source))
    (hbreak : ∀ line ∈ lines, line.next = line.finish + 1) {indent : Nat} {p : Part}
    (hp : p ∈ items.flatMap (Cut.partsOf ⟨source, indent, true, 0⟩)) :
    p.text = [] ∨ p.text.getLast? = some '\n' := by
  obtain ⟨item, hitem, hp⟩ := List.mem_flatMap.mp hp
  obtain ⟨line, hline, hstop⟩ := Cut.stop_partsOf rfl hp
  have hmem := h.mem_lines hitem hline
  have hin := linesOf_in (hlines.subset hmem)
  have hwhole := hin.slice_next (Nat.zero_le _)
  rw [Line.break, hbreak line hmem, Nat.add_sub_cancel_left, List.drop_zero, Nat.add_zero] at hwhole
  have hlast : (source.take line.next).getLast? = some '\n' := by
    have hends := congrArg List.getLast? hwhole
    rw [List.getLast?_drop] at hends
    split at hends
    · simp at hends
    · rw [hbreak line hmem, hends]
      simp
  have htext : p.text = (source.take line.next).drop p.start := by
    have hsub := itemsOf_lines h.itemsOf
    obtain ⟨hfits, happart⟩ := linesOf_spec source
    have hitemLines : item.lines.Sublist (linesOf source) :=
      (List.sublist_flatten_of_mem (List.mem_map_of_mem hitem)).trans (hsub.trans hlines)
    obtain ⟨hspans, -⟩ := @Cut.spans_partsOf ⟨source, indent, true, 0⟩ _ _
      (fun line hline => hfits line (hitemLines.subset hline)) (happart.sublist hitemLines)
    rw [(hspans p hp).text, hstop]
  rw [htext, List.getLast?_drop]
  split
  · next hle => exact .inl (List.drop_eq_nil_of_le hle)
  · exact .inr hlast

/-- Lines that are put behind a break leave what stands in front of them, and what follows. -/
theorem Source.insert_behind {source : Source} {k : Nat} {text rest : List Char} (body : List Char)
    (hsource : source.text = text ++ '\n' :: rest) (hlength : text.length + 1 = k) :
    (source.insert k (body ++ ['\n'])).text = text ++ '\n' :: (body ++ '\n' :: rest) ∧
      (source.insert k (body ++ ['\n'])).text.take k = source.text.take k ∧
      (source.insert k (body ++ ['\n'])).text.drop k = body ++ '\n' :: rest ∧
      (source.insert k (body ++ ['\n'])).text.drop (body.length + 1 + k) = source.text.drop k := by
  have htake : source.text.take k = text ++ ['\n'] := by
    rw [hsource, ← hlength, List.take_length_add_append]
    rfl
  have hdrop : source.text.drop k = rest := by
    rw [hsource, ← hlength, List.drop_length_add_append]
    rfl
  have htext : (source.insert k (body ++ ['\n'])).text = text ++ '\n' :: (body ++ '\n' :: rest) := by
    simp [Source.insert, htake, hdrop]
  have hbehind : (source.insert k (body ++ ['\n'])).text.drop k = body ++ '\n' :: rest := by
    rw [htext, ← hlength, List.drop_length_add_append]
    rfl
  refine ⟨htext, ?_, hbehind, ?_⟩
  · rw [htake, htext, ← hlength, List.take_length_add_append]
    rfl
  · rw [Nat.add_comm, ← List.drop_drop, hbehind, hdrop, List.drop_length_add_append]
    rfl

/-- What some lines ask for is the same wherever they are put in, since no values stand in them. -/
theorem demandOf_inserted {source body rest : List Char} {k : Nat} {items : List Item}
    (hitems : Itemized (brokenLines body) items) (hsource : source.drop k = body ++ '\n' :: rest)
    (values : List Anchored) (indent : Nat) (label : String) :
    demandOf label (values.map (Anchored.movedFrom k (body.length + 1)))
        ((items.map (Item.moved k)).flatMap (Cut.partsOf ⟨source, indent, true, 0⟩)) =
      demandOf label [] (items.flatMap (Cut.partsOf ⟨body ++ ['\n'], indent, true, 0⟩)) := by
  have hbody (item : Item) (hitem : item ∈ items) (line : Line) (hline : line ∈ item.lines) :
      line.start ≤ line.finish ∧ line.finish ≤ line.next ∧ line.next ≤ body.length + 1 := by
    obtain ⟨hfinish, hnext, hle⟩ := brokenLines_spec (hitems.mem_lines hitem hline)
    omega
  have hrest : items.flatMap (Cut.partsOf ⟨body ++ '\n' :: rest, indent, true, 0⟩) =
      items.flatMap (Cut.partsOf ⟨body ++ ['\n'], indent, true, 0⟩) :=
    List.flatMap_congr fun item hitem => Cut.partsOf_of_take rfl rfl (fun _ => rfl)
      (by rw [List.take_length_add_append, List.take_length_add_append]; rfl)
      fun line hline => (hbody item hitem line hline).2
  have hmoved := @partsOf_map_moved (body ++ '\n' :: rest) source k 0 indent items hsource
    fun item hitem line hline =>
      ⟨Nat.zero_le _, (hbody item hitem line hline).1, (hbody item hitem line hline).2.1⟩
  rw [hmoved, hrest]
  refine demandOf_congr (List.forall₂_map_right_iff.mpr (List.forall₂_same.mpr fun p hp => ?_))
  obtain ⟨-, line, hline, hle⟩ := hitems.spans (brokenLines_sublist body) _ hp
  have hnext := (brokenLines_spec hline).2.2
  exact @Part.demand_moved label [] _ p k (share_of_between (Nat.le_add_right _ _)
    (Nat.add_le_add_left (hle.trans hnext) k))

/-- What is put between two lines of the expectations changes nothing but the expectations, and adds its
parts to them. -/
theorem Gap.inserted {source : Source} {full : Bool} {outline : Outline} {s : Section} {k : Nat}
    {above below : List Line} {body : List Char} {items : List Item}
    (hgap : Gap source.text k above below) (houtline : Outline.of source.text full = .ok outline)
    (hs : outline.expectations = some s)
    (hinside : ∀ a ∈ source.values, ∃ p ∈ s.parts, p.holds a = true)
    (hfill : Fill above below s.labels body items) :
    ∃ s' front more back, ∃ indent : Nat,
      Outline.of (source.insert k (body ++ ['\n'])).text full =
        .ok { outline with expectations := some s' } ∧
      Section.Inserted k (body.length + 1) source.values front more back s s' ∧
      (∀ p ∈ front, p.text = [] ∨ p.text.getLast? = some '\n') ∧
      ∀ label, demandOf label (source.insert k (body ++ ['\n'])).values more =
        demandOf label [] (items.flatMap (Cut.partsOf ⟨body ++ ['\n'], indent, true, 0⟩)) := by
  obtain ⟨before, separator, text, rest, hlines, hseparates, hsource, hlength, hbroken, hrest⟩ := hgap.cut
  obtain ⟨htext, htake', hdrop', hbehind⟩ := Source.insert_behind body hsource hlength
  have hlines' : linesOf (source.insert k (body ++ ['\n'])).text = before ++ separator ::
      (above ++ ((brokenLines body).map (Line.moved k) ++ below.map (Line.moved (body.length + 1)))) := by
    rw [htext, linesOf_insert, hlength, hrest, hbroken]
    simp
  have habove (line : Line) (hline : line ∈ separator :: above) : line.start < k ∧
      line.next = line.finish + 1 ∧ line.next ≤ k := by
    obtain ⟨hfinish, hnext, hle⟩ := brokenLines_spec (hbroken ▸ List.mem_append_right _ hline)
    exact ⟨by omega, hnext, by omega⟩
  have hbelow (line : Line) (hline : line ∈ below) : k ≤ line.start := by
    obtain ⟨inner, -, rfl⟩ := List.mem_map.mp (hrest ▸ hline)
    exact Nat.le_add_right _ _
  have hseparator : (source.insert k (body ++ ['\n'])).text.take separator.start =
      source.text.take separator.start := by
    have hle := Nat.le_of_lt (habove separator List.mem_cons_self).1
    rw [← Nat.min_eq_left hle, ← List.take_take, ← List.take_take, htake']
  have hplain : ∀ line ∈ above ++ below, line.starts = false :=
    (starts_of_separator hlines hseparates houtline).1
  have hplain' : ∀ line ∈ above ++ ((brokenLines body).map (Line.moved k) ++
      below.map (Line.moved (body.length + 1))), line.starts = false := by
    simp only [List.forall_mem_append, List.forall_mem_map, Line.starts_moved] at hplain ⊢
    exact ⟨hplain.1, hfill.plain, hplain.2⟩
  obtain ⟨s₀, hs₀, hof, houtline'⟩ :=
    outline_of_separator hlines hlines' hseparates hseparator hplain' houtline
  obtain rfl : s = s₀ := Option.some.inj (hs.symm.trans hs₀)
  have hsub := sublist_of_linesOf hlines
  obtain ⟨s', first, last, indent, hs', hfirst, hinserted⟩ := section_inserted hsub
    (sublist_of_linesOf hlines')
    (fun line hline => (habove line (List.mem_cons_of_mem _ hline)).2.2)
    (fun line hline => by
      obtain ⟨inner, hinner, rfl⟩ := List.mem_map.mp hline
      have hle := (brokenLines_spec hinner).2.2
      simp only [Line.start_moved, Line.next_moved]
      omega)
    hbelow htake' hbehind hgap.outside
    (hfill.made.moved k) (fun line hline => by
      obtain ⟨inner, hinner, rfl⟩ := List.mem_map.mp hline
      exact hfill.indent inner hinner)
    ((filterMap_label?_moved k items).symm ▸ hfill.labels) hof hinside
  refine ⟨s', _, _, _, indent, houtline' s' hs', hinserted, fun p hp => ?_, fun label => ?_⟩
  · exact hfirst.ends ((List.sublist_append_left _ _).trans hsub)
      (fun line hline => (habove line (List.mem_cons_of_mem _ hline)).2.1) (List.mem_of_mem_filter hp)
  · have hvalues : (source.insert k (body ++ ['\n'])).values =
        source.values.map (Anchored.movedFrom k (body.length + 1)) := by
      simp [Source.insert]
    rw [hvalues, demandOf_counts, demandOf_inserted hfill.made hdrop']

/-- The labels of the expectations, from the lines in front of a gap and those behind it. -/
theorem Gap.labels {source : List Char} {full : Bool} {outline : Outline} {s : Section} {k : Nat}
    {above below : List Line} (hgap : Gap source k above below)
    (houtline : Outline.of source full = .ok outline) (hs : outline.expectations = some s) :
    s.labels = (broughtBy above ++ broughtBy below).eraseDups := by
  obtain ⟨before, separator, hlines, hseparates⟩ := hgap.lines
  have hplain := (starts_of_separator hlines hseparates houtline).1
  obtain ⟨s₀, hs₀, hof, -⟩ := outline_of_separator hlines hlines hseparates rfl hplain houtline
  obtain rfl : s = s₀ := Option.some.inj (hs.symm.trans hs₀)
  obtain ⟨trimmed, htrimmed, -, -⟩ := section_eq_ok hof
  obtain ⟨front, back, -, -, hall⟩ := itemized_trimLines (itemized_of_itemsOf htrimmed)
  obtain ⟨first, hfirst⟩ := itemized_of_balanced hgap.outside
  obtain ⟨last, heq, hlast⟩ := hfirst.of_append hall
  obtain ⟨s₁, hs₁, -, hlabels⟩ := section_of_itemized (sublist_of_linesOf hlines) hall
    (List.forall_mem_nil _)
  obtain rfl : s₁ = s := Except.ok.inj (hs₁.symm.trans hof)
  rw [hlabels, heq, List.filterMap_append, hfirst.broughtBy, hlast.broughtBy]

end HotSpec.Spec
