import HotSpec.Proofs.Spec.Conservation
import HotSpec.Proofs.Spec.Mapping
import HotSpec.Proofs.Spec.Trailing

/-!
# The last line break of a source

A line break at the end of a source means nothing, as long as no value stands at the very end: the
source compiles to the same spec with it and without it, or to none.  A value at the very end is in
front of the break where there is one, and in no line at all where there is none.

Main definitions:

- `Line.Ends`, `Part.Ends`: a line and a part of a source, and the same with a break more at its end.

Main results:

- Theorem `linesOf_append_break`: the lines of a source with a break more.
- Theorem `compile_append_break`: a source compiles to the same spec with a break more at its end, unless
  a value stands there.
- Theorem `break_behind_hook`: a hook at the very end of a condition.
-/

namespace HotSpec.Spec

open HotSpec.Text

/-! ## Lines -/

/-- A line of a source of some size, and the line of the source with a break more: the last line has
the break. -/
inductive Line.Ends (size : Nat) : Line → Line → Prop
  | same (line : Line) : Ends size line line
  | last {line : Line} (hfinish : line.finish = size) (hnext : line.next = size) :
      Ends size line { line with next := size + 1 }

theorem Line.Ends.sameText {size : Nat} {line line' : Line} (h : line.Ends size line') :
    line.SameText line' := by
  cases h <;> rfl

/-- A line that has a break is not the last one. -/
theorem Line.Ends.eq_of_break {size : Nat} {line line' : Line} (h : line.Ends size line')
    (hbreak : line.break = ['\n']) : line' = line := by
  cases h with
  | same => rfl
  | last hfinish hnext =>
    rw [Line.break, hfinish, hnext, Nat.sub_self] at hbreak
    cases hbreak

/-- The lines of a source with a break more: there is an empty one behind them. -/
theorem placeLines_append_break {size offset : Nat} {texts : List (List Char)}
    (hsize : offset + (texts.intersperse ['\n']).flatten.length = size) (hne : texts ≠ []) :
    ∃ lines last, placeLines (size + 1) offset (texts ++ [[]]) = lines ++ [last] ∧ last.text = [] ∧
      List.Forall₂ (Line.Ends size) (placeLines size offset texts) lines := by
  induction texts generalizing offset with
  | nil => exact absurd rfl hne
  | cons text texts ih =>
    cases texts with
    | nil =>
      have hlast : offset + text.length = size := by simpa using hsize
      refine ⟨[⟨offset, size, size + 1, text⟩], ⟨size + 1, size + 1, size + 1, []⟩, ?_, rfl, ?_⟩
      · simp [placeLines, hlast]
      · have hline : placeLines size offset [text] = [⟨offset, size, size, text⟩] := by
          simp [placeLines, hlast]
        rw [hline]
        exact .cons (.last rfl rfl) .nil
    | cons next texts =>
      have hrest : offset + text.length + 1 + ((next :: texts).intersperse ['\n']).flatten.length =
          size := by
        simp only [List.intersperse_cons_cons, List.flatten_cons, List.length_append,
          List.length_singleton] at hsize
        omega
      obtain ⟨lines, last, hlines, hlast, hends⟩ := ih hrest (List.cons_ne_nil _ _)
      have hmin : min (offset + text.length + 1) size = offset + text.length + 1 := by omega
      have hmin' : min (offset + text.length + 1) (size + 1) = offset + text.length + 1 := by omega
      refine ⟨⟨offset, offset + text.length, offset + text.length + 1, text⟩ :: lines, last, ?_, hlast, ?_⟩
      · rw [List.cons_append, placeLines, hlines, hmin', List.cons_append]
      · rw [placeLines, hmin]
        exact .cons (.same _) hends

theorem linesOf_append_break (text : List Char) : ∃ lines last,
    linesOf (text ++ ['\n']) = lines ++ [last] ∧ last.isBlank = true ∧
      List.Forall₂ (Line.Ends text.length) (linesOf text) lines := by
  have hsize : 0 + ((splitOn '\n' text).intersperse ['\n']).flatten.length = text.length := by
    rw [splitOn_flatten, Nat.zero_add]
  obtain ⟨lines, last, hlines, hlast, hends⟩ :=
    placeLines_append_break hsize (splitOn_ne_nil '\n' text)
  refine ⟨lines, last, ?_, ?_, hends⟩
  · rw [linesOf, splitOn_append, List.length_append]
    exact hlines
  · simp [Line.isBlank, hlast, blank]

/-! ## Sections -/

/-- A section, and the same section of the source with a break more: there may be an empty line at its
end. -/
structure SectionEnds (size : Nat) (s s' : Line × List Line) : Prop where
  first : s.1.ReadsAs s'.1
  lines : Alongside (fun _ => Line.Ends size) false (trimLines s.2) (trimLines s'.2)
  balanced : Balanced (readLines none s.2) ↔ Balanced (readLines none s'.2)
  contents : contentsIn s.2 = contentsIn s'.2
  starts : ∀ line ∈ s.2, line.starts = false

theorem sections_append_break (text : List Char) :
    List.Forall₂ (SectionEnds text.length) (sectionLines (linesOf text))
      (sectionLines (linesOf (text ++ ['\n']))) := by
  obtain ⟨lines, last, hlines, hlast, hends⟩ := linesOf_append_break text
  have hreads (inside : Bool) (line line' : Line) (h : line.Ends text.length line') :
      line.ReadsAs line' := h.sameText.readsAs
  have hsections := (@Alongside.of_forall₂ false _ _ _ hends).sectionLines hreads
  rw [hlines]
  refine forall₂_trans (fun s s' s'' hs hs' => ?_) hsections (sectionLines_append_blank hlast lines)
  obtain ⟨⟨_, hfirst⟩, halong, hstarts⟩ := hs
  obtain ⟨hsame, hbody⟩ := hs'
  have htrim : trimLines s''.2 = trimLines s'.2 := by
    rcases hbody with hbody | hbody
    · rw [hbody]
    · rw [hbody, trimLines_append_blank hlast]
  have halong := halong.trimLines hreads
  rw [← htrim] at halong
  have htexts := halong.forall₂.imp fun _ _ ⟨_, h⟩ => h.sameText
  obtain ⟨hbalanced, hcontents⟩ := reads_trimLines hstarts htexts
  exact ⟨hsame ▸ hfirst.sameText.readsAs, halong, hbalanced, hcontents, hstarts⟩

/-- The first line that is not blank is the same one. -/
theorem find?_append_break (text : List Char) :
    Option.Rel Line.ReadsAs ((linesOf text).find? fun line => !line.isBlank)
      ((linesOf (text ++ ['\n'])).find? fun line => !line.isBlank) := by
  obtain ⟨lines, last, hlines, hlast, hends⟩ := linesOf_append_break text
  have hnone : [last].find? (fun line => !line.isBlank) = none := by simp [hlast]
  rw [hlines, List.find?_append, hnone, Option.or_none]
  exact rel_find?_of_forall₂ (hends.imp fun _ _ h => h.sameText.readsAs) fun _ _ h => by rw [h.isBlank]

/-- The lines in front of the first section are fit for it, or are not. -/
theorem preamble_append_break (text : List Char) {P : Line → Prop}
    (hblank : ∀ line, line.isBlank = true → P line)
    (hreads : ∀ line line', Line.ReadsAs line line' → (P line ↔ P line')) :
    (∀ line ∈ (linesOf text).takeWhile (!·.starts), P line) ↔
      ∀ line ∈ (linesOf (text ++ ['\n'])).takeWhile (!·.starts), P line := by
  obtain ⟨lines, last, hlines, hlast, hends⟩ := linesOf_append_break text
  have hfront := (@Alongside.of_forall₂ false _ _ _ hends).takeWhile
    fun _ _ _ h => h.sameText.readsAs
  have hiff := forall_mem_iff_of_forall₂ hfront.forall₂ fun line line' ⟨_, h⟩ =>
    hreads line line' h.sameText.readsAs
  rw [hiff, hlines, List.takeWhile_append]
  split
  · next hall =>
    rw [(List.takeWhile_prefix _).eq_of_length hall, List.takeWhile_cons_of_pos
      (by simp [Line.starts_of_blank hlast]), List.takeWhile_nil, List.forall_mem_append]
    simp [hblank last hlast]
  · exact Iff.rfl

/-- A source is well formed with a break more at its end, or without it. -/
theorem wellFormed_append_break (text : List Char) (full : Bool) :
    WellFormed full (linesOf text) ↔ WellFormed full (linesOf (text ++ ['\n'])) := by
  have hsections := sections_append_break text
  have htitle : (∃ line, (linesOf text).find? (!·.isBlank) = some line ∧ line.isTitle = true) ↔
      ∃ line, (linesOf (text ++ ['\n'])).find? (!·.isBlank) = some line ∧ line.isTitle = true := by
    have hrel := find?_append_break text
    generalize (linesOf text).find? _ = found, (linesOf (text ++ ['\n'])).find? _ = found' at hrel ⊢
    cases hrel with
    | none => simp
    | some h => simp [h.isTitle]
  have hpreamble := preamble_append_break text
    (P := fun line => line.isBlank = true ∨ full = true ∧ line.isTitle = true)
    (fun line h => .inl h) fun line line' h => by rw [h.isBlank, h.isTitle]
  have horder : ((sectionLines (linesOf text)).Pairwise fun first _ => first.1.separates = false) ↔
      (sectionLines (linesOf (text ++ ['\n']))).Pairwise fun first _ => first.1.separates = false := by
    have hmap := map_eq_of_forall₂ hsections (f := fun s => s.1.separates)
      (g := fun s => s.1.separates) fun s s' h => h.first.separator
    rw [← List.pairwise_map (f := fun s : Line × List Line => s.1.separates)
      (R := fun separates _ => separates = false), hmap, List.pairwise_map]
  have hbalanced := forall_mem_iff_of_forall₂ hsections fun _ _ h => h.balanced
  constructor
  · intro h
    exact ⟨fun hfull => htitle.mp (h.title hfull), hpreamble.mp h.preamble, horder.mp h.order,
      hbalanced.mp h.sections⟩
  · intro h
    exact ⟨fun hfull => htitle.mpr (h.title hfull), hpreamble.mpr h.preamble, horder.mpr h.order,
      hbalanced.mpr h.sections⟩

theorem titleOf_append_break (text : List Char) :
    (titleOf text).toOption = (titleOf (text ++ ['\n'])).toOption := by
  have hrel := find?_append_break text
  unfold titleOf
  generalize (linesOf text).find? _ = found, (linesOf (text ++ ['\n'])).find? _ = found' at hrel ⊢
  cases hrel with
  | none => rfl
  | some h =>
    simp only [← h.title]
    split <;> rfl

/-! ## Parts -/

/-- A part of a source of some size, and the part of the source with a break more. -/
inductive Part.Ends (size : Nat) : Part → Part → Prop
  | same (p : Part) : Ends size p p
  | last {p : Part} (hblock : p.block = false) (hstop : p.stop = size) :
      Ends size p { p with text := p.text ++ ['\n'], stop := p.stop + 1 }

/-- The lines of a block are followed by its closer. -/
theorem break_of_block {lines : List Line} {items : List Item} (h : ReadAs lines items)
    (hfollows : lines.IsChain Line.Follows) {label : String} {title : Option String} {opener : Line}
    {inner : List Line} (hitem : .block label title opener inner ∈ items) :
    ∀ line ∈ opener :: inner, line.break = ['\n'] := by
  induction h with
  | nil => cases hitem
  | @block first closer inner' rest label' title' items _ _ ih =>
    have hfront : (first :: inner' ++ [closer]) ++ rest = first :: (inner' ++ closer :: rest) := by simp
    rw [← hfront] at hfollows
    rcases List.mem_cons.mp hitem with heq | hitem
    · cases heq
      intro line hline
      exact break_of_follows hfollows.left_of_append hline
    · exact ih hfollows.right_of_append hitem
  | @line first lines item items _ hread _ _ ih =>
    rcases List.mem_cons.mp hitem with rfl | hitem
    · -- a line that stands alone opens no block
      have hopens := congrArg LineKind.opens (Prod.mk.inj (List.cons.inj hread).1).2
      rw [opens_kindOutside] at hopens
      cases hopens
    · exact ih (List.isChain_of_isChain_cons hfollows) hitem

/-- A piece of a source is the same where the source has a break more. -/
theorem Cut.ends_of_le {text : List Char} {cut cut' : Cut} (hsource : cut.source = text)
    (hsource' : cut'.source = text ++ ['\n']) {start stop : Nat} (hstop : stop ≤ text.length)
    (label : Option String) (block : Bool) (title : Option String) :
    (cut.part start stop label block title).Ends text.length
      (cut'.part start stop label block title) := by
  have hsame : cut'.part start stop label block title = cut.part start stop label block title := by
    simp only [Cut.part, hsource, hsource', List.take_append_of_le_length hstop]
  rw [hsame]
  exact .same _

/-- A piece up to the end has the break. -/
theorem Cut.ends_last {text : List Char} {cut cut' : Cut} (hsource : cut.source = text)
    (hsource' : cut'.source = text ++ ['\n']) {start : Nat} (hstart : start ≤ text.length)
    (label : Option String) (title : Option String) :
    (cut.part start text.length label false title).Ends text.length
      (cut'.part start (text.length + 1) label false title) := by
  have htake : (text ++ ['\n']).take (text.length + 1) = text ++ ['\n'] := by
    apply List.take_of_length_le
    simp
  have hlast : cut'.part start (text.length + 1) label false title =
      { cut.part start text.length label false title with
        text := (cut.part start text.length label false title).text ++ ['\n'],
        stop := (cut.part start text.length label false title).stop + 1 } := by
    simp only [Cut.part, hsource, hsource', htake, List.take_length,
      List.drop_append_of_le_length hstart]
  rw [hlast]
  exact .last rfl rfl

/-- The part of a line up to its end. -/
theorem Cut.ends_line {text : List Char} {cut cut' : Cut} (hsource : cut.source = text)
    (hsource' : cut'.source = text ++ ['\n']) {line line' : Line} (hfits : line.Fits text.length)
    (h : line.Ends text.length line') {start : Nat} (hstart : start ≤ text.length)
    (label : Option String) (title : Option String) :
    (cut.part start line.next label false title).Ends text.length
      (cut'.part start line'.next label false title) := by
  cases h with
  | same => exact Cut.ends_of_le hsource hsource' hfits.size _ _ _
  | last hfinish hnext =>
    simp only [hnext]
    exact Cut.ends_last hsource hsource' hstart _ _

/-- The parts of an item of the expectations, where the source has a break more. -/
theorem Cut.ends_partsOf {text : List Char} {cut cut' : Cut} (hsource : cut.source = text)
    (hsource' : cut'.source = text ++ ['\n']) (hindent : cut.indent = cut'.indent)
    (hcut : cut.expectations = true) (hcut' : cut'.expectations = true) {item item' : Item}
    (hfits : ∀ line ∈ item.lines, line.Fits text.length)
    (hbreak : ∀ label title opener inner, item = .block label title opener inner →
      ∀ line ∈ opener :: inner, line.break = ['\n'])
    (h : Item.Alike (fun _ => Line.Ends text.length) item item') :
    List.Forall₂ (Part.Ends text.length) (cut.partsOf item) (cut'.partsOf item') := by
  have hend (line : Line) : cut.endOf line = line.next := by simp [Cut.endOf, hcut]
  have hend' (line : Line) : cut'.endOf line = line.next := by simp [Cut.endOf, hcut']
  cases h with
  | @plain line line' hline _ =>
    have hline₀ := hfits line (List.mem_singleton_self _)
    have hstart : cut.startOf line = cut'.startOf line' := by
      cases hline <;> simp [Cut.startOf, hindent, Line.indent]
    have hle := (cut.startOf_le hline₀).trans (hline₀.next.trans hline₀.size)
    simp only [Cut.partsOf, hend, hend', ← hstart]
    exact .cons (Cut.ends_line hsource hsource' hline₀ hline hle none none) .nil
  | @condition label marker line line' hline _ =>
    have hline₀ := hfits line (List.mem_singleton_self _)
    have hstart : min (line.textStart + marker) line.finish =
        min (line'.textStart + marker) line'.finish := by
      cases hline <;> simp [Line.textStart, Line.indent]
    have hle : min (line.textStart + marker) line.finish ≤ text.length :=
      (Nat.min_le_right _ _).trans (hline₀.next.trans hline₀.size)
    simp only [Cut.partsOf, hend, hend', ← hstart]
    exact .cons (Cut.ends_line hsource hsource' hline₀ hline hle _ none) .nil
  | @block label title opener opener' inner inner' hopener hinner =>
    -- the closer stands behind the lines of a block, so that none of them is the last line
    have hbreak := hbreak _ _ _ _ rfl
    obtain rfl := hopener.eq_of_break (hbreak opener List.mem_cons_self)
    obtain rfl : inner' = inner := by
      have heq := ((List.forall₂_and_left _ _).mpr ⟨fun line hline =>
        hbreak line (List.mem_cons_of_mem _ hline), hinner⟩).imp fun _ _ h =>
          (h.2.eq_of_break h.1).symm
      rw [List.forall₂_eq_eq_eq] at heq
      exact heq.symm
    have hsize (line : Line) (hline : line ∈ opener' :: inner') := (hfits line hline).size
    cases inner' with
    | nil =>
      simp only [Cut.partsOf, hcut, hcut', if_true]
      exact .cons (Cut.ends_of_le hsource hsource' (hsize opener' List.mem_cons_self) _ _ _) .nil
    | cons first rest =>
      have hlast : (first :: rest).getLastD first ∈ first :: rest := by
        rw [List.getLastD_eq_getLast?, List.getLast?_eq_some_getLast (List.cons_ne_nil _ _)]
        exact List.getLast_mem _
      have hstop := hsize _ (List.mem_cons_of_mem opener' hlast)
      simp only [Cut.partsOf, hcut, hcut', if_true, hend, hend', Cut.startOf, ← hindent]
      exact .cons (Cut.ends_of_le hsource hsource' hstop _ _ _) .nil

/-- Only the last part of a section can end at the end of its source. -/
theorem trailingParts_of_ends {text : List Char} {parts parts' : List Part}
    (hlaid : ∀ p ∈ parts, p.Laid text) (happart : parts'.Pairwise fun p q => p.stop ≤ q.start)
    (h : List.Forall₂ (Part.Ends text.length) parts parts') :
    TrailingParts text.length parts parts' := by
  induction h with
  | nil => exact .refl []
  | @cons p p' parts parts' hp hparts ih =>
    obtain ⟨hfirst, hafter⟩ := List.pairwise_cons.mp happart
    have hrest (q : Part) (hq : q ∈ parts) := hlaid q (List.mem_cons_of_mem _ hq)
    have hp₀ := hlaid p List.mem_cons_self
    cases hp with
    | same =>
      cases ih hrest hafter with
      | refl => exact .refl _
      | last front hblock hstop hlength => exact .last (p :: front) hblock hstop hlength
    | last hblock hstop =>
      cases hparts with
      | nil =>
        have hlength := hp₀.length
        exact .last [] hblock hstop (by omega)
      | @cons q q' parts parts' hq _ =>
        have hle := hfirst q' List.mem_cons_self
        have hq₀ := hrest q List.mem_cons_self
        have hstart := hq₀.le
        have hsize := hq₀.size
        cases hq <;> simp only at hle <;> omega

/-- The expectations of a source, and of the source with a break more. -/
theorem section_append_break {text : List Char} {s s' : Line × List Line} {content content' : Section}
    (hs : s ∈ sectionLines (linesOf text)) (hs' : s' ∈ sectionLines (linesOf (text ++ ['\n'])))
    (hends : SectionEnds text.length s s') (hof : Section.of text true s.2 = .ok content)
    (hof' : Section.of (text ++ ['\n']) true s'.2 = .ok content') :
    content.labels = content'.labels ∧ TrailingParts text.length content.parts content'.parts := by
  have hlines := infix_of_mem_sectionLines hs
  have hlines' := infix_of_mem_sectionLines hs'
  obtain ⟨items, hitems, hparts, hlabels⟩ := section_eq_ok hof
  obtain ⟨items', hitems', hparts', hlabels'⟩ := section_eq_ok hof'
  have hbody := (isInfix_trimLines s.2).trans hlines
  have hread := readAs_of_itemsOf hitems
  have hreads (inside : Bool) (line line' : Line) (h : line.Ends text.length line') :
      line.ReadsAs line' := h.sameText.readsAs
  have halike := hends.lines.alike hreads
    (fun line hline => hends.starts line ((trimLines_sublist _).subset hline)) hitems hitems'
  constructor
  · rw [hlabels, hlabels', labels_of_alike halike]
  · apply trailingParts_of_ends (laid_section hlines.sublist hof).parts
      (laid_section hlines'.sublist hof').apart
    rw [hparts, hparts']
    have hinside (item : Item) (hitem : item ∈ items) :
        (∀ line ∈ item.lines, line.Fits text.length) ∧
          ∀ label title opener inner, item = .block label title opener inner →
            ∀ line ∈ opener :: inner, line.break = ['\n'] := by
      constructor
      · intro line hline
        exact (linesOf_in (((hread.isInfix_lines hitem).trans hbody).subset hline)).fits
      · rintro label title opener inner rfl
        exact break_of_block hread (follows_of_mid hbody) hitem
    refine List.rel_flatMap ((List.forall₂_and_left _ _).mpr ⟨hinside, halike⟩) ?_
    rintro item item' ⟨⟨hfits, hbreak⟩, hitem⟩
    exact @Cut.ends_partsOf text (cutOf text true s.2) (cutOf (text ++ ['\n']) true s'.2) rfl rfl
      (hends.lines.commonIndent hreads) rfl rfl _ _ hfits hbreak hitem

/-! ## Specs -/

/-- What is made of an outline, where the source has a break more. -/
theorem compileOutline_append_break {text text' : List Char} {values : List Anchored}
    {file : Option String} {outline outline' : Outline} (hvalues : ∀ a ∈ values, a.index < text.length)
    (htitle : outline.title = outline'.title)
    (hfiles : outline.files.map (fun row => (row.1, row.2.variants)) =
      outline'.files.map fun row => (row.1, row.2.variants))
    (hexpected : Option.Rel
      (fun s s' : Section => s.labels = s'.labels ∧ TrailingParts text.length s.parts s'.parts)
      outline.expectations outline'.expectations) :
    (compileOutline ⟨text, values⟩ file outline).toOption =
      (compileOutline ⟨text', values⟩ file outline').toOption := by
  unfold compileOutline
  rw [htitle]
  simp only [hfiles]
  generalize outline.expectations = expected, outline'.expectations = expected' at hexpected
  cases hexpected with
  | none => cases values <;> rfl
  | @some s s' h =>
    obtain ⟨hlabels, hparts⟩ := h
    have hdrafts := together_draftsOf hparts (inOrder_start s.labels) hvalues
    unfold compileExpectations
    simp only [← hlabels]
    generalize draftsOf (s.labels.map fun label => (label, Draft.empty)) s.parts values = drafts,
      draftsOf (s.labels.map fun label => (label, Draft.empty)) s'.parts values = drafts' at hdrafts ⊢
    cases hdrafts with
    | error => rfl
    | @ok x x' h =>
      obtain ⟨drafts, left⟩ := x
      obtain ⟨drafts', left'⟩ := x'
      obtain ⟨hsame, rfl⟩ := h
      have hexpects := finishDrafts_trailing hsame
      simp only at hexpects
      simp only [locate]
      change ((finishDrafts drafts >>= _) >>= _ : Except Fault CompiledSpec).toOption =
        ((finishDrafts drafts' >>= _) >>= _ : Except Fault CompiledSpec).toOption
      rw [hexpects]
      cases finishDrafts drafts' with
      | error fault => rfl
      | ok expects => cases left <;> rfl

/-- The outlines of a source, and of the source with a break more, are made into the same spec. -/
theorem toOption_compileOutline {text : List Char} {values : List Anchored} {full : Bool}
    {file : Option String} {outline outline' : Outline} (hvalues : ∀ a ∈ values, a.index < text.length)
    (h : Outline.of text full = .ok outline) (h' : Outline.of (text ++ ['\n']) full = .ok outline') :
    (compileOutline ⟨text, values⟩ file outline).toOption =
      (compileOutline ⟨text ++ ['\n'], values⟩ file outline').toOption := by
  have hsections := sections_append_break text
  apply compileOutline_append_break hvalues
  · rw [title_outline h, title_outline h', titleOf_append_break]
  · rw [files_outline h, files_outline h']
    exact filter_map_eq_of_forall₂ hsections (fun _ _ hs => hs.first.isHeader)
      fun _ _ hs => by rw [hs.first.pathIn, hs.contents]
  · have hfound := rel_find?_of_forall₂ hsections (p := fun s => s.1.separates)
      (q := fun s => s.1.separates) fun _ _ hs => hs.first.separator
    rcases expectations_outline h with ⟨hnone, hempty⟩ | ⟨s, content, hs, hmem, hsome, hof⟩
    · rw [hnone] at hfound
      rcases expectations_outline h' with ⟨-, hempty'⟩ | ⟨s', content', hs', -⟩
      · rw [hempty, hempty']
        exact .none
      · rw [hs'] at hfound
        cases hfound
    · rw [hs] at hfound
      rcases expectations_outline h' with ⟨hnone', -⟩ | ⟨s', content', hs', hmem', hsome', hof'⟩
      · rw [hnone'] at hfound
        cases hfound
      · rw [hs'] at hfound
        cases hfound with
        | some hends =>
          rw [hsome, hsome']
          exact .some (section_append_break hmem hmem' hends hof hof')

/-- With a break more at its end or without it, a source compiles to the same spec, or to none. -/
theorem toOption_compile_append_break {text : List Char} {values : List Anchored}
    (hvalues : ∀ a ∈ values, a.index < text.length) (full : Bool) (file : Option String) :
    (compile ⟨text, values⟩ full file).toOption =
      (compile ⟨text ++ ['\n'], values⟩ full file).toOption := by
  have hok {source : Source} {outline : Outline} (h : Outline.of source.text full = .ok outline) :
      (compile source full file).toOption = (compileOutline source file outline).toOption.filter
        fun compiled => !(full && compiled.expects.isEmpty) := by
    rw [compile_of_outline h]
    cases compileOutline source file outline with
    | error fault => rfl
    | ok compiled =>
      change (if full && compiled.expects.isEmpty then _ else _ : Except Fault CompiledSpec).toOption =
        (some compiled).filter _
      rw [Option.filter_some]
      cases full && compiled.expects.isEmpty <;> rfl
  have herror {source : Source} {refusal : Refusal} (h : Outline.of source.text full = .error refusal) :
      (compile source full file).toOption = none := by
    rw [compile_of_refused h]
    rfl
  have hwell := wellFormed_append_break text full
  rcases decides_outline text full with ⟨outline, h, hyes⟩ | ⟨refusal, h, -, hno⟩
  · rcases decides_outline (text ++ ['\n']) full with ⟨outline', h', -⟩ | ⟨_, -, -, hno⟩
    · rw [hok h, hok h', toOption_compileOutline hvalues h h']
    · exact absurd (hwell.mp hyes) hno
  · rcases decides_outline (text ++ ['\n']) full with ⟨_, -, hyes⟩ | ⟨refusal', h', -, -⟩
    · exact absurd (hwell.mpr hyes) hno
    · rw [herror h, herror h']

/-- A line break at the end of a source means nothing, as long as no value stands at the very end: with it
or without it, the source compiles to the same spec, or is refused.  With a value at the very end a source
is refused. -/
theorem compile_append_break {text : List Char} {values : List Anchored} (hsorted : Sorted values)
    (full : Bool) (file : Option String) :
    ((∀ a ∈ values, a.index < text.length) →
      (∃ compiled, compile ⟨text, values⟩ full file = .ok compiled ∧
        compile ⟨text ++ ['\n'], values⟩ full file = .ok compiled) ∨
      ∃ fault fault', compile ⟨text, values⟩ full file = .error fault ∧ IsSpecFault fault ∧
        compile ⟨text ++ ['\n'], values⟩ full file = .error fault' ∧ IsSpecFault fault') ∧
    ((∃ a ∈ values, text.length ≤ a.index) →
      ∃ fault, compile ⟨text, values⟩ full file = .error fault ∧ IsSpecFault fault) := by
  constructor
  · intro hvalues
    have hsame := toOption_compile_append_break hvalues full file
    cases hcompile : compile ⟨text, values⟩ full file with
    | ok compiled =>
      rw [hcompile] at hsame
      cases hcompile' : compile ⟨text ++ ['\n'], values⟩ full file with
      | ok compiled' =>
        rw [hcompile'] at hsame
        exact .inl ⟨compiled, rfl, by rw [Option.some.inj hsame]⟩
      | error fault' =>
        rw [hcompile'] at hsame
        cases hsame
    | error fault =>
      rw [hcompile] at hsame
      cases hcompile' : compile ⟨text ++ ['\n'], values⟩ full file with
      | ok compiled' =>
        rw [hcompile'] at hsame
        cases hsame
      | error fault' =>
        exact .inr ⟨fault, fault', rfl, refusing_compile _ _ _ fault hcompile, rfl,
          refusing_compile _ _ _ fault' hcompile'⟩
  · rintro ⟨a, ha, hend⟩
    cases hcompile : compile ⟨text, values⟩ full file with
    | error fault => exact ⟨fault, rfl, refusing_compile _ _ _ fault hcompile⟩
    | ok compiled =>
      obtain ⟨outline, houtline, hnone, hsome⟩ := routed_compile hsorted hcompile
      cases hs : outline.expectations with
      | none =>
        have hempty : values = [] := (hnone hs).1
        rw [hempty] at ha
        cases ha
      | some s =>
        have hrouted := hsome s hs
        obtain ⟨p, hp, hholds, -⟩ := hrouted.value a ha
        have hstop := (hrouted.laid.parts p hp).size
        have hlt := (Part.holds_iff.mp hholds).2
        simp only at hstop
        omega

/-- A source that ends in a condition, with a hook at an offset. -/
def hookedAt (index : Nat) : Source :=
  ⟨"****\n::0 <p>".toList, [⟨index, .routine ⟨"s", [], .nothing⟩⟩]⟩

/-- A hook in front of the last character is the hook of its label, with a break behind it or without. -/
theorem compile_append_break_hooked : Sorted (hookedAt 9).values ∧ ∃ compiled,
    compile (hookedAt 9) false none = .ok compiled ∧
    compile ⟨(hookedAt 9).text ++ ['\n'], (hookedAt 9).values⟩ false none = .ok compiled ∧
    ((compiled.expects.get? "0").bind Expectation.before).isSome = true := by
  have hsorted : Sorted (hookedAt 9).values := List.pairwise_singleton _ _
  have hhook : ((compile (hookedAt 9) false none).toOption.bind fun compiled =>
      (compiled.expects.get? "0").bind Expectation.before).isSome = true := by
    decide +kernel
  have hinside : ∀ a ∈ (hookedAt 9).values, a.index < (hookedAt 9).text.length := by decide
  rcases (compile_append_break hsorted false none).1 hinside with
    ⟨compiled, hcompile, hcompile'⟩ | ⟨fault, _, hfault, -⟩
  · rw [show compile (hookedAt 9) false none = .ok compiled from hcompile] at hhook
    exact ⟨hsorted, compiled, hcompile, hcompile', hhook⟩
  · rw [show compile (hookedAt 9) false none = .error fault from hfault] at hhook
    cases hhook

/-- With a hook at the very end, the source is refused, but with a break behind the hook it compiles, and
the hook is the one of its label. -/
theorem break_behind_hook : Sorted (hookedAt 12).values ∧
    (∀ a ∈ (hookedAt 12).values, a.index ≤ (hookedAt 12).text.length) ∧
    (compile (hookedAt 12) false none).isOk = false ∧ ∃ compiled,
      compile ⟨(hookedAt 12).text ++ ['\n'], (hookedAt 12).values⟩ false none = .ok compiled ∧
      ((compiled.expects.get? "0").bind Expectation.before).isSome = true := by
  have hhook : ((compile ⟨(hookedAt 12).text ++ ['\n'], (hookedAt 12).values⟩ false none).toOption.bind
      fun compiled => (compiled.expects.get? "0").bind Expectation.before).isSome = true := by
    decide +kernel
  refine ⟨List.pairwise_singleton _ _, by decide, by decide +kernel, ?_⟩
  cases hcompile : compile ⟨(hookedAt 12).text ++ ['\n'], (hookedAt 12).values⟩ false none with
  | error fault =>
    rw [hcompile] at hhook
    cases hhook
  | ok compiled =>
    rw [hcompile] at hhook
    exact ⟨compiled, rfl, hhook⟩

end HotSpec.Spec
