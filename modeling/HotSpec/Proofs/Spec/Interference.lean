import HotSpec.Proofs.Spec.Outlines

/-!
# Labels do not interfere

What stands behind the marker of a condition is for its label only.  Two sources without values that differ
in nothing but the texts of some conditions of one label are both refused, with one fault at one place, or
they compile to specs that are the same under all other labels.

Main definitions:

- `Line.SameBut`: two lines that differ at most in the text of a condition of a label.
- `CompiledSpec.SameBut`: two specs that differ at most under a label.

Main results:

- Theorem `Line.SameBut.readsAs`: the text of a condition does not change the form of its line.
- Theorem `variants_sameBut`, `parts_sameBut`: files and expectations are the same under other labels.
- Theorem `compile_sameBut`: so are the specs that sources compile to.
-/

namespace HotSpec

/-- Two tables with the same keys in the same order, whose values differ at most under one key. -/
def Table.SameBut {α : Type} (key : String) : Table α → Table α → Prop :=
  Table.Rel fun other a a' => other ≠ key → a = a'

/-- Two specs with the same title, the same files and the same labels in the same order, which differ at
most in the contents of files under one label, and in the expectation of this label. -/
structure CompiledSpec.SameBut (label : String) (compiled compiled' : CompiledSpec) : Prop where
  title : compiled.title = compiled'.title
  files : Table.Rel (fun _ => Table.SameBut label) compiled.files compiled'.files
  expects : Table.SameBut label compiled.expects compiled'.expects

namespace Spec

open HotSpec.Text
open Html (Token Expected)

/-! ## Conditions -/

/-- A label is not the one that stands for any. -/
theorem IsLabel.ne_anyLabel {label : String} (h : IsLabel label.toList) : label ≠ anyLabel := by
  rintro rfl
  exact absurd (h.chars '*' (by decide)) (by decide)

/-- The characters of labels are neither blank nor colons. -/
theorem visible_of_isLabelChar {c : Char} (h : isLabelChar c = true) :
    isBlank c = false ∧ (c == ':') = false := by
  have hcode : 45 ≤ c.toNat ∧ c.toNat ≤ 57 ∨ 65 ≤ c.toNat ∧ c.toNat ≤ 122 := by
    simp only [isLabelChar, Char.isAlphanum, Char.isAlpha, Char.isUpper, Char.isLower, Char.isDigit,
      Bool.or_eq_true, Bool.and_eq_true, decide_eq_true_eq, beq_iff_eq, ge_iff_le,
      UInt32.le_iff_toNat_le] at h
    rcases h with (((((h | h) | h) | rfl) | rfl) | rfl)
    · exact .inr ⟨h.1, Nat.le_trans h.2 (by decide)⟩
    · exact .inr ⟨Nat.le_trans (by decide) h.1, h.2⟩
    · exact .inl ⟨Nat.le_trans (by decide) h.1, h.2⟩
    all_goals decide
  constructor
  · simp only [isBlank]
    simp
    omega
  · rw [beq_eq_false_iff_ne]
    rintro rfl
    revert hcode
    decide

/-- A text with the marker of a condition starts nothing else, however it goes on. -/
theorem forms_of_marker {c : Char} (h : isLabelChar c = true) (back : List Char) :
    headerPath? (':' :: ':' :: c :: back) = none ∧ isSeparator (':' :: ':' :: c :: back) = false ∧
      title? (':' :: ':' :: c :: back) = none ∧ isCloser (':' :: ':' :: c :: back) = false := by
  obtain ⟨hvisible, hcolon⟩ := visible_of_isLabelChar h
  refine ⟨rfl, rfl, rfl, ?_⟩
  simp [isCloser, hcolon, blank, hvisible]

/-- The line of a condition: blanks, the marker of the label, and the text behind it. -/
structure IsCondition (label gap : List Char) (space : Char) (back : List Char) (line : Line) : Prop where
  text : line.text = gap ++ ':' :: ':' :: (label ++ space :: back)
  gap : blank gap = true
  space : space = ' ' ∨ space = '\t'

namespace IsCondition

variable {label gap back : List Char} {space : Char} {line : Line}

theorem trimStart (h : IsCondition label gap space back line) :
    trimStart line.text = ':' :: ':' :: (label ++ space :: back) := by
  have hgap : ∀ c ∈ gap, isBlank c = true := List.all_eq_true.mp h.gap
  rw [h.text, Text.trimStart, List.dropWhile_append_of_pos hgap, List.dropWhile_cons_of_neg (by decide)]

theorem indent (h : IsCondition label gap space back line) : line.indent = gap.length := by
  rw [Line.indent, h.trimStart, h.text]
  simp

theorem isBlank (h : IsCondition label gap space back line) : line.isBlank = false := by
  rw [Line.isBlank, h.text]
  simp [blank, show Text.isBlank ':' = false by decide]

variable (hlabel : IsLabel label)
include hlabel

/-- The line starts with the marker, whatever is trimmed at its end. -/
theorem trimmed (h : IsCondition label gap space back line) :
    ∃ c rest, isLabelChar c = true ∧ line.trimmed = ':' :: ':' :: c :: rest := by
  obtain ⟨c, label, rfl⟩ := List.exists_cons_of_ne_nil hlabel.ne_nil
  have hc := hlabel.chars c List.mem_cons_self
  refine ⟨c, trimEnd (label ++ space :: back), hc, ?_⟩
  rw [Line.trimmed, trim, h.trimStart, trimEnd_cons (by decide), trimEnd_cons (by decide),
    List.cons_append, trimEnd_cons (visible_of_isLabelChar hc).1]

theorem label? (h : IsCondition label gap space back line) :
    label? (Text.trimStart line.text) = some (label, space :: back) := by
  have hspace : isLabelChar space = false := by rcases h.space with rfl | rfl <;> decide
  rw [h.trimStart, Spec.label?]
  simp [List.takeWhile_append_of_pos hlabel.chars, List.dropWhile_append_of_pos hlabel.chars, hspace,
    hlabel.ne_nil]

theorem opener? (h : IsCondition label gap space back line) :
    opener? (Text.trimStart line.text) = none := by
  rw [Spec.opener?, h.label? hlabel]
  rcases h.space with rfl | rfl <;> rfl

theorem condition? (h : IsCondition label gap space back line) :
    condition? (Text.trimStart line.text) = some (label, label.length + 3) := by
  rw [Spec.condition?, h.label? hlabel]
  rcases h.space with rfl | rfl <;> rfl

theorem isCloser (h : IsCondition label gap space back line) :
    isCloser (Text.trimStart line.text) = false := by
  obtain ⟨c, label, rfl⟩ := List.exists_cons_of_ne_nil hlabel.ne_nil
  rw [h.trimStart]
  exact (forms_of_marker (hlabel.chars c List.mem_cons_self) _).2.2.2

/-- What stands behind the marker does not change the form of the line. -/
theorem readsAs {back' : List Char} {line' : Line} (h : IsCondition label gap space back line)
    (h' : IsCondition label gap space back' line') : line.ReadsAs line' := by
  obtain ⟨c, rest, hc, htrimmed⟩ := h.trimmed hlabel
  obtain ⟨c', rest', hc', htrimmed'⟩ := h'.trimmed hlabel
  obtain ⟨hheader, hseparator, htitle, hcloser⟩ := forms_of_marker hc rest
  obtain ⟨hheader', hseparator', htitle', hcloser'⟩ := forms_of_marker hc' rest'
  constructor
  · rw [h.isBlank, h'.isBlank]
  · rw [h.indent, h'.indent]
  · rw [htrimmed, htrimmed', hheader, hheader']
  · rw [htrimmed, htrimmed', hseparator, hseparator']
  · rw [htrimmed, htrimmed', htitle, htitle']
  · rw [htrimmed, htrimmed', hcloser, hcloser']
  · rw [h.isCloser hlabel, h'.isCloser hlabel]
  · rw [h.opener? hlabel, h'.opener? hlabel]
  · rw [h.condition? hlabel, h'.condition? hlabel]

end IsCondition

/-- Two lines that are the same, or conditions of one label outside of any block, which differ in nothing
but the text behind the marker. -/
def Line.SameBut (label : String) (inside : Bool) (line line' : Line) : Prop :=
  line.text = line'.text ∨ inside = false ∧ ∃ gap space back back',
    IsCondition label.toList gap space back line ∧ IsCondition label.toList gap space back' line'

namespace Line.SameBut

variable {label : String} {inside : Bool} {line line' : Line}

theorem readsAs (h : line.SameBut label inside line') (hlabel : IsLabel label.toList) :
    line.ReadsAs line' := by
  rcases h with htext | ⟨-, gap, space, back, back', hline, hline'⟩
  · exact Line.readsAs_of_text htext
  · exact hline.readsAs hlabel hline'

/-- Lines that are no conditions of the label are the same. -/
theorem text_of_condition (h : line.SameBut label inside line') (hlabel : IsLabel label.toList)
    (hother : ∀ marker, condition? (trimStart line.text) ≠ some (label.toList, marker)) :
    line.text = line'.text := by
  rcases h with htext | ⟨-, gap, space, back, back', hline, -⟩
  · exact htext
  · exact absurd (hline.condition? hlabel) (hother _)

/-- Lines inside of a block are the same. -/
theorem text_of_inside (h : line.SameBut label true line') : line.text = line'.text := by
  rcases h with htext | ⟨hinside, -⟩
  · exact htext
  · cases hinside

/-- A blank line stands next to the same line. -/
theorem text_of_blank (h : line.SameBut label inside line') (hblank : line.isBlank = true) :
    line.text = line'.text := by
  rcases h with htext | ⟨-, gap, space, back, back', hline, -⟩
  · exact htext
  · rw [hline.isBlank] at hblank
    cases hblank

end Line.SameBut

/-- Two lines of one number in their sources that differ at most in the text of a condition. -/
structure Line.Counterpart (label : String) (source source' : List Char) (inside : Bool)
    (line line' : Line) : Prop where
  sameBut : line.SameBut label inside line'
  samePlace : line.SamePlace source source' line'

/-! ## Files -/

/-- The kind of a line outside of any block, if it opens none. -/
theorem kind_of_outside {block : Option String} {lines : List Line} {row : Line × LineKind}
    (hrow : row ∈ readLines block lines) (hopener : opener? (trimStart row.1.text) = none)
    (houtside : row.2.inside = false) : row.2 = kindOutside row.1 := by
  induction lines generalizing block with
  | nil => cases block <;> cases hrow
  | cons line lines ih =>
    cases block with
    | some label =>
      rw [readLines] at hrow
      split at hrow <;> rcases List.mem_cons.mp hrow with rfl | hrow
      · cases houtside
      · exact ih hrow
      · cases houtside
      · exact ih hrow
    | none =>
      cases hfirst : opener? (trimStart line.text) with
      | some opened =>
        obtain ⟨label, title⟩ := opened
        rw [readLines_of_opener hfirst] at hrow
        rcases List.mem_cons.mp hrow with rfl | hrow
        · rw [hfirst] at hopener
          cases hopener
        · exact ih hrow
      | none =>
        rw [readLines_of_no_opener hfirst] at hrow
        rcases List.mem_cons.mp hrow with rfl | hrow
        · rfl
        · exact ih hrow

section Labels

variable {label : String} (hlabel : IsLabel label.toList) {source source' : List Char}
include hlabel

theorem counterpart_readsAs (inside : Bool) (line line' : Line)
    (h : line.Counterpart label source source' inside line') : line.ReadsAs line' :=
  h.sameBut.readsAs hlabel

/-- A line that counts for another label is the same. -/
theorem text_of_isFor {lines : List Line} {row row' : Line × LineKind} {other : String}
    (hrow : row ∈ readLines none lines) (h : row.1.SameBut label row.2.inside row'.1)
    (hother : other ≠ label) (hfor : row.2.isFor other = true) : row.1.text = row'.1.text := by
  rcases h with htext | ⟨houtside, gap, space, back, back', hline, -⟩
  · exact htext
  · -- a condition of the label counts for no other one
    have hkind := kind_of_outside hrow (hline.opener? hlabel) houtside
    rw [hkind, kindOutside, hline.isCloser hlabel, hline.condition? hlabel] at hfor
    simp [LineKind.isFor, LineKind.label?, Ne.symm hother] at hfor

/-- The contents of a file are the same under all other labels. -/
theorem variants_sameBut {s s' : Line × List Line} {content content' : Section}
    (h : SectionsAlongside (Line.Counterpart label source source') source source' s s')
    (hof : Section.of source false s.2 = .ok content)
    (hof' : Section.of source' false s'.2 = .ok content') :
    Table.SameBut label content.variants content'.variants := by
  have hreads := @counterpart_readsAs _ hlabel source source'
  have hlines := h.lines.trimLines hreads
  have hrows := forall₂_mem <| hlines.readLines hreads fun line hline =>
    h.starts line ((trimLines_sublist _).subset hline)
  rw [variants_eq h.within hof, variants_eq h.within' hof']
  apply contentsIn_congr (hrows.imp fun _ _ hrow => hrow.2.2.1)
  intro other hother
  rw [hlines.commonIndent hreads]
  congr 1
  apply contentOf_congr
  refine hrows.imp fun row row' hrow => ?_
  obtain ⟨hmem, -, hkind, hline⟩ := hrow
  exact ⟨hkind, (hreads _ _ _ hline).indent, text_of_isFor hlabel hmem hline.sameBut hother⟩

end Labels

/-! ## Expectations -/

/-- Two parts that differ at most in their texts, and only if they are for one label. -/
structure Part.SameBut (key : String) (p p' : Part) : Prop where
  label : p.label = p'.label
  title : p.title = p'.title
  text : p.label ≠ some key → p.text = p'.text

section Labels

variable {label : String} (hlabel : IsLabel label.toList) {source source' : List Char}

theorem Line.Counterpart.whole {inside : Bool} {line line' : Line}
    (h : line.Counterpart label source source' inside line') (htext : line.text = line'.text) :
    line.whole = line'.whole := by
  rw [Line.whole, Line.whole, htext, h.samePlace.ends]

include hlabel

/-- The parts of an item of the expectations are the same, but for the text of a condition of the label. -/
theorem Cut.sameBut_partsOf {cut cut' : Cut} {item item' : Item} (hindent : cut.indent = cut'.indent)
    (hexpected : cut.expectations = true) (hexpected' : cut'.expectations = true)
    (hin : ∀ line ∈ item.lines, line.In cut.source) (hin' : ∀ line ∈ item'.lines, line.In cut'.source)
    (hfollows : item.lines.IsChain Line.Follows) (hfollows' : item'.lines.IsChain Line.Follows)
    (h : item.Alike (Line.Counterpart label source source') item') :
    List.Forall₂ (Part.SameBut label) (cut.partsOf item) (cut'.partsOf item') := by
  cases h with
  | @plain line line' hline hform =>
    have htext := hline.sameBut.text_of_condition hlabel fun marker => by simp [hform]
    refine .cons ⟨rfl, rfl, fun _ => ?_⟩ .nil
    rw [Cut.text_line (hin line (List.mem_singleton_self _)),
      Cut.text_line (hin' line' (List.mem_singleton_self _)), hindent, htext,
      (Line.readsAs_of_text htext).indent, hline.samePlace.ends, hexpected, hexpected']
    simp
  | @condition other marker line line' hline hform =>
    refine .cons ⟨rfl, rfl, fun hother => ?_⟩ .nil
    have hne : String.ofList other ≠ label := fun heq => hother (congrArg some heq)
    have htext := hline.sameBut.text_of_condition hlabel fun marker' hcondition => by
      rw [hform] at hcondition
      cases hcondition
      simp at hne
    rw [Cut.text_condition (hin line (List.mem_singleton_self _)),
      Cut.text_condition (hin' line' (List.mem_singleton_self _)), htext,
      (Line.readsAs_of_text htext).indent, hline.samePlace.ends, hexpected, hexpected']
    simp
  | block _ hinner =>
    simp only [Cut.partsOf, hexpected, hexpected', if_true]
    cases hinner with
    | nil => exact .cons ⟨rfl, rfl, fun _ => by simp [Cut.part]⟩ .nil
    | @cons first first' rest rest' hfirst hrest =>
      have hinner (line : Line) (hline : line ∈ first :: rest) := hin line (List.mem_cons_of_mem _ hline)
      have hinner' (line : Line) (hline : line ∈ first' :: rest') :=
        hin' line (List.mem_cons_of_mem _ hline)
      have htext := hfirst.sameBut.text_of_inside
      have hrest : rest.map Line.whole = rest'.map Line.whole :=
        map_eq_of_forall₂ hrest fun line line' hline => hline.whole hline.sameBut.text_of_inside
      refine .cons ⟨rfl, rfl, fun _ => ?_⟩ .nil
      rw [Cut.text_block hexpected hinner (List.isChain_of_isChain_cons hfollows),
        Cut.text_block hexpected' hinner' (List.isChain_of_isChain_cons hfollows'), hindent, htext,
        (Line.readsAs_of_text htext).indent, hfirst.samePlace.ends, List.flatMap_def, hrest,
        ← List.flatMap_def]

/-- The parts of the expectations are the same under all other labels. -/
theorem parts_sameBut {s s' : Line × List Line} {content content' : Section}
    (h : SectionsAlongside (Line.Counterpart label source source') source source' s s')
    (hof : Section.of source true s.2 = .ok content)
    (hof' : Section.of source' true s'.2 = .ok content') :
    content.labels = content'.labels ∧
      List.Forall₂ (Part.SameBut label) content.parts content'.parts := by
  have hreads := @counterpart_readsAs _ hlabel source source'
  have hlines := h.lines.trimLines hreads
  obtain ⟨items, hitems, hparts, hlabels⟩ := section_eq_ok hof
  obtain ⟨items', hitems', hparts', hlabels'⟩ := section_eq_ok hof'
  have halike := hlines.alike hreads
    (fun line hline => h.starts line ((trimLines_sublist _).subset hline)) hitems hitems'
  rw [hlabels, hlabels', hparts, hparts', labels_of_alike halike]
  refine ⟨rfl, List.rel_flatMap (forall₂_mem halike) fun item item' hpair => ?_⟩
  obtain ⟨hmem, hmem', hitem⟩ := hpair
  have hinside : item.lines <:+: linesOf source := ((readAs_of_itemsOf hitems).isInfix_lines hmem).trans
    ((isInfix_trimLines s.2).trans h.within)
  have hinside' : item'.lines <:+: linesOf source' :=
    ((readAs_of_itemsOf hitems').isInfix_lines hmem').trans ((isInfix_trimLines s'.2).trans h.within')
  apply Cut.sameBut_partsOf hlabel
  · exact hlines.commonIndent hreads
  · rfl
  · rfl
  · exact fun line hline => linesOf_in (hinside.subset hline)
  · exact fun line hline => linesOf_in (hinside'.subset hline)
  · exact follows_of_mid hinside
  · exact follows_of_mid hinside'
  · exact hitem

end Labels

/-! ## Drafts -/

/-- A draft with the text of a part without values. -/
def Draft.addText (d : Draft) (p : Part) : Draft :=
  (if p.title.isSome then { d with title := p.title } else d).addLine [.literal (String.ofList p.text)]

theorem Draft.steps_addText (d : Draft) (p : Part) : (d.addText p).steps = d.steps := by
  unfold addText
  split <;> rfl

/-- Drafts without blocks, which are the same but for one label. -/
def DraftsBut (label : String) : Drafts → Drafts → Prop :=
  Table.Rel fun other d d' => d.steps = none ∧ d'.steps = none ∧ (other ≠ label → d = d')

section Drafts

variable {label : String} {drafts drafts' : Drafts}

/-- The draft of a label, before anything is known of it or after. -/
theorem DraftsBut.getD (h : DraftsBut label drafts drafts') (other : String) :
    ((drafts.get? other).getD .empty).steps = none ∧ ((drafts'.get? other).getD .empty).steps = none ∧
      (other ≠ label → (drafts.get? other).getD .empty = (drafts'.get? other).getD .empty) := by
  have hget := h.get? other
  generalize drafts.get? other = draft, drafts'.get? other = draft' at hget ⊢
  cases hget with
  | none => exact ⟨rfl, rfl, fun _ => rfl⟩
  | some hsame => exact hsame

theorem draftsBut_addToDrafts {p p' : Part} (h : DraftsBut label drafts drafts')
    (hp : p.SameBut label p') : ∃ next next', addToDrafts drafts p [] = .ok (next, []) ∧
      addToDrafts drafts' p' [] = .ok (next', []) ∧ DraftsBut label next next' := by
  unfold addToDrafts
  rw [← hp.label]
  cases hlabel : p.label with
  | none =>
    refine ⟨_, _, rfl, rfl, ?_⟩
    unfold DraftsBut Table.Rel
    rw [List.forall₂_map_left_iff, List.forall₂_map_right_iff, hp.text (by simp [hlabel])]
    refine List.Forall₂.imp (fun row row' hrow => ?_) h
    obtain ⟨hkey, hsteps, hsteps', hsame⟩ := hrow
    exact ⟨hkey, hsteps, hsteps', fun hother => by rw [hsame hother]⟩
  | some other =>
    obtain ⟨hsteps, hsteps', hsame⟩ := h.getD other
    refine ⟨drafts.put other (((drafts.get? other).getD .empty).addText p),
      drafts'.put other (((drafts'.get? other).getD .empty).addText p'), rfl, rfl,
      h.put ⟨?_, ?_, fun hother => ?_⟩⟩
    · rw [Draft.steps_addText, hsteps]
    · rw [Draft.steps_addText, hsteps']
    · rw [hsame hother, Draft.addText, Draft.addText, hp.title, hp.text (by simp [hlabel, hother])]

theorem draftsBut_draftsOf {parts parts' : List Part} (h : DraftsBut label drafts drafts')
    (hparts : List.Forall₂ (Part.SameBut label) parts parts') :
    ∃ next next', draftsOf drafts parts [] = .ok (next, []) ∧
      draftsOf drafts' parts' [] = .ok (next', []) ∧ DraftsBut label next next' := by
  induction hparts generalizing drafts drafts' with
  | nil => exact ⟨drafts, drafts', rfl, rfl, h⟩
  | cons hp _ ih =>
    obtain ⟨next, next', hadd, hadd', hnext⟩ := draftsBut_addToDrafts h hp
    rw [draftsOf, draftsOf, hadd, hadd']
    exact ih hnext

/-- Drafts without blocks all make expectations. -/
theorem finishDrafts_sameBut (h : DraftsBut label drafts drafts') : ∃ expects expects',
    finishDrafts drafts = .ok expects ∧ finishDrafts drafts' = .ok expects' ∧
      Table.SameBut label expects expects' := by
  induction h with
  | nil => exact ⟨[], [], rfl, rfl, .nil⟩
  | @cons row row' _ _ hrow _ ih =>
    obtain ⟨key, d⟩ := row
    obtain ⟨key', d'⟩ := row'
    obtain ⟨rfl, hsteps, hsteps', hsame⟩ := hrow
    obtain ⟨expects, expects', hrest, hrest', hexpects⟩ := ih
    simp only at hsteps hsteps' hsame
    rw [finishDrafts, finishDrafts, hrest, hrest', Draft.finish, Draft.finish, hsteps, hsteps']
    refine ⟨_, _, rfl, rfl, .cons ⟨rfl, fun hother => ?_⟩ hexpects⟩
    simp only [hsame hother]

end Drafts

/-! ## Specs -/

section Specs

variable {label : String} (text text' : List Char)

/-- The expectations of two sections without values are the same but for a label. -/
theorem compileExpectations_sameBut {s s' : Section} (file : Option String)
    (hlabels : s.labels = s'.labels) (hparts : List.Forall₂ (Part.SameBut label) s.parts s'.parts) :
    ∃ expects expects', compileExpectations text file [] s = .ok (expects, []) ∧
      compileExpectations text' file [] s' = .ok (expects', []) ∧ Table.SameBut label expects expects' := by
  have hempty : DraftsBut label (s.labels.map fun label => (label, Draft.empty))
      (s.labels.map fun label => (label, Draft.empty)) := by
    apply Table.rel_refl
    intro row hrow
    obtain ⟨other, -, rfl⟩ := List.mem_map.mp hrow
    exact ⟨rfl, rfl, fun _ => rfl⟩
  obtain ⟨drafts, drafts', hread, hread', hdrafts⟩ := draftsBut_draftsOf hempty hparts
  obtain ⟨expects, expects', hfinish, hfinish', hexpects⟩ := finishDrafts_sameBut hdrafts
  refine ⟨expects, expects', ?_, ?_, hexpects⟩
  · rw [compileExpectations, hread]
    change (finishDrafts drafts >>= fun expects => Except.ok (expects, [])) = _
    rw [hfinish]
    rfl
  · rw [compileExpectations, ← hlabels, hread']
    change (finishDrafts drafts' >>= fun expects => Except.ok (expects, [])) = _
    rw [hfinish']
    rfl

/-- The outlines of two sources without values are made into specs that are the same but for a label. -/
theorem compileOutline_sameBut {outline outline' : Outline} (file : Option String)
    (h : OutlinesAlongside (fun s s' => Table.SameBut label s.variants s'.variants)
      (fun s s' => s.labels = s'.labels ∧ List.Forall₂ (Part.SameBut label) s.parts s'.parts)
      outline outline') :
    ∃ compiled compiled', compileOutline ⟨text, []⟩ file outline = .ok compiled ∧
      compileOutline ⟨text', []⟩ file outline' = .ok compiled' ∧ compiled.SameBut label compiled' := by
  have hfiles : Table.Rel (fun _ => Table.SameBut label)
      (Table.ofRows (outline.files.map fun row => (row.1, row.2.variants)))
      (Table.ofRows (outline'.files.map fun row => (row.1, row.2.variants))) := by
    apply Table.Rel.ofRows
    unfold Table.Rel
    rw [List.forall₂_map_left_iff, List.forall₂_map_right_iff]
    exact h.files
  have hexpected := h.expectations
  unfold compileOutline
  generalize outline.expectations = expected, outline'.expectations = expected' at hexpected ⊢
  cases hexpected with
  | none => exact ⟨_, _, rfl, rfl, h.title, hfiles, .nil⟩
  | some hsections =>
    obtain ⟨expects, expects', hcompiled, hcompiled', hexpects⟩ :=
      compileExpectations_sameBut text text' file hsections.1 hsections.2
    simp only [hcompiled, hcompiled']
    exact ⟨_, _, rfl, rfl, h.title, hfiles, hexpects⟩

variable {text text'}

/-- Lines that differ at most in the texts of conditions are the lines of one source, if all are blank. -/
theorem eq_of_blank (h : Alongside (Line.SameBut label) false (linesOf text) (linesOf text'))
    (hblank : ∀ line ∈ linesOf text, line.isBlank = true) : text = text' := by
  have htexts : (linesOf text).map Line.text = (linesOf text').map Line.text := by
    apply map_eq_of_forall₂ (forall₂_mem h.forall₂)
    intro line line' hpair
    obtain ⟨hline, -, inside, hsame⟩ := hpair
    exact hsame.text_of_blank (hblank line hline)
  rw [map_text_linesOf, map_text_linesOf] at htexts
  rw [← splitOn_flatten '\n' text, htexts, splitOn_flatten]

/-- Labels do not interfere.  Two sources without values that differ in nothing but the texts of some
conditions of one label, outside of any block, are refused with the same fault at the same place, or both
compile, to specs that differ at most in what they say under this label.  The contents for any label are
not among them. -/
theorem compile_sameBut (hlabel : IsLabel label.toList)
    (h : Alongside (Line.SameBut label) false (linesOf text) (linesOf text')) (full : Bool)
    (file : Option String) : label ≠ anyLabel ∧
      ((∃ fault, compile ⟨text, []⟩ full file = .error fault ∧
          compile ⟨text', []⟩ full file = .error fault) ∨
        ∃ compiled compiled', compile ⟨text, []⟩ full file = .ok compiled ∧
          compile ⟨text', []⟩ full file = .ok compiled' ∧ compiled.SameBut label compiled') := by
  refine ⟨hlabel.ne_anyLabel, ?_⟩
  have halong : Alongside (Line.Counterpart label text text') false (linesOf text) (linesOf text') :=
    (h.and (forall₂_samePlace h.forall₂.length_eq)).imp fun _ _ _ hline => ⟨hline.1, hline.2⟩
  have hreads := @counterpart_readsAs _ hlabel text text'
  have houtline : Together (fun i j => placeAt text file i = placeAt text' file j) _
      (Outline.of text full) (Outline.of text' full) :=
    halong.outline hreads
      (fun inside line line' hline => hline.samePlace.placeAt (hreads _ _ _ hline).indent file)
      (fun hblank => by rw [eq_of_blank h hblank])
      (fun _ _ _ _ hs hof hof' => variants_sameBut hlabel hs hof hof')
      (fun _ _ _ _ hs hof hof' => parts_sameBut hlabel hs hof hof') full
  rcases houtline.outcome with ⟨outline, outline', hof, hof', hsections⟩ | ⟨cause, i, j, hof, hof', hplace⟩
  · obtain ⟨compiled, compiled', hcompiled, hcompiled', hsame⟩ :=
      compileOutline_sameBut text text' file hsections
    have hcompile : compile ⟨text, []⟩ full file = _ := compile_of_outline hof file
    have hcompile' : compile ⟨text', []⟩ full file = _ := compile_of_outline hof' file
    rw [hcompile, hcompile', hcompiled, hcompiled']
    cases hnothing : full && compiled.expects.isEmpty with
    | true =>
      refine .inl ⟨.spec (.noAssertions compiled.title) none, if_pos hnothing, ?_⟩
      rw [hsame.title]
      exact if_pos (hsame.expects.isEmpty ▸ hnothing)
    | false =>
      refine .inr ⟨compiled, compiled', if_neg (by simp [hnothing]), if_neg ?_, hsame⟩
      simp [← hsame.expects.isEmpty, hnothing]
  · have hcompile : compile ⟨text, []⟩ full file = _ := compile_of_refused hof file
    have hcompile' : compile ⟨text', []⟩ full file = _ := compile_of_refused hof' file
    refine .inl ⟨_, hcompile, ?_⟩
    rw [hcompile', Refusal.fault, Refusal.fault, hplace]

end Specs

/-- A source with two labels, and with some texts behind the markers of one of them. -/
def labelledWith (first second : String) : List Char :=
  ("---- a.html ----\n::1 " ++ first ++ "\n::2 off\n****\n  ::1 " ++ second ++ "\n::2 two").toList

theorem alongside_labelledWith : Alongside (Line.SameBut "1") false (linesOf (labelledWith "on" "one"))
    (linesOf (labelledWith "---- b.js ----" "::")) := by
  have hlines : linesOf (labelledWith "on" "one") =
      [⟨0, 16, 17, "---- a.html ----".toList⟩, ⟨17, 23, 24, "::1 on".toList⟩,
        ⟨24, 31, 32, "::2 off".toList⟩, ⟨32, 36, 37, "****".toList⟩,
        ⟨37, 46, 47, "  ::1 one".toList⟩, ⟨47, 54, 54, "::2 two".toList⟩] := by
    decide +kernel
  have hlines' : linesOf (labelledWith "---- b.js ----" "::") =
      [⟨0, 16, 17, "---- a.html ----".toList⟩, ⟨17, 35, 36, "::1 ---- b.js ----".toList⟩,
        ⟨36, 43, 44, "::2 off".toList⟩, ⟨44, 48, 49, "****".toList⟩,
        ⟨49, 57, 58, "  ::1 ::".toList⟩, ⟨58, 65, 65, "::2 two".toList⟩] := by
    decide +kernel
  have hcondition {inside : Bool} {line line' : Line} (gap back back' : String) (hinside : inside = false)
      (hgap : blank gap.toList = true)
      (hline : line.text = gap.toList ++ ':' :: ':' :: ("1".toList ++ ' ' :: back.toList))
      (hline' : line'.text = gap.toList ++ ':' :: ':' :: ("1".toList ++ ' ' :: back'.toList)) :
      line.SameBut "1" inside line' :=
    .inr ⟨hinside, _, ' ', _, _, ⟨hline, hgap, .inl rfl⟩, ⟨hline', hgap, .inl rfl⟩⟩
  rw [hlines, hlines']
  refine .cons (.inl rfl) (.cons ?_ (.cons (.inl rfl) (.cons (.inl rfl) (.cons ?_ (.cons (.inl rfl) (.nil _))))))
  · apply hcondition "" "on" "---- b.js ----" <;> decide +kernel
  · apply hcondition "  " "one" "::" <;> decide +kernel

/-- What one label says may even look like a header, or like the end of a block. -/
theorem compile_sameBut_labelledWith : ∃ compiled compiled',
    compile ⟨labelledWith "on" "one", []⟩ false none = .ok compiled ∧
    compile ⟨labelledWith "---- b.js ----" "::", []⟩ false none = .ok compiled' ∧
    compiled.SameBut "1" compiled' := by
  have hlabel : IsLabel "1".toList := ⟨by decide +kernel, List.all_eq_true.mp (by decide +kernel)⟩
  have hok : (compile ⟨labelledWith "on" "one", []⟩ false none).isOk = true := by decide +kernel
  rcases (compile_sameBut hlabel alongside_labelledWith false none).2 with ⟨fault, hfault, -⟩ | hboth
  · rw [hfault] at hok
    cases hok
  · exact hboth

end Spec

end HotSpec
