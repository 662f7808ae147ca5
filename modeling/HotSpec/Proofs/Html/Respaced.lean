import HotSpec.Proofs.Html.Elements

/-!
# Blanks around tags

Blanks after a `>` or in front of a `<` do not count in the normal form, wherever they are put in or
taken out, in a text in which no opener of a preformatted element is followed by its closer.  This is
the exact condition: between an opener and its closer a blank in front of the closer stays.  An
opener is found by its first letters, so a tag whose name only starts with that of a preformatted
element counts as one.

Main definitions:

- `Loosens`, `Respaced`: texts that differ by blanks around their tags.
- `HoldsElement`: an opener stands in a text, and its closer after it.

Main results:

- Theorem `normalChars_respaced`: without such a pair, blanks around tags do not count.
- Theorem `exists_loosens_ne`: with one, some of them do.
- Theorem `normal_respaced_iff`: both, for pages.
-/

namespace HotSpec.Html

open HotSpec.Text

variable {c : Char} {name text other front rest gap after : List Char}

/-! ## Texts that differ by blanks around their tags -/

/-- Blanks are put directly after a `>` or directly in front of a `<`. -/
inductive Loosens : List Char → List Char → Prop
  | blanks {front gap rest : List Char} (hgap : blank gap = true)
      (hcut : front.getLast? = some '>' ∨ rest.head? = some '<') :
      Loosens (front ++ rest) (front ++ (gap ++ rest))

/-- Blanks around tags are put in or taken out, at any number of places. -/
def Respaced : List Char → List Char → Prop :=
  Relation.EqvGen Loosens

theorem tagNames_append_of_blank (hgap : blank gap = true) (rest : List Char) :
    tagNames (gap ++ rest) = tagNames rest := by
  rw [← tagNames_trimStart, trimStart_append_of_blank hgap, tagNames_trimStart]

theorem tagName_append_of_blank (hgap : blank gap = true) (hrest : tagName rest = []) :
    tagName (gap ++ rest) = [] := by
  cases gap with
  | nil => exact hrest
  | cons d gap => exact tagName_of_blank (List.all_eq_true.mp hgap d List.mem_cons_self) _

/-- Blanks around tags are no part of a name and do not end one. -/
theorem Loosens.sameTags (h : Loosens text other) : SameTags text other := by
  cases h with
  | @blanks front gap rest hgap hcut =>
    have hnames := (tagNames_append_of_blank hgap rest).symm
    rcases hcut with hlast | hfirst
    · obtain ⟨before, rfl⟩ := List.getLast?_eq_some_iff.mp hlast
      rw [List.append_assoc, List.append_assoc]
      have hclose : SameTags ('>' :: rest) ('>' :: (gap ++ rest)) := by
        refine ⟨rfl, ?_⟩
        rw [tagNames_cons_of_ne (by decide), tagNames_cons_of_ne (by decide), hnames]
      exact hclose.append before
    · obtain ⟨more, rfl⟩ := List.head?_eq_some_iff.mp hfirst
      have hopen : SameTags ('<' :: more) (gap ++ '<' :: more) :=
        ⟨(tagName_append_of_blank hgap rfl).symm, hnames⟩
      exact hopen.append front

/-! ## Openers and their closers -/

/-- An opener of a preformatted element stands in a text, and its closer after it. -/
def HoldsElement (text : List Char) : Prop :=
  ∃ name ∈ preformattedNames, ∃ front inner after,
    text = front ++ ('<' :: name ++ (inner ++ (closer name ++ after)))

theorem HoldsElement.cons (h : HoldsElement text) (c : Char) : HoldsElement (c :: text) := by
  obtain ⟨name, hname, front, inner, after, rfl⟩ := h
  exact ⟨name, hname, c :: front, inner, after, rfl⟩

/-- An opener and a closer after it are two names, one after the other. -/
theorem holdsElement_iff_tagNames :
    HoldsElement text ↔ ∃ name ∈ preformattedNames, ∃ first second,
      [first, second].Sublist (tagNames text) ∧ name <+: first ∧ '/' :: name <+: second := by
  constructor
  · rintro ⟨name, hname, front, inner, after, rfl⟩
    have hplain := plain_of_mem_preformattedNames hname
    have hcloser := closer_plain hname
    refine ⟨name, hname, tagName (name ++ (inner ++ (closer name ++ after))),
      tagName ('/' :: name ++ after), ?_, ?_, ?_⟩
    · have hopen : tagNames ('<' :: name ++ (inner ++ (closer name ++ after))) =
          tagName (name ++ (inner ++ (closer name ++ after))) ::
            (tagNames inner ++ tagNames (closer name ++ after)) := by
        rw [List.cons_append, tagNames_open, tagNames_append_of_plain hplain, tagNames_append rfl]
      have hclose : tagNames (closer name ++ after) =
          tagName ('/' :: name ++ after) :: tagNames ('/' :: name ++ after) := tagNames_open _
      rw [tagNames_append rfl, hopen, hclose]
      exact ((List.singleton_sublist.mpr (by simp)).cons_cons _).trans
        (List.sublist_append_right _ _)
    · exact (prefix_iff_tagName hplain).mp (List.prefix_append _ _)
    · exact (prefix_iff_tagName hcloser).mp (List.prefix_append _ _)
  · rintro ⟨name, hname, first, second, hnames, hfirst, hsecond⟩
    have hplain := plain_of_mem_preformattedNames hname
    have hcloser := closer_plain hname
    induction text with
    | nil => cases hnames
    | cons c text ih =>
      by_cases hc : c = '<'
      · subst hc
        rw [tagNames_open] at hnames
        cases hnames with
        | cons _ hnames => exact (ih hnames).cons _
        | cons_cons _ hnames =>
          obtain ⟨more, rfl⟩ := (prefix_iff_tagName hplain).mpr hfirst
          rw [tagNames_append_of_plain hplain] at hnames
          have hclose : closer name <:+: more :=
            (infix_iff_tagNames hcloser).mpr ⟨second, by simpa using hnames, hsecond⟩
          obtain ⟨inner, after, rfl⟩ := hclose
          exact ⟨name, hname, [], inner, after, by simp⟩
      · rw [tagNames_cons_of_ne hc] at hnames
        exact (ih hnames).cons c

theorem SameTags.holdsElement_iff (h : SameTags text other) :
    HoldsElement text ↔ HoldsElement other := by
  rw [holdsElement_iff_tagNames, holdsElement_iff_tagNames, h.later]

/-- An element that starts somewhere has its opener and its closer there. -/
theorem holdsElement_of_preformatted {kept left : List Char}
    (h : preformatted? text = some (kept, left)) : HoldsElement text := by
  obtain ⟨name, hname, c, inner, rfl, rfl, -⟩ := preformatted?_eq_some_iff.mp h
  exact ⟨name, hname, [], c :: inner, left, by simp⟩

theorem sealed_of_not_holdsElement (h : ¬ HoldsElement (front ++ rest)) : Sealed rest front := by
  induction front with
  | nil => exact .nil
  | cons c front ih =>
    refine .pass ?_ (ih fun hfront => h (hfront.cons c))
    cases hcut : preformatted? (c :: (front ++ rest)) with
    | none => rfl
    | some element =>
      obtain ⟨kept, left⟩ := element
      exact absurd (holdsElement_of_preformatted hcut) h

/-! ## Blanks that do not count -/

theorem Loosens.normalChars_eq (h : Loosens text other) (hnone : ¬ HoldsElement text) :
    normalChars other = normalChars text := by
  have hnone' : ¬ HoldsElement other := by rwa [← h.sameTags.holdsElement_iff]
  cases h with
  | @blanks front gap rest hgap hcut =>
    have htag : front.getLast? = some '>' ∨ atTag (trimStart rest) = true := by
      refine hcut.imp_right fun hfirst => ?_
      obtain ⟨more, rfl⟩ := List.head?_eq_some_iff.mp hfirst
      rfl
    have hstart : trimStart (gap ++ rest) = trimStart rest := trimStart_append_of_blank hgap rest
    have hgone : normalChars (gap ++ rest) = normalChars rest := by
      rw [← normalChars_trimStart, hstart, normalChars_trimStart]
    rw [normalChars_append (sealed_of_not_holdsElement hnone') (by rwa [hstart]),
      normalChars_append (sealed_of_not_holdsElement hnone) htag, hgone]

/-- Blanks around tags do not count in a text that holds no element. -/
theorem normalChars_respaced (h : Respaced text other) (hnone : ¬ HoldsElement text) :
    normalChars other = normalChars text := by
  suffices hboth : (HoldsElement text ↔ HoldsElement other) ∧
      (¬ HoldsElement text → normalChars other = normalChars text) from hboth.2 hnone
  clear hnone
  induction h with
  | rel text other h => exact ⟨h.sameTags.holdsElement_iff, h.normalChars_eq⟩
  | refl text => exact ⟨Iff.rfl, fun _ => rfl⟩
  | symm text other _ ih => exact ⟨ih.1.symm, fun hnone => (ih.2 (by rwa [ih.1])).symm⟩
  | trans text middle other _ _ ih ih' =>
    exact ⟨ih.1.trans ih'.1, fun hnone => (ih'.2 (by rwa [← ih.1])).trans (ih.2 hnone)⟩

/-! ## Blanks that count -/

/-- A tab between an opener and its closer stays. -/
theorem preformatted?_tab (hname : name ∈ preformattedNames) {inner : List Char}
    (hfirst : ¬ closer name <:+: inner.tail) (after : List Char) :
    preformatted? ('<' :: name ++ inner ++ '\t' :: (closer name ++ after)) =
      some ('<' :: name ++ inner ++ '\t' :: closer name, after) := by
  cases inner with
  | nil =>
    refine preformatted?_eq_some_iff.mpr ⟨name, hname, '\t', [], by simp, by simp, fun h => ?_⟩
    simpa [closer] using (closer_infix_append hname h)
  | cons c inner =>
    refine preformatted?_eq_some_iff.mpr
      ⟨name, hname, c, inner ++ ['\t'], by simp, by simp, fun h => hfirst ?_⟩
    have hplain := closer_plain hname
    obtain ⟨found, hfound, hstarts⟩ :=
      (infix_iff_tagNames hplain).mp (closer_infix_append hname h)
    rw [tagNames_append rfl] at hfound
    exact (infix_iff_tagNames hplain).mpr ⟨found, by simpa [tagNames] using hfound, hstarts⟩

/-- The tabs of a normal form are those that trimming around tags keeps. -/
theorem count_normalChars_append (h : Sealed ('<' :: rest) front) :
    (normalChars (front ++ '<' :: rest)).count '\t' =
      (normalChars front).count '\t' + (trimTags ('<' :: rest)).count '\t' := by
  have hjoin (text : List Char) :
      (joinSpaces (joinLines text)).count '\t' = text.count '\t' := by
    rw [joinSpaces_eq, joinLines_eq, count_joinRuns (by decide) (by decide),
      count_joinRuns (by decide) (by decide)]
  rw [normalChars_append h (.inr rfl), List.count_append, normalChars_eq ('<' :: rest),
    trimStart_cons_of_visible (by decide), hjoin]

/-- A tab that trimming around tags keeps is in the normal form. -/
theorem normalChars_tab_ne {more left : List Char} (hfront : Sealed ('<' :: (more ++ after)) front)
    (hafter : tagName after = []) (htrim : trimTags ('<' :: (more ++ after)) = '<' :: (more ++ left))
    (htab : trimTags ('<' :: (more ++ '\t' :: after)) = '<' :: (more ++ '\t' :: left)) :
    normalChars (front ++ '<' :: (more ++ '\t' :: after)) ≠
      normalChars (front ++ '<' :: (more ++ after)) := by
  have htag : SameTags after ('\t' :: after) :=
    ⟨hafter, (tagNames_cons_of_ne (by decide) after).symm⟩
  have hsame : SameTags ('<' :: (more ++ after)) ('<' :: (more ++ '\t' :: after)) :=
    htag.append ('<' :: more)
  intro heq
  have hcounts := congrArg (List.count '\t') heq
  rw [count_normalChars_append (hfront.follow_tag hsame), count_normalChars_append hfront, htrim,
    htab] at hcounts
  simp only [List.count_cons, List.count_append] at hcounts
  simp at hcounts

/-- Trimming around tags passes a mark that starts no element. -/
theorem trimTags_mark {mark : List Char} (hplain : ∀ c ∈ mark, isPlain c = true)
    (hnone : preformatted? ('<' :: (mark ++ rest)) = none) :
    trimTags ('<' :: (mark ++ rest)) = '<' :: (mark ++ trimTags rest) := by
  rw [trimTags_keep hnone (by decide) (fun h => absurd h (by decide))]
  clear hnone
  congr 1
  induction mark with
  | nil => rfl
  | cons c mark ih =>
    rw [List.cons_append, trimTags_plain (hplain c List.mem_cons_self),
      ih fun d hd => hplain d (List.mem_cons_of_mem _ hd), List.cons_append]

/-- The first element that is found in a text, if there is one. -/
theorem exists_first_element (text : List Char) :
    (∀ left, left <:+ text → preformatted? left = none) ∨
      ∃ front rest kept left, text = front ++ rest ∧ preformatted? rest = some (kept, left) ∧
        Sealed rest front := by
  induction text with
  | nil =>
    refine .inl fun left hleft => ?_
    rw [List.suffix_nil.mp hleft]
    rfl
  | cons c text ih =>
    cases hcut : preformatted? (c :: text) with
    | some element =>
      obtain ⟨kept, left⟩ := element
      exact .inr ⟨[], c :: text, kept, left, rfl, hcut, .nil⟩
    | none =>
      rcases ih with hnone | ⟨front, rest, kept, left, rfl, hfound, hsealed⟩
      · refine .inl fun left hleft => ?_
        rcases List.suffix_cons_iff.mp hleft with rfl | hleft
        · exact hcut
        · exact hnone left hleft
      · exact .inr ⟨c :: front, rest, kept, left, rfl, hfound, .pass hcut hsealed⟩

theorem sealed_of_forall_suffix (h : ∀ left, left <:+ front ++ rest → preformatted? left = none) :
    Sealed rest front := by
  induction front with
  | nil => exact .nil
  | cons c front ih =>
    exact .pass (h _ (List.suffix_refl _)) (ih fun left hleft => h left (hleft.trans (List.suffix_cons c _)))

/-- In front of a closer that belongs to an opener there is a place for a blank that counts. -/
theorem exists_loosens_ne (h : HoldsElement text) :
    ∃ other, Loosens text other ∧ normalChars other ≠ normalChars text := by
  -- A tab goes in front of the closer of the first element that is found.  Where none is found the
  -- closer stands right after the opener, and the tab makes an element of them.
  suffices hplace : ∃ name ∈ preformattedNames, ∃ front inner after,
      text = front ++ '<' :: (name ++ inner ++ (closer name ++ after)) ∧
      Sealed ('<' :: (name ++ inner ++ (closer name ++ after))) front ∧
      ¬ closer name <:+: inner.tail ∧
      trimTags ('<' :: (name ++ inner ++ (closer name ++ after))) =
        '<' :: (name ++ inner ++ (closer name ++ trimTags after)) by
    obtain ⟨name, hname, front, inner, after, rfl, hsealed, hfirst, htrim⟩ := hplace
    refine ⟨front ++ '<' :: (name ++ inner ++ '\t' :: (closer name ++ after)), ?_, ?_⟩
    · have hloose : Loosens (front ++ '<' :: (name ++ inner) ++ (closer name ++ after))
          (front ++ '<' :: (name ++ inner) ++ (['\t'] ++ (closer name ++ after))) :=
        .blanks (by decide) (.inr rfl)
      simpa using hloose
    · refine normalChars_tab_ne hsealed rfl htrim ?_
      have hcut := preformatted?_tab hname hfirst after
      rw [List.cons_append, List.cons_append] at hcut
      rw [trimTags_of_preformatted hcut]
      simp
  rcases exists_first_element text with hnone | ⟨front, rest, kept, left, rfl, hfound, hsealed⟩
  · obtain ⟨name, hname, front, inner, after, rfl⟩ := h
    have hopen := hnone _ (List.suffix_append _ _)
    have hclose := hnone (closer name ++ after)
      ⟨front ++ ('<' :: name ++ inner), by simp⟩
    cases inner with
    | cons c inner =>
      exact absurd ⟨inner, after, by simp⟩
        (preformatted?_eq_none_iff.mp hopen name hname c (inner ++ (closer name ++ after)) rfl)
    | nil =>
      refine ⟨name, hname, front, [], after, by simp, ?_, by simp [closer], ?_⟩
      · simpa using sealed_of_forall_suffix hnone
      · have hmark := trimTags_mark (plain_of_mem_preformattedNames hname) hopen
        have hcloser : trimTags (closer name ++ after) = closer name ++ trimTags after :=
          trimTags_mark (closer_plain hname) hclose
        rw [List.nil_append, hcloser] at hmark
        simpa using hmark
  · obtain ⟨name, hname, c, inner, rfl, rfl, hfirst⟩ := preformatted?_eq_some_iff.mp hfound
    refine ⟨name, hname, front, c :: inner, left, by simp, by simpa using hsealed, ?_, ?_⟩
    · intro hearly
      exact hfirst (hearly.trans (List.prefix_append _ _).isInfix)
    · have htrim := trimTags_of_preformatted hfound
      simpa using htrim

/-! ## Pages -/

/-- Blanks around the tags of a page do not count exactly if no opener of a preformatted element is
followed by its closer. -/
theorem normal_respaced_iff (html : String) :
    (∀ other : String, Respaced html.toList other.toList → normal other = normal html) ↔
      ¬ HoldsElement html.toList := by
  constructor
  · intro hkeeps helement
    obtain ⟨other, hloose, hne⟩ := exists_loosens_ne helement
    have hspaced : Respaced html.toList (String.ofList other).toList := by
      rw [String.toList_ofList]
      exact .rel _ _ hloose
    have hother := hkeeps (String.ofList other) hspaced
    rw [normal, normal, String.toList_ofList] at hother
    exact hne (String.ofList_injective hother)
  · intro hnone other hspaced
    rw [normal, normal, normalChars_respaced hspaced hnone]

/-- Blanks go after one tag and come in front of another one. -/
theorem normal_respaced_item :
    Respaced "<li> a</li>".toList "<li>a\n</li>".toList ∧ ¬ HoldsElement "<li> a</li>".toList ∧
      normal "<li>a\n</li>" = normal "<li> a</li>" := by
  have hafter : Loosens "<li>a</li>".toList "<li> a</li>".toList :=
    @Loosens.blanks "<li>".toList [' '] "a</li>".toList (by decide) (.inl (by decide))
  have hbefore : Loosens "<li>a</li>".toList "<li>a\n</li>".toList :=
    @Loosens.blanks "<li>a".toList ['\n'] "</li>".toList (by decide) (.inr (by decide))
  have hspaced : Respaced "<li> a</li>".toList "<li>a\n</li>".toList :=
    .trans _ _ _ (.symm _ _ (.rel _ _ hafter)) (.rel _ _ hbefore)
  have hnone : ¬ HoldsElement "<li> a</li>".toList := by
    have hopen : ∀ name ∈ preformattedNames, ∀ first ∈ tagNames "<li> a</li>".toList,
        ¬ name <+: first := by decide
    rw [holdsElement_iff_tagNames]
    rintro ⟨name, hname, first, second, hnames, hfirst, -⟩
    exact hopen name hname first (hnames.subset List.mem_cons_self) hfirst
  exact ⟨hspaced, hnone, (normal_respaced_iff _).mpr hnone _ hspaced⟩

/-- Whether a text starts with a `<`, the whole name of a preformatted element and what can follow a
name in a tag. -/
def startsElement (text : List Char) : Bool :=
  preformattedNames.any fun name =>
    ('<' :: name).isPrefixOf text &&
      (text.drop (name.length + 1)).head?.all fun c => isBlank c || c == '/' || c == '>'

/-- A tag whose name only starts with that of a preformatted element keeps its blanks. -/
theorem normal_respaced_preview :
    (∀ left ∈ "<preview> <b>x</b></preview>".toList.tails, startsElement left = false) ∧
      Respaced "<preview> <b>x</b></preview>".toList "<preview><b>x</b></preview>".toList ∧
      normal "<preview><b>x</b></preview>" ≠ normal "<preview> <b>x</b></preview>" := by
  have hloose : Loosens "<preview><b>x</b></preview>".toList "<preview> <b>x</b></preview>".toList :=
    @Loosens.blanks "<preview>".toList [' '] "<b>x</b></preview>".toList (by decide)
      (.inl (by decide))
  exact ⟨by decide, .symm _ _ (.rel _ _ hloose), by decide +kernel⟩

end HotSpec.Html
