import HotSpec.Proofs.Html.Trimming

/-!
# The normal form of two texts side by side

A text can be brought into normal form piece by piece when it is cut where blanks do not count,
after a `>` or in front of a `<`, and no preformatted element goes through the cut.

Main definition:

- `Sealed`: the elements that start in a text end in it, whatever goes through the cut behind it.

Main results:

- Theorem `trimTags_append`: trimming around tags, piece by piece.
- Theorem `normalChars_eq`: the normal form without the trimming at the end, which trimming around
  tags does anyway.
- Theorem `normalChars_append`: the normal form, piece by piece.
-/

namespace HotSpec.Html

open HotSpec.Text

variable {c : Char} {text rest other front kept left gap : List Char}

/-! ## Elements that end before a cut -/

/-- From left to right, each element that starts in a text ends in it, and where none starts the
text behind the cut does not make one. -/
inductive Sealed (rest : List Char) : List Char → Prop
  | nil : Sealed rest []
  | element {text kept left : List Char} (h : preformatted? text = some (kept, left))
      (hleft : Sealed rest left) : Sealed rest text
  | pass {c : Char} {text : List Char} (h : preformatted? (c :: (text ++ rest)) = none)
      (htext : Sealed rest text) : Sealed rest (c :: text)

/-- Nothing goes through the end of a text. -/
theorem sealed_nil (text : List Char) : Sealed [] text := by
  induction hlength : text.length using Nat.strong_induction_on generalizing text with
  | _ n ih =>
    cases text with
    | nil => exact .nil
    | cons c text =>
      cases hcut : preformatted? (c :: text) with
      | none => exact .pass (by simpa using hcut) (ih text.length (by simp [← hlength]) text rfl)
      | some element =>
        obtain ⟨kept, left⟩ := element
        have hshort := length_of_preformatted? hcut
        exact .element hcut (ih left.length (hlength ▸ hshort) left rfl)

/-- What may follow depends only on where elements would start. -/
theorem Sealed.follow (h : Sealed rest text)
    (hnone : ∀ c front, preformatted? (c :: (front ++ rest)) = none →
      preformatted? (c :: (front ++ other)) = none) : Sealed other text := by
  induction h with
  | nil => exact .nil
  | element h _ ih => exact .element h ih
  | pass h _ ih => exact .pass (hnone _ _ h) ih

/-- No element goes through the end of a text without openers. -/
theorem OpenerFree.sealed (h : OpenerFree text) (hrest : tagName rest = []) : Sealed rest text := by
  induction text with
  | nil => exact .nil
  | cons c text ih =>
    refine .pass (h.preformatted?_eq_none fun name hname hstarts => ?_) (ih h.of_cons)
    have hplain := plain_of_mem_preformattedNames hname
    rwa [prefix_iff_tagName hplain, tagName_append hrest, ← prefix_iff_tagName hplain] at hstarts

theorem open_prefix_append {name more more' : List Char} (hplain : ∀ c ∈ name, isPlain c = true)
    (h : name ++ ['<'] <+: front ++ '<' :: more) : name ++ ['<'] <+: front ++ '<' :: more' := by
  induction front generalizing name with
  | nil =>
    cases name with
    | nil => simp
    | cons d name =>
      obtain rfl : d = '<' := (List.cons_prefix_cons.mp h).1
      exact absurd (hplain '<' List.mem_cons_self) (by decide)
  | cons c front ih =>
    cases name with
    | nil =>
      obtain rfl : '<' = c := (List.cons_prefix_cons.mp h).1
      simp
    | cons d name =>
      obtain ⟨heq, hfront⟩ := List.cons_prefix_cons.mp h
      exact List.cons_prefix_cons.mpr
        ⟨heq, ih (fun c hc => hplain c (List.mem_cons_of_mem _ hc)) hfront⟩

/-- In front of a tag, what follows counts only by its names. -/
theorem Sealed.follow_tag {more more' : List Char} (h : Sealed ('<' :: more) text)
    (hsame : SameTags ('<' :: more) ('<' :: more')) : Sealed ('<' :: more') text := by
  refine h.follow fun c front hnone => ?_
  by_cases hc : c = '<'
  · subst hc
    exact (hsame.append front).preformatted?_eq_none
      (fun name hname => open_prefix_append (plain_of_mem_preformattedNames hname)) hnone
  · exact preformatted?_of_ne hc _

/-! ## Trimming on both sides -/

theorem trimStart_append (h : trimStart rest = rest) (front : List Char) :
    trimStart (front ++ rest) = trimStart front ++ rest := by
  induction front with
  | nil => exact h
  | cons c front ih =>
    rw [List.cons_append]
    by_cases hc : isBlank c = true
    · rw [trimStart_cons_of_blank hc, trimStart_cons_of_blank hc, ih]
    · have hvisible : isBlank c = false := by simpa using hc
      rw [trimStart_cons_of_visible hvisible, trimStart_cons_of_visible hvisible, List.cons_append]

/-- Whether a tag comes next is decided before a cut at which blanks do not count. -/
theorem atTag_trimStart_append
    (hcut : front.getLast? = some '>' ∨ atTag (trimStart rest) = true) :
    atTag (trimStart (front ++ rest)) = atTag (trimStart front) := by
  induction front with
  | nil => simpa [trimStart, atTag] using hcut
  | cons c front ih =>
    rw [List.cons_append]
    by_cases hc : isBlank c = true
    · rw [trimStart_cons_of_blank hc, trimStart_cons_of_blank hc]
      refine ih (hcut.imp_left fun hlast => ?_)
      cases front with
      | nil =>
        obtain rfl : c = '>' := by simpa using hlast
        exact absurd hc (by decide)
      | cons d front => simpa using hlast
    · have hvisible : isBlank c = false := by simpa using hc
      rw [trimStart_cons_of_visible hvisible, trimStart_cons_of_visible hvisible]
      rfl

/-- What follows a text does not change the element in front of it. -/
theorem preformatted?_append_text (h : preformatted? text = some (kept, left))
    (rest : List Char) : preformatted? (text ++ rest) = some (kept, left ++ rest) := by
  rw [← append_preformatted? h, List.append_assoc]
  exact preformatted?_append h _

theorem preformatted?_eq_none_of_append (h : preformatted? (text ++ rest) = none) :
    preformatted? text = none := by
  cases hcut : preformatted? text with
  | none => rfl
  | some element =>
    obtain ⟨kept, left⟩ := element
    rw [preformatted?_append_text hcut] at h
    cases h

/-- Trimming around tags, piece by piece. -/
theorem trimTags_append (h : Sealed rest front)
    (hcut : front.getLast? = some '>' ∨ atTag (trimStart rest) = true) :
    trimTags (front ++ rest) = trimTags front ++ trimTags (trimStart rest) := by
  have hstart : trimStart (trimTags (trimStart rest)) = trimTags (trimStart rest) := by
    rw [trimStart_trimTags, trimStart_idem]
  induction h with
  | nil =>
    rw [trimTags_nil]
    exact trimTags_of_atTag (by simpa using hcut)
  | @element text kept left h _ ih =>
    rw [trimTags_of_preformatted (preformatted?_append_text h rest), trimTags_of_preformatted h,
      List.append_assoc]
    congr 1
    refine ih (hcut.imp_left fun hlast => ?_)
    rw [← append_preformatted? h] at hlast
    cases left with
    | nil =>
      obtain ⟨d, hd, hplain⟩ := getLast?_preformatted h
      rw [List.append_nil, hd] at hlast
      exact absurd (Option.some.inj hlast) (ne_close_of_plain hplain)
    | cons d left => rwa [List.getLast?_append_cons] at hlast
  | @pass c text hnone _ ih =>
    have hnone' : preformatted? (c :: text) = none := preformatted?_eq_none_of_append hnone
    by_cases hclose : c = '>'
    · subst hclose
      rw [List.cons_append, trimTags_close, trimTags_close, List.cons_append]
      congr 1
      cases text with
      | nil => simp [trimStart]
      | cons d text =>
        rw [← trimStart_trimTags, ih (by simpa using hcut), trimStart_append hstart,
          trimStart_trimTags]
    · have hcut' : text.getLast? = some '>' ∨ atTag (trimStart rest) = true := by
        refine hcut.imp_left fun hlast => ?_
        cases text with
        | nil => exact absurd (by simpa using hlast) hclose
        | cons d text => simpa using hlast
      have htag := atTag_trimStart_append hcut'
      by_cases hdrop : isBlank c = true ∧ atTag (trimStart text) = true
      · rw [List.cons_append, trimTags_blank hdrop.1 (htag.trans hdrop.2),
          trimTags_blank hdrop.1 hdrop.2, ← trimStart_trimTags, ih hcut', trimStart_append hstart,
          trimStart_trimTags]
      · rw [not_and, Bool.not_eq_true] at hdrop
        rw [List.cons_append, trimTags_keep hnone hclose (by rwa [htag]),
          trimTags_keep hnone' hclose hdrop, ih hcut', List.cons_append]

/-! ## The normal form without its ends -/

/-- Blanks at the end start no element and close none. -/
theorem sealed_of_blank (hgap : blank gap = true) (text : List Char) : Sealed gap text := by
  refine (sealed_nil text).follow fun c front hnone => ?_
  have hnames : SameTags ([] : List Char) gap := by
    induction gap with
    | nil => exact .refl _
    | cons d gap ih =>
      obtain ⟨hd, hgap⟩ : isBlank d = true ∧ blank gap = true := by simpa [blank] using hgap
      exact ⟨(tagName_of_blank hd gap).symm,
        (ih hgap).later.trans (tagNames_cons_of_ne (ne_open_of_blank hd) gap).symm⟩
  by_cases hc : c = '<'
  · subst hc
    refine (hnames.append front).preformatted?_eq_none (fun name hname hstarts => ?_) hnone
    exact (List.append_nil front ▸ hstarts).trans (List.prefix_append _ _)
  · exact preformatted?_of_ne hc _

/-- Trimming around tags trims at the end. -/
theorem trimTags_trimEnd (text : List Char) : trimTags (trimEnd text) = trimTags text := by
  have hgap : blank (text.reverse.takeWhile isBlank).reverse = true := by
    rw [blank, List.all_reverse]
    exact blank_takeWhile _
  have hsplit : trimEnd text ++ (text.reverse.takeWhile isBlank).reverse = text := by
    rw [trimEnd, ← List.reverse_append, List.takeWhile_append_dropWhile, List.reverse_reverse]
  have hstart : trimStart (text.reverse.takeWhile isBlank).reverse = [] :=
    List.dropWhile_eq_nil_iff.mpr (List.all_eq_true.mp hgap)
  conv_rhs => rw [← hsplit, trimTags_append (sealed_of_blank hgap _) (.inr (by rw [hstart]; rfl)),
    hstart, trimTags_nil, List.append_nil]

/-- The normal form, with the runs joined last. -/
theorem normalChars_eq (text : List Char) :
    normalChars text = joinSpaces (joinLines (trimTags (trimStart text))) := by
  rw [normalChars, trim, trimTags_trimEnd, joinLines_eq, joinLines_eq,
    trimStart_joinRuns (by decide) (by decide), trimTags_joinRuns (by decide) (by decide)]

theorem normalChars_trimStart (text : List Char) :
    normalChars (trimStart text) = normalChars text := by
  rw [normalChars_eq, normalChars_eq, trimStart_idem]

/-- Joining both kinds of runs, piece by piece. -/
theorem joinSpaces_joinLines_append (h : trimStart rest = rest) (front : List Char) :
    joinSpaces (joinLines (front ++ rest)) =
      joinSpaces (joinLines front) ++ joinSpaces (joinLines rest) := by
  have hvisible := trimStart_eq_self_iff.mp h
  rw [joinLines_eq, joinLines_eq, joinLines_eq, joinRuns_append, joinSpaces_eq, joinSpaces_eq,
    joinSpaces_eq, joinRuns_append]
  · intro _ hspace
    rw [head?_joinRuns, Option.map_eq_some_iff] at hspace
    obtain ⟨c, hc, heq⟩ := hspace
    have hne : c ≠ '\n' := by
      rintro rfl
      exact absurd (hvisible _ hc) (by decide)
    rw [if_neg hne] at heq
    subst heq
    exact absurd (hvisible _ hc) (by decide)
  · intro _ hbreak
    exact absurd (hvisible _ hbreak) (by decide)

theorem joinSpaces_joinLines_of_visible (hfront : ∀ c ∈ front, isBlank c = false)
    (rest : List Char) :
    joinSpaces (joinLines (front ++ rest)) = front ++ joinSpaces (joinLines rest) := by
  rw [joinLines_eq, joinLines_eq, joinRuns_append_of_visible (by decide) hfront, joinSpaces_eq,
    joinSpaces_eq, joinRuns_append_of_visible (by decide) hfront]

/-- The normal form, piece by piece. -/
theorem normalChars_append (h : Sealed rest front)
    (hcut : front.getLast? = some '>' ∨ atTag (trimStart rest) = true) :
    normalChars (front ++ rest) = normalChars front ++ normalChars rest := by
  have hstart : trimStart (trimTags (trimStart rest)) = trimTags (trimStart rest) := by
    rw [trimStart_trimTags, trimStart_idem]
  rw [normalChars_eq, normalChars_eq, normalChars_eq, ← joinSpaces_joinLines_append hstart,
    ← trimStart_trimTags, trimTags_append h hcut, trimStart_append hstart, trimStart_trimTags]

/-- Blanks at the end do not change the normal form. -/
theorem normalChars_append_of_blank (hgap : blank gap = true) (text : List Char) :
    normalChars (text ++ gap) = normalChars text := by
  have hstart : trimStart gap = [] := List.dropWhile_eq_nil_iff.mpr (List.all_eq_true.mp hgap)
  rw [normalChars_append (sealed_of_blank hgap text) (.inr (by rw [hstart]; rfl)),
    normalChars_of_blank hgap, List.append_nil]

end HotSpec.Html
