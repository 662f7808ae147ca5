import HotSpec.Proofs.Html.Stable
import HotSpec.Regex.Reader

/-!
# Tokens accept the page they were written for

A page is brought into normal form as a whole, the literal tokens of an expectation one by one.  In
a text that opens no preformatted element the two agree up to blanks at the cuts: the normal form of
two texts side by side is the normal form of the first, some blanks, and the normal form of the
second.  Matching skips blanks in front of each token, so the tokens meet the page.

Main definitions:

- `Token.Writes`: what a token stands for in a page.

Main results:

- Theorem `normalChars_cons`: the normal form from left to right.
- Theorem `exists_normalChars_append`: the normal form of two texts side by side.
- Theorem `check_written`: tokens accept the page they were written for.
-/

namespace HotSpec.Html

open HotSpec.Text

variable {c : Char} {text rest front gap : List Char}

/-! ## The normal form from left to right -/

/-- The blanks that stay between a visible character and the text after it. -/
def innerGap (c : Char) (text : List Char) : List Char :=
  if c = '>' ∨ atTag (trimStart text) = true then []
  else joinSpaces (joinLines (text.takeWhile isBlank))

theorem blank_joinSpaces (h : blank text = true) : blank (joinSpaces text) = true :=
  List.all_eq_true.mpr fun c hc => List.all_eq_true.mp h c (mem_of_mem_joinSpaces hc)

theorem blank_innerGap (c : Char) (text : List Char) : blank (innerGap c text) = true := by
  rw [innerGap]
  split
  · rfl
  · exact blank_joinSpaces (blank_joinLines (blank_takeWhile text))

/-- Trimming around tags keeps the leading blanks unless a tag comes next. -/
theorem trimTags_eq_append (htag : atTag (trimStart text) = false) :
    trimTags text = text.takeWhile isBlank ++ trimTags (trimStart text) := by
  conv_lhs => rw [← takeWhile_append_trimStart text]
  rcases trimStart_eq_nil_or text with h | ⟨c, rest, h, hc⟩
  · rw [h] at htag
    cases htag
  · rw [h] at htag ⊢
    exact trimTags_append_of_blank (blank_takeWhile text) hc (by simpa [atTag] using htag) rest

/-- The normal form of a text that starts with a visible character. -/
theorem normalChars_cons (hc : isBlank c = false) (hopen : OpenerFree (c :: text)) :
    normalChars (c :: text) = c :: (innerGap c text ++ normalChars text) := by
  have hstart : trimStart (trimTags (trimStart text)) = trimTags (trimStart text) := by
    rw [trimStart_trimTags, trimStart_idem]
  have hjoin : ∀ rest, joinSpaces (joinLines (c :: rest)) = c :: joinSpaces (joinLines rest) :=
    fun rest => by
      rw [joinLines_eq, joinLines_eq, joinRuns_of_visible (by decide) hc, joinSpaces_eq,
        joinSpaces_eq, joinRuns_of_visible (by decide) hc]
  rw [normalChars_eq, trimStart_cons_of_visible hc, innerGap]
  by_cases hclose : c = '>'
  · subst hclose
    rw [trimTags_close, hjoin, if_pos (.inl rfl), List.nil_append, normalChars_eq]
  · have hnone : preformatted? (c :: text) = none :=
      hopen.preformatted?_eq_none fun _ _ => id
    rw [trimTags_keep hnone hclose (fun h => absurd h (by simp [hc])), hjoin]
    by_cases htag : atTag (trimStart text) = true
    · rw [if_pos (.inr htag), trimTags_of_atTag htag, List.nil_append, normalChars_eq]
    · rw [if_neg (by simp [hclose, htag]), trimTags_eq_append (by simpa using htag),
        joinSpaces_joinLines_append hstart, ← normalChars_eq]

theorem normalChars_cons_of_blank (hc : isBlank c = true) (text : List Char) :
    normalChars (c :: text) = normalChars text := by
  rw [← normalChars_trimStart, trimStart_cons_of_blank hc, normalChars_trimStart]

/-- A text without blanks is in normal form. -/
theorem normalChars_of_visible (hvisible : ∀ c ∈ text, isBlank c = false)
    (hopen : OpenerFree text) : normalChars text = text := by
  induction text with
  | nil => exact normalChars_of_blank rfl
  | cons c rest ih =>
    have hrest : ∀ d ∈ rest, isBlank d = false := fun d hd => hvisible d (List.mem_cons_of_mem _ hd)
    have hnone : rest.takeWhile isBlank = [] := by
      cases rest with
      | nil => rfl
      | cons d rest => simp [hrest d List.mem_cons_self]
    rw [normalChars_cons (hvisible c List.mem_cons_self) hopen, ih hrest hopen.of_cons, innerGap,
      hnone]
    simp [joinLines, joinSpaces]

/-! ## Texts side by side -/

/-- The blanks in front of a text that is not blank do not depend on what follows it. -/
theorem innerGap_append (h : blank front = false) (c : Char) (rest : List Char) :
    innerGap c (front ++ rest) = innerGap c front := by
  obtain ⟨d, more, hmore, hd⟩ : ∃ d more, trimStart front = d :: more ∧ isBlank d = false := by
    rcases trimStart_eq_nil_or front with hnil | hcons
    · have hall := List.dropWhile_eq_nil_iff.mp hnil
      rw [blank, List.all_eq_true.mpr hall] at h
      cases h
    · exact hcons
  have hfront := takeWhile_append_trimStart front
  have hblank := blank_takeWhile front
  rw [hmore] at hfront
  have htake : (front ++ rest).takeWhile isBlank = front.takeWhile isBlank := by
    rw [← hfront, List.append_assoc, List.takeWhile_append_of_pos (List.all_eq_true.mp hblank),
      List.takeWhile_append_of_pos (List.all_eq_true.mp hblank)]
    simp [hd]
  have hdrop : trimStart (front ++ rest) = d :: (more ++ rest) := by
    rw [← hfront, List.append_assoc, trimStart_append_of_blank hblank, List.cons_append,
      trimStart_cons_of_visible hd]
  rw [innerGap, innerGap, htake, hdrop, hmore]
  rfl

theorem blank_append : blank (front ++ rest) = (blank front && blank rest) :=
  List.all_append

/-- The normal form of two texts side by side is that of the one, some blanks, and that of the
other. -/
theorem exists_normalChars_append (hopen : OpenerFree (front ++ rest)) :
    ∃ gap, blank gap = true ∧
      normalChars (front ++ rest) = normalChars front ++ (gap ++ normalChars rest) := by
  induction front with
  | nil =>
    have hnil : normalChars [] = [] := normalChars_of_blank rfl
    exact ⟨[], rfl, by rw [hnil]; rfl⟩
  | cons c front ih =>
    obtain ⟨gap, hgap, happend⟩ := ih hopen.of_cons
    rw [List.cons_append]
    by_cases hc : isBlank c = true
    · rw [normalChars_cons_of_blank hc, normalChars_cons_of_blank hc]
      exact ⟨gap, hgap, happend⟩
    · have hvisible : isBlank c = false := by simpa using hc
      have hfront : OpenerFree (c :: front) := hopen.of_infix (List.prefix_append _ rest).isInfix
      rw [List.cons_append] at hopen
      rw [normalChars_cons hvisible hopen, normalChars_cons hvisible hfront, happend]
      cases hblank : blank front with
      | true =>
        -- The first text ends with its blanks, which are all part of the gap.
        have htag : atTag (trimStart front) = true := by
          rw [trimStart, List.dropWhile_eq_nil_iff.mpr (List.all_eq_true.mp hblank)]
          rfl
        refine ⟨innerGap c (front ++ rest) ++ gap, by simp [blank_append, blank_innerGap, hgap], ?_⟩
        rw [normalChars_of_blank hblank, innerGap.eq_1 c front, if_pos (.inr htag)]
        simp
      | false =>
        refine ⟨gap, hgap, ?_⟩
        rw [innerGap_append hblank]
        simp

/-! ## Tokens -/

/-- What a token stands for in a page: a literal text for itself, a pattern for a text without
blanks that it takes as a whole, whatever follows. -/
inductive Token.Writes : Token → List Char → Prop
  | literal (text : String) : Writes (.literal text) text.toList
  | pattern (regex : Regex) (text : List Char) (hne : text ≠ [])
      (hvisible : ∀ c ∈ text, isBlank c = false)
      (htakes : ∀ rest, regex.matchRest? (text ++ rest) = some rest) :
      Writes (.pattern regex) text

/-- A visible text stays after blanks in front of it are skipped. -/
theorem trimStart_gap_append (hgap : blank gap = true) (hstart : trimStart text = text)
    (hne : text ≠ []) (rest : List Char) : trimStart (gap ++ (text ++ rest)) = text ++ rest := by
  rw [trimStart_append_of_blank hgap]
  obtain ⟨c, more, rfl⟩ := List.exists_cons_of_ne_nil hne
  have hc : isBlank c = false := trimStart_eq_self_iff.mp hstart c rfl
  exact trimStart_cons_of_visible hc _

/-- Tokens are met in the normal form of what they stand for, with blanks in front of it. -/
theorem meetTokens_written {tokens : List Token} {texts : List (List Char)}
    (hwrites : List.Forall₂ Token.Writes tokens texts) (hopen : OpenerFree texts.flatten)
    (actual : String) (position : Nat) (hgap : blank gap = true) :
    meetTokens actual position (tokens.filterMap Token.normal?)
      (gap ++ normalChars texts.flatten) = .ok () := by
  induction hwrites generalizing position gap with
  | nil =>
    rw [List.flatten_nil, normalChars_of_blank rfl, List.append_nil, List.filterMap_nil, meetTokens,
      if_pos hgap]
  | @cons token text tokens texts hwrites _ ih =>
    rw [List.flatten_cons] at hopen ⊢
    obtain ⟨inner, hinner, happend⟩ := exists_normalChars_append hopen
    have hrest : OpenerFree texts.flatten := hopen.of_infix (List.suffix_append _ _).isInfix
    rw [happend]
    cases hwrites with
    | literal text =>
      by_cases hempty : Html.normal text = ""
      · have hnil : normalChars text.toList = [] := by
          simpa [Html.normal] using congrArg String.toList hempty
        rw [List.filterMap_cons_none (by rw [Token.normal?, if_pos hempty]), hnil, List.nil_append,
          ← List.append_assoc]
        exact ih hrest position (by simp [blank_append, hgap, hinner])
      · have hne : normalChars text.toList ≠ [] := fun hnil => hempty (by rw [Html.normal, hnil])
        have hlength : (Html.normal text).length = (normalChars text.toList).length := by
          simp [Html.normal]
        rw [List.filterMap_cons_some (by rw [Token.normal?, if_neg hempty]), meetTokens,
          trimStart_gap_append hgap (trimStart_normalChars _) hne]
        simp only [hlength, List.take_left, List.drop_left]
        rw [if_pos (by simp [Html.normal])]
        exact ih hrest (position + 1) hinner
    | pattern regex text hne hvisible htakes =>
      have htext : OpenerFree text := hopen.of_infix (List.prefix_append _ _).isInfix
      have hstart : trimStart text = text :=
        trimStart_eq_self_iff.mpr fun c hc => hvisible c (List.mem_of_head? hc)
      have hform : (Token.pattern regex).normal? = some (.pattern regex) := rfl
      rw [List.filterMap_cons_some hform, normalChars_of_visible hvisible htext, meetTokens,
        trimStart_gap_append hgap hstart hne]
      simp only [htakes]
      exact ih hrest (position + 1) hinner

/-- Tokens accept the page they were written for: their own texts, one after another, unless these
open a preformatted element. -/
theorem check_written {tokens : List Token} {texts : List (List Char)}
    (hwrites : List.Forall₂ Token.Writes tokens texts)
    (hopen : ∀ name ∈ preformattedNames, ¬ '<' :: name <:+: texts.flatten) :
    (Expected.tokens tokens).normal.check (normal (String.ofList texts.flatten)) = .ok () := by
  rw [Expected.normal, Expected.check, matchTokens, Html.normal, String.toList_ofList,
    String.toList_ofList]
  have hnone : blank [] = true := rfl
  exact meetTokens_written hwrites hopen _ 0 hnone

/-- Tokens that are cut inside a run of blanks, around a pattern, and in front of a tag. -/
def cutTokens : List Token :=
  [.literal "<p>\n a ", .literal " b", .pattern (Regex.ofSource "[0-9]" default), .literal " \n",
    .literal " </p>"]

/-- What they stand for in a page. -/
def cutTexts : List (List Char) :=
  ["<p>\n a ".toList, " b".toList, ['7'], " \n".toList, " </p>".toList]

theorem check_written_cut :
    List.Forall₂ Token.Writes cutTokens cutTexts ∧
      (∀ name ∈ preformattedNames, ¬ '<' :: name <:+: cutTexts.flatten) ∧
      (Expected.tokens cutTokens).normal.check (normal "<p>\n a  b7 \n </p>") = .ok () := by
  have hwrites : List.Forall₂ Token.Writes cutTokens cutTexts :=
    .cons (.literal _) (.cons (.literal _) (.cons
      (.pattern _ _ (by simp) (by simp [isBlank]) fun _ => rfl)
      (.cons (.literal _) (.cons (.literal _) .nil))))
  have hopen : ∀ name ∈ preformattedNames, ¬ '<' :: name <:+: cutTexts.flatten := by
    decide +kernel
  have hpage : String.ofList cutTexts.flatten = "<p>\n a  b7 \n </p>" := by
    simp [cutTexts]
  have haccepts := check_written hwrites hopen
  rw [hpage] at haccepts
  exact ⟨hwrites, hopen, haccepts⟩

end HotSpec.Html
