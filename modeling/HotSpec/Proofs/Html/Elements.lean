import HotSpec.Proofs.Html.Cuts

/-!
# The content of preformatted elements

A preformatted element stands in the normal form of a page between the normal forms of what is in
front of it and of what is behind it.  Trimming around tags leaves its content alone.  Joining runs
does not: it knows of no elements, so line breaks and repeated spaces become single spaces in the
content as well.

Main definition:

- `element`: a preformatted element without attributes.

Main results:

- Theorem `joinSpaces_joinLines_eq_self_iff`: which contents have no runs to join.
- Theorem `normal_element`: the normal form around an element, and when its content is kept.
-/

namespace HotSpec.Html

open HotSpec.Text

variable {name front content text : List Char}

/-! ## Texts without runs -/

theorem length_joinRuns_le (x y : Char) (text : List Char) :
    (joinRuns x y text).length ≤ text.length := by
  fun_induction joinRuns x y text with
  | case1 => exact Nat.le_refl _
  | case2 rest hmore ih => exact ih.trans (Nat.le_succ _)
  | case3 rest hmore ih => exact Nat.succ_le_succ ih
  | case4 c rest hc ih => exact Nat.succ_le_succ ih

/-- Spaces are joined where two of them stand side by side. -/
theorem joinSpaces_eq_self_iff : joinSpaces text = text ↔ ¬ [' ', ' '] <:+: text := by
  rw [joinSpaces_eq]
  fun_induction joinRuns ' ' ' ' text with
  | case1 => simp
  | case2 rest hmore ih =>
    obtain ⟨more, rfl⟩ := List.head?_eq_some_iff.mp hmore
    refine iff_of_false (fun heq => ?_) (not_not.mpr ⟨[], more, rfl⟩)
    have hshort := length_joinRuns_le ' ' ' ' (' ' :: more)
    rw [heq] at hshort
    exact absurd hshort (Nat.not_succ_le_self _)
  | case3 rest hmore ih =>
    have hpair : ¬ [' ', ' '] <+: ' ' :: rest := by
      rintro ⟨more, hpair⟩
      exact hmore (by simp [← (List.cons.inj hpair).2])
    rw [List.cons_inj_right, ih, List.infix_cons_iff, or_iff_right hpair]
  | case4 c rest hc ih =>
    have hpair : ¬ [' ', ' '] <+: c :: rest := by
      rintro ⟨more, hpair⟩
      exact hc (List.cons.inj hpair).1.symm
    rw [List.cons_inj_right, ih, List.infix_cons_iff, or_iff_right hpair]

/-- Nothing is joined in a text without line breaks and without two spaces side by side. -/
theorem joinSpaces_joinLines_eq_self_iff :
    joinSpaces (joinLines text) = text ↔ '\n' ∉ text ∧ ¬ [' ', ' '] <:+: text := by
  have hself (hbreaks : '\n' ∉ text) : joinLines text = text := by
    rw [joinLines_eq, joinRuns_eq_self hbreaks]
  constructor
  · intro heq
    have hbreaks : '\n' ∉ text := fun h =>
      not_mem_joinLines text (mem_of_mem_joinSpaces (heq.symm ▸ h))
    rw [hself hbreaks] at heq
    exact ⟨hbreaks, joinSpaces_eq_self_iff.mp heq⟩
  · rintro ⟨hbreaks, hspaces⟩
    rw [hself hbreaks, joinSpaces_eq_self_iff.mpr hspaces]

/-! ## Elements -/

/-- The characters of a preformatted element without attributes. -/
def elementChars (name content : List Char) : List Char :=
  '<' :: name ++ ['>'] ++ (content ++ (closer name ++ ['>']))

/-- A closer that stands in a text in front of a part of itself stands in that text. -/
theorem closer_infix_append (hname : name ∈ preformattedNames)
    (h : closer name <:+: content ++ (closer name).dropLast) : closer name <:+: content := by
  have hplain := closer_plain hname
  obtain ⟨found, hfound, hstarts⟩ := (infix_iff_tagNames hplain).mp h
  have hlast : (closer name).dropLast = '<' :: ('/' :: name).dropLast := rfl
  have hshort : tagName ('/' :: name).dropLast = ('/' :: name).dropLast :=
    List.takeWhile_eq_self_iff.mpr fun c hc => hplain c (List.dropLast_subset _ hc)
  have hnone : tagNames ('/' :: name).dropLast = [] := by
    have hnames := tagNames_append_of_plain (fun c hc => hplain c (List.dropLast_subset _ hc)) []
    rwa [List.append_nil] at hnames
  rw [tagNames_append (by rw [hlast]; rfl), hlast, tagNames_open, hshort, hnone, List.mem_append,
    List.mem_singleton] at hfound
  rcases hfound with hfound | rfl
  · exact (infix_iff_tagNames hplain).mpr ⟨found, hfound, hstarts⟩
  · have hlength := hstarts.length_le
    simp at hlength

theorem preformatted?_element (hname : name ∈ preformattedNames)
    (hclose : ¬ closer name <:+: content) (rest : List Char) :
    preformatted? (elementChars name content ++ rest) =
      some ('<' :: name ++ '>' :: (content ++ closer name), '>' :: rest) :=
  preformatted?_eq_some_iff.mpr ⟨name, hname, '>', content, rfl, by simp [elementChars],
    fun h => hclose (closer_infix_append hname h)⟩

/-- The normal form of an element alone. -/
theorem normalChars_elementChars (hname : name ∈ preformattedNames)
    (hclose : ¬ closer name <:+: content) :
    normalChars (elementChars name content) =
      elementChars name (joinSpaces (joinLines content)) := by
  have hplain : ∀ c ∈ name, isBlank c = false := fun c hc =>
    visible_of_plain (plain_of_mem_preformattedNames hname c hc)
  have hopener : ∀ c ∈ '<' :: name ++ ['>'], isBlank c = false := by
    simpa [or_imp, forall_and, isBlank] using hplain
  have hcloser : ∀ c ∈ closer name ++ ['>'], isBlank c = false := by
    simpa [closer, or_imp, forall_and, isBlank] using hplain
  have hfirst : trimStart (elementChars name content) = elementChars name content :=
    trimStart_cons_of_visible (by decide) _
  have hlast : trimStart (closer name ++ ['>']) = closer name ++ ['>'] :=
    trimStart_cons_of_visible (by decide) _
  have hcut := preformatted?_element hname hclose []
  rw [List.append_nil] at hcut
  have htrim : trimTags (elementChars name content) = elementChars name content := by
    rw [trimTags_of_preformatted hcut, trimTags_close, trimStart, List.dropWhile_nil, trimTags_nil]
    simp [elementChars]
  have hjoin := joinSpaces_joinLines_of_visible hcloser []
  rw [List.append_nil] at hjoin
  rw [normalChars_eq, hfirst, htrim, elementChars, joinSpaces_joinLines_of_visible hopener,
    joinSpaces_joinLines_append hlast, hjoin, elementChars]
  simp [joinLines, joinSpaces]

/-- The normal form around an element. -/
theorem normalChars_element (hname : name ∈ preformattedNames) (hopen : OpenerFree front)
    (hclose : ¬ closer name <:+: content) (rest : List Char) :
    normalChars (front ++ (elementChars name content ++ rest)) =
      normalChars front ++
        (elementChars name (joinSpaces (joinLines content)) ++ normalChars rest) := by
  have hfront : Sealed (elementChars name content ++ rest) front := hopen.sealed rfl
  have helement : Sealed rest (elementChars name content) := by
    have hcut := preformatted?_element hname hclose []
    rw [List.append_nil] at hcut
    exact .element hcut (.pass (preformatted?_of_ne (by decide) _) .nil)
  have hlast : (elementChars name content).getLast? = some '>' := by
    have hconcat : elementChars name content =
        '<' :: name ++ ['>'] ++ (content ++ closer name) ++ ['>'] := by simp [elementChars]
    rw [hconcat, List.getLast?_concat]
  rw [normalChars_append hfront (.inr rfl), normalChars_append helement (.inl hlast),
    normalChars_elementChars hname hclose]

/-! ## Pages -/

/-- A preformatted element without attributes. -/
def element (name content : String) : String :=
  "<" ++ name ++ ">" ++ content ++ "</" ++ name ++ ">"

/-- A text with its runs of line breaks and of spaces joined. -/
def joined (content : String) : String :=
  String.ofList (joinSpaces (joinLines content.toList))

theorem toList_element (name content : String) :
    (element name content).toList = elementChars name.toList content.toList := by
  simp [element, elementChars, closer]

theorem normal_append_element {name front content : String}
    (hname : name.toList ∈ preformattedNames) (hopen : OpenerFree front.toList)
    (hclose : ¬ closer name.toList <:+: content.toList) (rest : String) :
    normal (front ++ element name content ++ rest) =
      normal front ++ element name (joined content) ++ normal rest := by
  rw [← String.toList_inj]
  simpa [normal, joined, toList_element] using
    normalChars_element hname hopen hclose rest.toList

theorem joined_eq_self_iff {content : String} :
    joined content = content ↔ '\n' ∉ content.toList ∧ ¬ [' ', ' '] <:+: content.toList := by
  rw [← joinSpaces_joinLines_eq_self_iff, ← String.toList_inj, joined, String.toList_ofList]

theorem element_inj {name content other : String} :
    element name content = element name other ↔ content = other := by
  simp [element, ← String.toList_inj]

/-- The normal form of a page with a preformatted element: the text in front of it and the text
behind it are brought into normal form by themselves.  The content of the element loses nothing to
the tags around it, and stays as it is exactly if it has no line break and no two spaces side by
side. -/
theorem normal_element {name front content : String} (hname : name.toList ∈ preformattedNames)
    (hopen : OpenerFree front.toList) (hclose : ¬ closer name.toList <:+: content.toList)
    (rest : String) :
    normal (front ++ element name content ++ rest) =
        normal front ++ element name (joined content) ++ normal rest ∧
      (normal (front ++ element name content ++ rest) =
          normal front ++ element name content ++ normal rest ↔
        '\n' ∉ content.toList ∧ ¬ [' ', ' '] <:+: content.toList) := by
  have hnormal := normal_append_element hname hopen hclose rest
  refine ⟨hnormal, ?_⟩
  rw [hnormal, String.append_left_inj, String.append_right_inj, element_inj, joined_eq_self_iff]

theorem normal_element_script :
    "script".toList ∈ preformattedNames ∧ OpenerFree "<p> x\n".toList ∧
      ¬ closer "script".toList <:+: " a <  b;\n".toList ∧
      normal ("<p> x\n" ++ element "script" " a <  b;\n" ++ " <b> y </b>") =
        "<p>x<script> a < b; </script><b>y</b>" := by
  have hname : "script".toList ∈ preformattedNames := by decide
  have hopen : OpenerFree "<p> x\n".toList := by
    unfold OpenerFree
    decide
  have hclose : ¬ closer "script".toList <:+: " a <  b;\n".toList := by decide
  have hfront : normal "<p> x\n" = "<p>x" := by decide +kernel
  have hrest : normal " <b> y </b>" = "<b>y</b>" := by decide +kernel
  refine ⟨hname, hopen, hclose, ?_⟩
  rw [(normal_element hname hopen hclose " <b> y </b>").1, hfront, hrest]
  decide

/-- A line break in a preformatted element does not survive. -/
theorem normal_element_break :
    "pre".toList ∈ preformattedNames ∧ OpenerFree "".toList ∧ "a\nb" ≠ "" ∧
      ¬ closer "pre".toList <:+: "a\nb".toList ∧
      normal ("" ++ element "pre" "a\nb" ++ "") ≠ normal "" ++ element "pre" "a\nb" ++ normal "" := by
  have hopen : OpenerFree "".toList := by
    unfold OpenerFree
    decide
  exact ⟨by decide, hopen, by decide, by decide, by decide +kernel⟩

end HotSpec.Html
