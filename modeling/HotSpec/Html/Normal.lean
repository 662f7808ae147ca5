import HotSpec.Text.Blank

/-!
# The normal form of HTML text

HTML is compared as text in a normal form: line breaks and repeated spaces count as one space, and
blanks next to tags count for nothing.  The content of preformatted elements takes no part in the
trimming around tags.

Main definitions:

- `preformatted?`: a preformatted element in front of a text, up to its closer.
- `trimTags`: a text without the blanks next to its tags.
- `normal`: the normal form.
-/

namespace HotSpec.Html

open HotSpec.Text

/-! ## Preformatted elements -/

/-- Elements whose content keeps its blanks. -/
def preformattedNames : List (List Char) :=
  ["pre".toList, "script".toList, "style".toList, "textarea".toList]

/-- A text cut after the first occurrence of a mark. -/
def cutAfter? (mark : List Char) : List Char → Option (List Char × List Char)
  | [] => if mark.isEmpty then some ([], []) else none
  | c :: rest =>
    if mark.isPrefixOf (c :: rest) then some (mark, (c :: rest).drop mark.length)
    else (cutAfter? mark rest).map fun (kept, left) => (c :: kept, left)

/-- A preformatted element in front of a text: from its opener `<name` through at least one
character to the next closer `</name`, and the text after that. -/
def preformatted? : List Char → Option (List Char × List Char)
  | '<' :: rest =>
    match preformattedNames.find? (·.isPrefixOf rest) with
    | none => none
    | some name =>
      match rest.drop name.length with
      | [] => none
      | c :: body =>
        (cutAfter? ('<' :: '/' :: name) body).map fun (kept, left) =>
          ('<' :: name ++ c :: kept, left)
  | _ => none

theorem length_of_cutAfter? {mark text kept left : List Char}
    (h : cutAfter? mark text = some (kept, left)) : left.length ≤ text.length := by
  induction text generalizing kept with
  | nil =>
    simp only [cutAfter?] at h
    split at h <;> simp_all
  | cons c rest ih =>
    rw [cutAfter?] at h
    split at h
    · simp only [Option.some.injEq, Prod.mk.injEq] at h
      rw [← h.2, List.length_drop]
      omega
    · obtain ⟨⟨kept', left'⟩, found, same⟩ := Option.map_eq_some_iff.1 h
      simp only [Prod.mk.injEq] at same
      have := ih (by rw [found, same.2])
      simp only [List.length_cons]
      omega

theorem length_of_preformatted? {text kept left : List Char}
    (h : preformatted? text = some (kept, left)) : left.length < text.length := by
  unfold preformatted? at h
  split at h
  · next rest =>
    split at h
    · simp at h
    · next name _ =>
      split at h
      · simp at h
      · next c body drop =>
        obtain ⟨⟨kept', left'⟩, found, same⟩ := Option.map_eq_some_iff.1 h
        simp only [Prod.mk.injEq] at same
        have bound := length_of_cutAfter? found
        have size := congrArg List.length drop
        simp only [List.length_drop, List.length_cons] at size
        simp only [List.length_cons, ← same.2]
        omega
  · simp at h

/-! ## Blanks around tags -/

theorem length_dropWhile_le (p : Char → Bool) (text : List Char) :
    (text.dropWhile p).length ≤ text.length := by
  induction text with
  | nil => simp
  | cons c rest ih =>
    rw [List.dropWhile_cons]
    split
    · simp only [List.length_cons]; omega
    · simp

/-- Whether a text is empty or starts with a tag. -/
def atTag : List Char → Bool
  | [] => true
  | c :: _ => c == '<'

/-- The text without the blanks that follow a `>` or precede a `<` or the end.  Preformatted
elements are kept as they are. -/
def trimTags (text : List Char) : List Char :=
  match text with
  | [] => []
  | c :: rest =>
    match _h : preformatted? (c :: rest) with
    | some (kept, left) => kept ++ trimTags left
    | none =>
      if c == '>' then c :: trimTags (trimStart rest)
      else if isBlank c && atTag (trimStart rest) then trimTags (trimStart rest)
      else c :: trimTags rest
termination_by text.length
decreasing_by
  · exact length_of_preformatted? _h
  all_goals first
    | exact Nat.lt_succ_of_le (length_dropWhile_le _ _)
    | exact Nat.lt_succ_self _

/-! ## Line breaks and spaces -/

/-- Every run of line breaks as one space. -/
def joinLines : List Char → List Char
  | [] => []
  | '\n' :: '\n' :: rest => joinLines ('\n' :: rest)
  | '\n' :: rest => ' ' :: joinLines rest
  | c :: rest => c :: joinLines rest

/-- Every run of spaces as one space. -/
def joinSpaces : List Char → List Char
  | [] => []
  | ' ' :: ' ' :: rest => joinSpaces (' ' :: rest)
  | c :: rest => c :: joinSpaces rest

/-! ## The normal form -/

/-- The normal form of HTML text, on characters. -/
def normalChars (text : List Char) : List Char :=
  joinSpaces (trimTags (trim (joinLines text)))

/-- The normal form of HTML text. -/
def normal (html : String) : String :=
  String.ofList (normalChars html.toList)

end HotSpec.Html
