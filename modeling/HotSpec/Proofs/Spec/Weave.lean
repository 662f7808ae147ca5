import HotSpec.Spec.Source
import Mathlib

/-!
# A source as it was written

A source remembers what it was written from: cut at its anchored values, it gives back the texts and
the values of the list that it was made of, in their order.

Main definitions:

- `Piece`, `weave`: a text cut at the values that are anchored in it.
- `written`: the pieces of a mixed list, with its plain values spliced into the texts.
- `Source.ofParts`: the source of a mixed list.

Main results:

- Theorem `weave_ofParts`: a source, cut at its values, is the list that it was made of.
- Theorem `sorted_ofParts`: the values of a source are in the order of their offsets.
-/

namespace HotSpec.Spec

/-! ## Pieces -/

/-- A piece of a spec as it is written: a text, maybe empty, or a value between two texts. -/
inductive Piece
  | text (text : List Char)
  | value (value : Value)

/-- The value of a piece. -/
def Piece.value? : Piece → Option Value
  | .text _ => none
  | .value v => some v

/-- A text from an offset on, cut at the values that are anchored in it. -/
def weave (start : Nat) (text : List Char) : List Anchored → List Piece
  | [] => [.text text]
  | a :: values =>
    .text (text.take (a.index - start)) :: .value a.value ::
      weave a.index (text.drop (a.index - start)) values

/-- The pieces of a mixed list that follows a text: what is plain is spliced into the text. -/
def written (text : List Char) : List Value → List Piece
  | [] => [.text text]
  | .text s :: parts => written (text ++ s.toList) parts
  | v :: parts =>
    if isAnchoring v then .text text :: .value v :: written [] parts
    else written (text ++ v.plain.toList) parts

theorem values_weave (start : Nat) (text : List Char) (values : List Anchored) :
    (weave start text values).filterMap Piece.value? = values.map Anchored.value := by
  induction values generalizing start text with
  | nil => rfl
  | cons a values ih => simp [weave, List.filterMap_cons, Piece.value?, ih]

theorem values_written (text : List Char) (parts : List Value) :
    (written text parts).filterMap Piece.value? = parts.filter isAnchoring := by
  fun_induction written text parts with
  | case1 => rfl
  | case2 text s parts ih => simpa [isAnchoring, Value.isCallable] using ih
  | case3 text v parts hv hanchoring ih =>
    simp [List.filterMap_cons, Piece.value?, ih, hanchoring]
  | case4 text v parts hv hanchoring ih => simpa [hanchoring] using ih

/-- The texts of two weaves, one after the other, meet where the first has its last value. -/
theorem weave_append (start : Nat) (text : List Char) (first : List Anchored) (a : Anchored)
    (rest : List Anchored) (hsorted : (first ++ [a]).Pairwise fun a b => a.index ≤ b.index)
    (hstart : ∀ b ∈ first ++ [a], start ≤ b.index) :
    weave start text (first ++ a :: rest) =
      weave start (text.take (a.index - start)) first ++ .value a.value ::
        weave a.index (text.drop (a.index - start)) rest := by
  induction first generalizing start text with
  | nil => rfl
  | cons b first ih =>
    obtain ⟨hb, hsorted⟩ := List.pairwise_cons.mp hsorted
    have hba : b.index ≤ a.index := hb a (by simp)
    have hsb : start ≤ b.index := hstart b (by simp)
    simp only [List.cons_append, weave]
    rw [ih _ _ hsorted hb, List.take_take, List.drop_drop, List.drop_take, Nat.min_eq_left (by omega),
      show a.index - start - (b.index - start) = a.index - b.index by omega,
      show b.index - start + (a.index - b.index) = a.index - start by omega]

/-! ## Interpolation -/

/-- What is written in front of the first text only comes in front. -/
theorem interpolateAt_append (offset : Nat) (s t : String) (strings : List String)
    (values : List Value) : interpolateAt offset ((s ++ t) :: strings) values =
      ⟨s.toList ++ (interpolateAt (offset + s.length) (t :: strings) values).text,
        (interpolateAt (offset + s.length) (t :: strings) values).values⟩ := by
  cases values with
  | nil => simp [interpolateAt, Nat.add_assoc]
  | cons v values =>
    by_cases h : isAnchoring v
    · simp [interpolateAt, h, Nat.add_assoc]
    · simp [interpolateAt, h, Nat.add_assoc]

/-- There is a text on both sides of each value. -/
theorem splitParts_ne_nil (parts : List Value) : (splitParts parts).1 ≠ [] := by
  fun_induction splitParts parts with
  | case1 => simp
  | case2 => simp
  | case3 => simp
  | case4 => simp

/-- A list that follows a text is written as its source says. -/
theorem weave_interpolateAt (start : Nat) (text : List Char) (parts : List Value) :
    let source := interpolateAt (start + text.length) (splitParts parts).1 (splitParts parts).2
    weave start (text ++ source.text) source.values = written text parts := by
  fun_induction written text parts generalizing start with
  | case1 text => simp [splitParts, interpolateAt, weave]
  | case2 text s parts ih =>
    have hrest := ih start
    rw [List.length_append, String.length_toList, ← Nat.add_assoc] at hrest
    rw [splitParts]
    cases hsplit : splitParts parts with
    | mk strings values =>
      rw [hsplit] at hrest
      cases strings with
      | nil => exact absurd (congrArg Prod.fst hsplit) (splitParts_ne_nil parts)
      | cons t strings =>
        simp only [interpolateAt_append]
        rwa [← List.append_assoc]
  | case3 text v parts hv hanchoring ih =>
    have hrest := ih (start + text.length)
    rw [splitParts]
    · cases hsplit : splitParts parts with
      | mk strings values =>
        rw [hsplit] at hrest
        simpa [interpolateAt, hanchoring, weave] using hrest
    · exact hv
  | case4 text v parts hv hanchoring ih =>
    have hrest := ih start
    rw [splitParts]
    · cases hsplit : splitParts parts with
      | mk strings values =>
        rw [hsplit] at hrest
        simpa [interpolateAt, hanchoring, Nat.add_assoc, ← String.length_toList] using hrest
    · exact hv

/-- The source of a mixed list. -/
def Source.ofParts (parts : List Value) : Source :=
  interpolate (splitParts parts).1 (splitParts parts).2

/-- A source, cut at its values, is the list that it was made of. -/
theorem weave_ofParts (parts : List Value) :
    weave 0 (Source.ofParts parts).text (Source.ofParts parts).values = written [] parts := by
  simpa [Source.ofParts, interpolate] using weave_interpolateAt 0 [] parts

/-- The values of a source are in the order of their offsets. -/
theorem sorted_interpolateAt (offset : Nat) (strings : List String) (values : List Value) :
    ((interpolateAt offset strings values).values.Pairwise fun a b => a.index ≤ b.index) ∧
      ∀ a ∈ (interpolateAt offset strings values).values, offset ≤ a.index := by
  fun_induction interpolateAt offset strings values with
  | case1 => simp
  | case2 offset s strings rest ih =>
    exact ⟨ih.1, fun a ha => Nat.le_trans (Nat.le_add_right _ _) (ih.2 a ha)⟩
  | case3 offset s strings v values offset' hanchoring rest ih =>
    refine ⟨List.pairwise_cons.mpr ⟨ih.2, ih.1⟩, fun a ha => ?_⟩
    rcases List.mem_cons.mp ha with rfl | ha
    · exact Nat.le_add_right _ _
    · exact Nat.le_trans (Nat.le_add_right _ _) (ih.2 a ha)
  | case4 offset s strings v values offset' hanchoring rest ih =>
    refine ⟨ih.1, fun a ha => ?_⟩
    have hle := ih.2 a ha
    omega

theorem sorted_ofParts (parts : List Value) :
    (Source.ofParts parts).values.Pairwise fun a b => a.index ≤ b.index :=
  (sorted_interpolateAt 0 _ _).1

/-- The values of a source are the values of its list that keep their places. -/
theorem values_ofParts (parts : List Value) :
    (Source.ofParts parts).values.map Anchored.value = parts.filter isAnchoring := by
  rw [← values_weave 0 (Source.ofParts parts).text, weave_ofParts, values_written]

end HotSpec.Spec
