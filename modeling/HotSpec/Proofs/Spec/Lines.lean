import HotSpec.Proofs.Spec.Layout
import Mathlib

/-!
# Lines in their source

A line is a piece of its source: its text stands there from its start on, with the break after it, if
it has one.  The lines of a source follow each other without a gap, and only the last has no break.

Main definitions:

- `Line.whole`: the text of a line with its break.
- `Line.In`: a line that is a piece of a source.
- `Line.Follows`: two lines of a source that stand next to each other.

Main results:

- Theorem `linesOf_in`, `linesOf_follows`: the lines of a source.
- Theorem `drop_start`: lines that follow each other are one piece of their source.
-/

namespace HotSpec.Spec

open HotSpec.Text

/-- The break of a line, if it has one. -/
def Line.break (line : Line) : List Char := List.replicate (line.next - line.finish) '\n'

/-- The text of a line with its break. -/
def Line.whole (line : Line) : List Char := line.text ++ line.break

/-- A line that is a piece of a source. -/
structure Line.In (source : List Char) (line : Line) : Prop where
  finish : line.finish = line.start + line.text.length
  next : line.next = line.start + line.whole.length
  text : source.drop line.start = line.whole ++ source.drop line.next
  next_le : line.next ≤ source.length

/-- Two lines of a source that stand next to each other. -/
def Line.Follows (line next : Line) : Prop := next.start = line.next ∧ line.break = ['\n']

theorem placeLines_in {source : List Char} {offset : Nat} {texts : List (List Char)}
    (h : source.drop offset = (texts.intersperse ['\n']).flatten) (hle : offset ≤ source.length) :
    (∀ line ∈ placeLines source.length offset texts, line.In source) ∧
      (placeLines source.length offset texts).IsChain Line.Follows := by
  induction texts generalizing offset with
  | nil => simp [placeLines]
  | cons text texts ih =>
    have hsize := congrArg List.length h
    cases texts with
    | nil =>
      simp only [List.intersperse_singleton, List.flatten_singleton, List.length_drop] at h hsize
      have hbreak : Line.break ⟨offset, offset + text.length,
          min (offset + text.length + 1) source.length, text⟩ = [] := by
        simp only [Line.break]
        rw [show min (offset + text.length + 1) source.length - (offset + text.length) = 0 by omega]
        rfl
      simp only [placeLines, List.mem_singleton, forall_eq, List.isChain_singleton, and_true]
      refine ⟨rfl, ?_, ?_, Nat.min_le_right _ _⟩
      · simp only [Line.whole, hbreak, List.append_nil]
        omega
      · simp only [Line.whole, hbreak, List.append_nil, h]
        rw [show min (offset + text.length + 1) source.length = source.length by omega]
        simp
    | cons next texts =>
      simp only [List.intersperse_cons_cons, List.flatten_cons, List.length_drop, List.length_append,
        List.length_singleton] at h hsize
      obtain ⟨hin, hfollows⟩ := @ih (offset + text.length + 1) (by
        rw [Nat.add_assoc, ← List.drop_drop, h, ← List.append_assoc, List.drop_left']
        simp) (by omega)
      have hnext : min (offset + text.length + 1) source.length = offset + text.length + 1 := by omega
      have hbreak : Line.break ⟨offset, offset + text.length, offset + text.length + 1, text⟩ =
          ['\n'] := by
        simp [Line.break]
      rw [placeLines]
      simp only [hnext]
      refine ⟨fun line hline => ?_, ?_⟩
      · rcases List.mem_cons.mp hline with rfl | hline
        · refine ⟨rfl, ?_, ?_, by simp only; omega⟩
          · rw [Line.whole, hbreak, List.length_append, List.length_singleton, Nat.add_assoc]
          · rw [Line.whole, hbreak]
            simp only
            rw [Nat.add_assoc, ← List.drop_drop, h, ← List.append_assoc, List.drop_left' (by simp)]
        · exact hin line hline
      · rw [placeLines] at hfollows ⊢
        exact List.isChain_cons_cons.mpr ⟨⟨rfl, hbreak⟩, hfollows⟩

theorem linesOf_in {source : List Char} {line : Line} (h : line ∈ linesOf source) : line.In source :=
  (placeLines_in (by rw [splitOn_flatten, List.drop_zero]) (Nat.zero_le _)).1 line h

theorem linesOf_follows (source : List Char) : (linesOf source).IsChain Line.Follows :=
  (placeLines_in (by rw [splitOn_flatten, List.drop_zero]) (Nat.zero_le _)).2

/-- Some lines of a source that come one after the other are lines of it in turn. -/
theorem follows_of_mid {source : List Char} {lines : List Line} (h : lines <:+: linesOf source) :
    lines.IsChain Line.Follows := by
  obtain ⟨front, back, heq⟩ := h
  have hchain := linesOf_follows source
  rw [← heq] at hchain
  exact hchain.left_of_append.right_of_append

/-! ## Pieces of a source -/

/-- A piece of a source that starts where the rest of the source is known. -/
theorem slice_of_drop {source text rest : List Char} {start : Nat}
    (h : source.drop start = text ++ rest) (k : Nat) :
    (source.take (start + text.length)).drop (start + k) = text.drop k := by
  rw [← List.drop_drop, List.drop_take, h, Nat.add_sub_cancel_left, List.take_left' rfl]

namespace Line.In

variable {source : List Char} {line : Line} (h : line.In source)
include h

/-- A line without its break from some character on. -/
theorem slice_finish (k : Nat) :
    (source.take line.finish).drop (line.start + k) = line.text.drop k := by
  have hdrop : source.drop line.start = line.text ++ (line.break ++ source.drop line.next) := by
    rw [h.text, whole, List.append_assoc]
  rw [h.finish, slice_of_drop hdrop]

/-- A line with its break from some character on. -/
theorem slice_next {k : Nat} (hk : k ≤ line.text.length) :
    (source.take line.next).drop (line.start + k) = line.text.drop k ++ line.break := by
  rw [h.next, slice_of_drop h.text, whole, List.drop_append_of_le_length hk]

theorem finish_le : line.finish ≤ line.next := by
  rw [h.finish, h.next, whole, List.length_append]
  omega

theorem fits : line.Fits source.length := ⟨h.finish, h.finish_le, h.next_le⟩

theorem getElem? {i : Nat} (hstart : line.start ≤ i) (hfinish : i < line.finish) :
    source[i]? = line.text[i - line.start]? := by
  have hlt : i - line.start < line.text.length := by
    have hlength := h.finish
    omega
  have hdrop : (source.drop line.start)[i - line.start]? = source[i]? := by
    rw [List.getElem?_drop, Nat.add_sub_cancel' hstart]
  rw [← hdrop, h.text, whole, List.append_assoc, List.getElem?_append_left hlt]

end Line.In

/-- Lines that follow each other are one piece of their source. -/
theorem drop_start {source : List Char} {first last : Line} {lines : List Line}
    (hin : ∀ line ∈ first :: lines, line.In source)
    (hfollows : (first :: lines).IsChain Line.Follows)
    (hlast : (first :: lines).getLast? = some last) :
    source.drop first.start = (first :: lines).flatMap Line.whole ++ source.drop last.next ∧
      last.next = first.start + ((first :: lines).flatMap Line.whole).length := by
  induction lines generalizing first with
  | nil =>
    cases hlast
    have hfirst := hin first List.mem_cons_self
    rw [List.flatMap_singleton]
    exact ⟨hfirst.text, hfirst.next⟩
  | cons next lines ih =>
    obtain ⟨⟨hstart, -⟩, hfollows⟩ := List.isChain_cons_cons.mp hfollows
    have hfirst := hin first List.mem_cons_self
    obtain ⟨hdrop, hnext⟩ := ih (fun line hline => hin line (List.mem_cons_of_mem _ hline)) hfollows
      (by rwa [List.getLast?_cons_cons] at hlast)
    rw [List.flatMap_cons, List.append_assoc, ← hdrop, hstart, List.length_append]
    refine ⟨hfirst.text, ?_⟩
    rw [hnext, hstart, hfirst.next, Nat.add_assoc]

theorem indent_eq (line : Line) : line.indent = (line.text.takeWhile Text.isBlank).length := by
  have hsize := congrArg List.length (@List.takeWhile_append_dropWhile _ Text.isBlank line.text)
  rw [List.length_append] at hsize
  unfold Line.indent trimStart
  omega

/-- What is visible of a line stands behind its indentation. -/
theorem Line.In.indent_le {source : List Char} {line : Line} (h : line.In source) {i : Nat} {c : Char}
    (hstart : line.start ≤ i) (hfinish : i < line.finish) (hc : source[i]? = some c)
    (hvisible : Text.isBlank c = false) : line.start + line.indent ≤ i := by
  by_contra hlt
  rw [h.getElem? hstart hfinish] at hc
  have hshort : i - line.start < (line.text.takeWhile Text.isBlank).length := by
    rw [← indent_eq]
    omega
  rw [← @List.takeWhile_append_dropWhile _ Text.isBlank line.text, List.getElem?_append_left hshort] at hc
  have hblank := List.mem_takeWhile_imp (List.mem_of_getElem? hc)
  rw [hvisible] at hblank
  cases hblank

end HotSpec.Spec
