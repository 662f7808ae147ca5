import HotSpec.Html.Normal
import Mathlib

/-!
# Runs of one character

The normal form joins runs twice: every run of line breaks becomes one space, and every run of
spaces becomes one space.  Both are one pass with another pair of characters, and what is said of
the pass here holds of both.

Main definition:

- `joinRuns`: every run of one character as one other character.

Main results:

- Theorems `joinLines_eq`, `joinSpaces_eq`: the two passes of the normal form are such passes.
- Theorem `joinRuns_append`: a cut that does not go through a run is a cut of the result.
- Theorems `mem_joinRuns`, `mem_of_mem_joinRuns`: which characters stay.
-/

namespace HotSpec.Html

variable {x y c : Char} {text rest front : List Char}

/-- Every run of one character as one other character. -/
def joinRuns (x y : Char) : List Char → List Char
  | [] => []
  | c :: rest =>
    if c = x then
      if rest.head? = some x then joinRuns x y rest else y :: joinRuns x y rest
    else c :: joinRuns x y rest

/-! ## Equations -/

@[simp]
theorem joinRuns_nil (x y : Char) : joinRuns x y [] = [] :=
  rfl

theorem joinRuns_more (x y : Char) (rest : List Char) :
    joinRuns x y (x :: x :: rest) = joinRuns x y (x :: rest) := by
  rw [joinRuns, if_pos rfl, if_pos (by simp)]

theorem joinRuns_last (h : rest.head? ≠ some x) :
    joinRuns x y (x :: rest) = y :: joinRuns x y rest := by
  rw [joinRuns, if_pos rfl, if_neg h]

theorem joinRuns_of_ne (hc : c ≠ x) (rest : List Char) :
    joinRuns x y (c :: rest) = c :: joinRuns x y rest := by
  rw [joinRuns, if_neg hc]

/-- Joining lines is joining runs of line breaks. -/
theorem joinLines_eq (text : List Char) : joinLines text = joinRuns '\n' ' ' text := by
  fun_induction joinLines text with
  | case1 => rfl
  | case2 rest ih => rw [ih, joinRuns_more]
  | case3 rest hlast ih =>
    rw [ih, joinRuns_last]
    intro hmore
    obtain ⟨more, rfl⟩ := List.head?_eq_some_iff.mp hmore
    exact hlast more rfl
  | case4 c rest _ hc ih => rw [ih, joinRuns_of_ne hc]

/-- Joining spaces is joining runs of spaces. -/
theorem joinSpaces_eq (text : List Char) : joinSpaces text = joinRuns ' ' ' ' text := by
  fun_induction joinSpaces text with
  | case1 => rfl
  | case2 rest ih => rw [ih, joinRuns_more]
  | case3 c rest hkeep ih =>
    by_cases hc : c = ' '
    · subst hc
      rw [ih, joinRuns_last]
      intro hmore
      obtain ⟨more, rfl⟩ := List.head?_eq_some_iff.mp hmore
      exact hkeep more rfl rfl
    · rw [ih, joinRuns_of_ne hc]

/-! ## First and last characters -/

theorem head?_joinRuns (x y : Char) (text : List Char) :
    (joinRuns x y text).head? = text.head?.map fun c => if c = x then y else c := by
  fun_induction joinRuns x y text with
  | case1 => rfl
  | case2 rest hmore ih => rw [ih, hmore, List.head?_cons]
  | case3 rest hmore ih => simp
  | case4 c rest hc ih => simp [hc]

theorem head?_joinSpaces (text : List Char) : (joinSpaces text).head? = text.head? := by
  rw [joinSpaces_eq, head?_joinRuns]
  cases text with
  | nil => rfl
  | cons c rest => by_cases hc : c = ' ' <;> simp [hc]

theorem getLast?_joinRuns (x y : Char) (text : List Char) :
    (joinRuns x y text).getLast? = text.getLast?.map fun c => if c = x then y else c := by
  fun_induction joinRuns x y text with
  | case1 => rfl
  | case2 rest hmore ih =>
    obtain ⟨more, rfl⟩ := List.head?_eq_some_iff.mp hmore
    rw [ih, List.getLast?_cons_cons]
  | case3 rest hmore ih =>
    rw [List.getLast?_cons, ih, List.getLast?_cons]
    cases rest.getLast? <;> simp
  | case4 c rest hc ih =>
    rw [List.getLast?_cons, ih, List.getLast?_cons]
    cases rest.getLast? <;> simp [hc]

theorem getLast?_joinSpaces (text : List Char) : (joinSpaces text).getLast? = text.getLast? := by
  rw [joinSpaces_eq, getLast?_joinRuns]
  cases text.getLast? with
  | none => rfl
  | some c => by_cases hc : c = ' ' <;> simp [hc]

/-! ## Characters -/

/-- A character that is not joined stays. -/
theorem mem_joinRuns (hc : c ∈ text) (hne : c ≠ x) : c ∈ joinRuns x y text := by
  fun_induction joinRuns x y text with
  | case1 => exact hc
  | case2 rest hmore ih => exact ih (List.mem_of_ne_of_mem hne hc)
  | case3 rest hmore ih => exact List.mem_cons_of_mem _ (ih (List.mem_of_ne_of_mem hne hc))
  | case4 d rest hd ih => exact List.mem_cons.mpr ((List.mem_cons.mp hc).imp_right ih)

/-- What stands in the result stood in the text, or is there for a run. -/
theorem mem_of_mem_joinRuns (h : c ∈ joinRuns x y text) : c ∈ text ∧ c ≠ x ∨ c = y ∧ x ∈ text := by
  fun_induction joinRuns x y text with
  | case1 => cases h
  | case2 rest hmore ih =>
    exact (ih h).imp (And.imp_left (List.mem_cons_of_mem x)) (And.imp_right (List.mem_cons_of_mem x))
  | case3 rest hmore ih =>
    rcases List.mem_cons.mp h with rfl | h
    · exact .inr ⟨rfl, List.mem_cons_self⟩
    · exact (ih h).imp (And.imp_left (List.mem_cons_of_mem x))
        (And.imp_right (List.mem_cons_of_mem x))
  | case4 d rest hd ih =>
    rcases List.mem_cons.mp h with rfl | h
    · exact .inl ⟨List.mem_cons_self, hd⟩
    · exact (ih h).imp (And.imp_left (List.mem_cons_of_mem d))
        (And.imp_right (List.mem_cons_of_mem d))

theorem not_mem_joinLines (text : List Char) : '\n' ∉ joinLines text := by
  rw [joinLines_eq]
  intro h
  rcases mem_of_mem_joinRuns h with ⟨-, hne⟩ | ⟨heq, -⟩
  · exact hne rfl
  · exact absurd heq (by decide)

theorem mem_of_mem_joinSpaces (h : c ∈ joinSpaces text) : c ∈ text := by
  rw [joinSpaces_eq] at h
  rcases mem_of_mem_joinRuns h with ⟨hmem, -⟩ | ⟨rfl, hmem⟩ <;> exact hmem

/-- Characters that have nothing to do with the runs stay, as many as they are. -/
theorem count_joinRuns (hx : c ≠ x) (hy : c ≠ y) (text : List Char) :
    (joinRuns x y text).count c = text.count c := by
  fun_induction joinRuns x y text with
  | case1 => rfl
  | case2 rest hmore ih => rw [ih, List.count_cons_of_ne (Ne.symm hx)]
  | case3 rest hmore ih =>
    rw [List.count_cons_of_ne (Ne.symm hy), List.count_cons_of_ne (Ne.symm hx), ih]
  | case4 d rest hd ih => rw [List.count_cons, List.count_cons, ih]

/-- A text without the character has no runs to join. -/
theorem joinRuns_eq_self (h : x ∉ text) : joinRuns x y text = text := by
  induction text with
  | nil => rfl
  | cons c rest ih =>
    rw [List.mem_cons, not_or] at h
    rw [joinRuns_of_ne (Ne.symm h.1), ih h.2]

/-! ## Cuts -/

/-- A cut that does not go through a run is a cut of the result. -/
theorem joinRuns_append (h : front.getLast? = some x → rest.head? ≠ some x) :
    joinRuns x y (front ++ rest) = joinRuns x y front ++ joinRuns x y rest := by
  fun_induction joinRuns x y front with
  | case1 => rfl
  | case2 front hmore ih =>
    obtain ⟨more, rfl⟩ := List.head?_eq_some_iff.mp hmore
    rw [List.cons_append, List.cons_append, joinRuns_more]
    exact ih (by simpa using h)
  | case3 front hmore ih =>
    cases front with
    | nil => exact joinRuns_last (h rfl)
    | cons d front =>
      rw [List.cons_append, joinRuns_last (by simpa using hmore), ih (by simpa using h),
        List.cons_append]
  | case4 c front hc ih =>
    rw [List.cons_append, joinRuns_of_ne hc, List.cons_append]
    cases front with
    | nil => rfl
    | cons d front => rw [ih (by simpa using h)]

end HotSpec.Html
