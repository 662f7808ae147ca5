import HotSpec.Proofs.Spec.Lines

/-!
# Lines and columns

The place of an offset of a source is the number of the line that it stands on, and how far it is from the
start of this line.

Main results:

- Theorem `placeAt_line`: the place of an offset on a line.
- Theorem `break_of_getElem?`: all lines of a source but the last one have a break.
-/

namespace HotSpec.Spec

open HotSpec.Text

/-- The lines of a source are the pieces between its breaks. -/
theorem map_text_linesOf (source : List Char) :
    (linesOf source).map Line.text = splitOn '\n' source := by
  have hplaced (size offset : Nat) (texts : List (List Char)) :
      (placeLines size offset texts).map Line.text = texts := by
    induction texts generalizing offset with
    | nil => rfl
    | cons text texts ih => rw [placeLines, List.map_cons, ih]
  exact hplaced _ _ _

/-- The pieces between separators hold none. -/
theorem notMem_of_splitOn {separator : Char} {text piece : List Char}
    (h : piece ∈ splitOn separator text) : separator ∉ piece := by
  induction text generalizing piece with
  | nil => simp_all [splitOn]
  | cons c text ih =>
    rw [splitOn] at h
    split at h
    · rcases List.mem_cons.mp h with rfl | h
      · simp
      · exact ih h
    · next hne =>
      cases hpieces : splitOn separator text with
      | nil => exact absurd hpieces (splitOn_ne_nil _ _)
      | cons first pieces =>
        rw [hpieces] at h ih
        rcases List.mem_cons.mp h with rfl | h
        · simp [Ne.symm hne, ih List.mem_cons_self]
        · exact ih (List.mem_cons_of_mem _ h)

/-! ## Behind a break -/

section Behind

variable (front rest : List Char) {text : List Char}

/-- The number of the line of an offset that no break separates from the text in front of it. -/
theorem lineNumber_append (htext : '\n' ∉ text) {j : Nat} (hj : j ≤ text.length) :
    lineNumber (front ++ (text ++ rest)) (front.length + j) = front.count '\n' := by
  have hbreak : '\n' ∉ text.take j := fun hmem => htext (List.mem_of_mem_take hmem)
  rw [lineNumber, before, List.take_length_add_append, List.take_append_of_le_length hj,
    List.count_append, List.count_eq_zero.mpr hbreak, Nat.add_zero]

/-- A line starts behind the last break in front of it. -/
theorem lineStart_append (hfront : front.reverse.takeWhile (· != '\n') = []) (htext : '\n' ∉ text) {j : Nat}
    (hj : j ≤ text.length) :
    lineStart (front ++ (text ++ rest)) (front.length + j) = front.length := by
  have hbefore : before (front ++ (text ++ rest)) (front.length + j) = front ++ text.take j := by
    rw [before, List.take_length_add_append, List.take_append_of_le_length hj]
  have hline : ∀ c ∈ (text.take j).reverse, (c != '\n') = true := by
    intro c hc
    have hmem := List.mem_of_mem_take (List.mem_reverse.mp hc)
    simp only [bne_iff_ne, ne_eq]
    rintro rfl
    exact htext hmem
  simp only [lineStart, hbefore, List.reverse_append, List.takeWhile_append_of_pos hline, hfront]
  simp [Nat.min_eq_left hj]

end Behind

/-- The offsets on a line among those that stand behind some text, which ends in a break if it is not empty. -/
theorem placeLines_place {source front : List Char} {texts : List (List Char)} {k : Nat} {line : Line}
    (hsource : source = front ++ (texts.intersperse ['\n']).flatten)
    (hfront : front.reverse.takeWhile (· != '\n') = []) (htexts : ∀ text ∈ texts, '\n' ∉ text)
    (hline : (placeLines source.length front.length texts)[k]? = some line) {j : Nat}
    (hj : j ≤ line.text.length) :
    lineNumber source (line.start + j) = front.count '\n' + k ∧
      lineStart source (line.start + j) = line.start ∧
      line.break = if k + 1 < texts.length then ['\n'] else [] := by
  induction texts generalizing front k with
  | nil => simp [placeLines] at hline
  | cons text texts ih =>
    have htext := htexts text List.mem_cons_self
    cases k with
    | zero =>
      rw [placeLines, List.getElem?_cons_zero] at hline
      cases hline
      obtain ⟨rest, hrest⟩ : ∃ rest, ((text :: texts).intersperse ['\n']).flatten = text ++ rest := by
        cases texts with
        | nil => exact ⟨[], by simp⟩
        | cons next texts => exact ⟨_, by rw [List.intersperse_cons_cons, List.flatten_cons]⟩
      have hstart := lineStart_append front rest hfront htext hj
      have hnumber := lineNumber_append front rest htext hj
      rw [hrest] at hsource
      rw [hsource]
      refine ⟨hnumber, hstart, ?_⟩
      have hsize := congrArg List.length hrest
      cases texts with
      | nil =>
        simp only [List.intersperse_singleton, List.flatten_singleton, List.length_append] at hsize
        simp [Line.break, show rest = [] by simpa using hsize]
      | cons next texts =>
        simp only [List.intersperse_cons_cons, List.flatten_cons, List.length_append,
          List.length_singleton] at hsize
        simp only [Line.break, List.length_append, List.length_cons]
        rw [if_pos (by omega), show min (front.length + text.length + 1)
          (front.length + (text.length + rest.length)) = front.length + text.length + 1 by omega]
        simp
    | succ k =>
      rw [placeLines, List.getElem?_cons_succ] at hline
      cases texts with
      | nil => simp [placeLines] at hline
      | cons next texts =>
        have hplaced := @ih (front ++ text ++ ['\n']) k
          (by rw [hsource, List.intersperse_cons_cons]; simp) (by simp)
          (fun text htext => htexts text (List.mem_cons_of_mem _ htext))
          (by simpa [Nat.add_assoc] using hline)
        have hcount : (front ++ text ++ ['\n']).count '\n' = front.count '\n' + 1 := by
          simp [List.count_eq_zero.mpr htext]
        rw [hcount] at hplaced
        refine ⟨by rw [hplaced.1]; omega, hplaced.2.1, ?_⟩
        rw [hplaced.2.2]
        simp

section Lines

variable {source : List Char} {k : Nat} {line : Line} (h : (linesOf source)[k]? = some line)
include h

theorem linesOf_place {j : Nat} (hj : j ≤ line.text.length) :
    lineNumber source (line.start + j) = k ∧ lineStart source (line.start + j) = line.start ∧
      line.break = if k + 1 < (splitOn '\n' source).length then ['\n'] else [] := by
  have hsource : source = [] ++ ((splitOn '\n' source).intersperse ['\n']).flatten := by
    rw [splitOn_flatten, List.nil_append]
  have hplaced := placeLines_place hsource rfl (fun text => notMem_of_splitOn) h hj
  simpa using hplaced

/-- The place of an offset on a line: the number of the line, and how far the offset is from its start. -/
theorem placeAt_line (file : Option String) {j : Nat} (hj : j ≤ line.text.length) :
    placeAt source file (line.start + j) =
      { Place.inFile file with line := some k, column := some j } := by
  obtain ⟨hnumber, hstart, -⟩ := linesOf_place h hj
  have hcolumn : ((line.start + j : Nat) : Int) - line.start = j := by omega
  rw [placeAt, hnumber, hstart, hcolumn]

/-- The place of what stands on a line behind its indentation. -/
theorem placeAt_textStart (file : Option String) : placeAt source file line.textStart =
    { Place.inFile file with line := some k, column := some line.indent } := by
  apply placeAt_line h file
  rw [Line.indent]
  omega

/-- All lines of a source but the last one have a break. -/
theorem break_of_getElem? :
    line.break = if k + 1 < (linesOf source).length then ['\n'] else [] := by
  rw [← List.length_map (f := Line.text), map_text_linesOf]
  exact (linesOf_place h (Nat.zero_le _)).2.2

end Lines

end HotSpec.Spec
