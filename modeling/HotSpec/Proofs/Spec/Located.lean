import HotSpec.Proofs.Spec.Positions

/-!
# Offsets in the table of lines

The lines of a source lie side by side and fill it, each with its break.  So every offset of the source,
its end among them, stands on a line, and the place that a fault at this offset shows is the number of
the line and the distance from its start.

Main results:

- Theorem `exists_ends`: the first line starts with the source, and the last line ends with it.
- Theorem `exists_line_of_le`: an offset from the start of a first line up to the end of a last one stands
  on one of the lines.
- Theorem `located_in_lines`: the places of offsets agree with the lines.
-/

namespace HotSpec.Spec

open HotSpec.Text

/-! ## The ends of a source -/

theorem linesOf_ne_nil (source : List Char) : linesOf source ≠ [] := by
  intro h
  have htexts := map_text_linesOf source
  rw [h, List.map_nil] at htexts
  exact splitOn_ne_nil _ _ htexts.symm

theorem start_of_head? {source : List Char} {first : Line}
    (h : (linesOf source).head? = some first) : first.start = 0 := by
  unfold linesOf at h
  cases hpieces : splitOn '\n' source with
  | nil => exact absurd hpieces (splitOn_ne_nil _ _)
  | cons text texts =>
    rw [hpieces, placeLines, List.head?_cons] at h
    cases h
    rfl

/-- A line has a break unless the source ends with it. -/
theorem next_of_mem {source : List Char} {line : Line} (h : line ∈ linesOf source) :
    line.next = min (line.finish + 1) source.length := by
  have hplaced (size offset : Nat) (texts : List (List Char)) :
      ∀ line ∈ placeLines size offset texts, line.next = min (line.finish + 1) size := by
    induction texts generalizing offset with
    | nil => simp [placeLines]
    | cons text texts ih => exact List.forall_mem_cons.mpr ⟨rfl, ih _⟩
  exact hplaced _ _ _ line h

theorem finish_of_getLast? {source : List Char} {last : Line}
    (h : (linesOf source).getLast? = some last) :
    last.finish = source.length ∧ last.next = source.length := by
  have hmem := List.mem_of_getLast? h
  have hnext := next_of_mem hmem
  have hle := (linesOf_in hmem).finish_le
  have hbreak : last.break = [] := by
    rw [List.getLast?_eq_getElem?] at h
    have hlength := List.length_pos_iff.mpr (linesOf_ne_nil source)
    rw [break_of_getElem? h, if_neg (by omega)]
  have hsize : last.next - last.finish = 0 := by
    simpa [Line.break] using hbreak
  omega

/-- The first line starts with the source, and the last line ends with it. -/
theorem exists_ends (source : List Char) :
    ∃ first last : Line, (linesOf source).head? = some first ∧
      (linesOf source).getLast? = some last ∧ first.start = 0 ∧ last.finish = source.length ∧
      last.next = source.length := by
  have hfirst := List.head?_eq_some_head (linesOf_ne_nil source)
  have hlast := List.getLast?_eq_some_getLast (linesOf_ne_nil source)
  exact ⟨_, _, hfirst, hlast, start_of_head? hfirst, finish_of_getLast? hlast⟩

/-! ## Lines side by side -/

/-- An offset from the start of a first line up to the end of a last one stands on one of the lines. -/
theorem exists_line_of_le {source : List Char} {lines : List Line} {first last : Line} {index : Nat}
    (hin : ∀ line ∈ lines, line.In source) (hfollows : lines.IsChain Line.Follows)
    (hfirst : lines.head? = some first) (hlast : lines.getLast? = some last)
    (hstart : first.start ≤ index) (hfinish : index ≤ last.finish) :
    ∃ (k : Nat) (line : Line), lines[k]? = some line ∧ line.start ≤ index ∧ index ≤ line.finish := by
  induction lines generalizing first with
  | nil => cases hfirst
  | cons head lines ih =>
    obtain rfl : first = head := Option.some.inj hfirst.symm
    by_cases hhere : index ≤ first.finish
    · exact ⟨0, first, rfl, hstart, hhere⟩
    · cases lines with
      | nil =>
        cases hlast
        exact absurd hfinish hhere
      | cons next lines =>
        obtain ⟨⟨hnext, hbreak⟩, hfollows⟩ := List.isChain_cons_cons.mp hfollows
        -- behind the end of a line with a break stands the next line
        have hstop : first.next = first.finish + 1 := by
          have hline := hin first List.mem_cons_self
          rw [hline.next, hline.finish, Line.whole, hbreak, List.length_append, List.length_singleton,
            Nat.add_assoc]
        rw [List.getLast?_cons_cons] at hlast
        obtain ⟨k, line, hline, hon⟩ := ih (fun line hline => hin line (List.mem_cons_of_mem _ hline))
          hfollows rfl hlast (by omega)
        exact ⟨k + 1, line, hline, hon⟩

/-- The lines with their breaks, one after the other, are the source. -/
theorem flatMap_whole_linesOf (source : List Char) : (linesOf source).flatMap Line.whole = source := by
  obtain ⟨first, last, hfirst, hlast, hstart, -, hnext⟩ := exists_ends source
  obtain ⟨lines, hlines⟩ := List.head?_eq_some_iff.mp hfirst
  have hin : ∀ line ∈ linesOf source, line.In source := fun _ => linesOf_in
  have hfollows := linesOf_follows source
  rw [hlines] at hlast hin hfollows ⊢
  have hdrop := (drop_start hin hfollows hlast).1
  rw [hstart, hnext, List.drop_zero, List.drop_length, List.append_nil] at hdrop
  exact hdrop.symm

/-! ## Places -/

/-- Every offset of a source, its end among them, has a place: the number of a line and the distance from
the start of this line, which the offset does not leave. -/
theorem exists_place (source : List Char) (file : Option String) {index : Nat}
    (h : index ≤ source.length) :
    ∃ (k column : Nat) (line : Line), (linesOf source)[k]? = some line ∧
      placeAt source file index = { Place.inFile file with line := some k, column := some column } ∧
      line.start + column = index ∧ line.start ≤ index ∧ index ≤ line.finish := by
  obtain ⟨first, last, hfirst, hlast, hstart, hstop, -⟩ := exists_ends source
  obtain ⟨k, line, hline, hle, hfinish⟩ := exists_line_of_le (fun _ => linesOf_in)
    (linesOf_follows source) hfirst hlast (hstart ▸ Nat.zero_le index) (hstop ▸ h)
  have hlength := (linesOf_in (List.mem_of_getElem? hline)).finish
  have hplace := placeAt_line hline file (j := index - line.start) (by omega)
  rw [Nat.add_sub_cancel' hle] at hplace
  exact ⟨k, index - line.start, line, hline, hplace, Nat.add_sub_cancel' hle, hle, hfinish⟩

/-- The places of offsets agree with the lines of the source.  An offset, from the first one up to the
end of the source, has the number of a line and a column that leads from the start of this line to the
offset.  The lines lie side by side from the start of the source to its end; each has the text that
stands between its ends, and the texts with their breaks are the source.  So no two offsets have the
same place. -/
theorem located_in_lines (source : List Char) (file : Option String) :
    (∀ index ≤ source.length, ∃ (k column : Nat) (line : Line), (linesOf source)[k]? = some line ∧
      placeAt source file index = { Place.inFile file with line := some k, column := some column } ∧
      line.start + column = index ∧ line.start ≤ index ∧ index ≤ line.finish) ∧
    (∃ first last : Line, (linesOf source).head? = some first ∧
      (linesOf source).getLast? = some last ∧ first.start = 0 ∧ last.next = source.length) ∧
    ((linesOf source).IsChain fun line next => line.next = next.start) ∧
    (∀ line ∈ linesOf source, line.text = (source.take line.finish).drop line.start) ∧
    (linesOf source).flatMap (fun line => (source.take line.next).drop line.start) = source ∧
    ∀ i ≤ source.length, ∀ j ≤ source.length,
      (placeAt source file i).line = (placeAt source file j).line →
      (placeAt source file i).column = (placeAt source file j).column → i = j := by
  obtain ⟨first, last, hfirst, hlast, hstart, -, hnext⟩ := exists_ends source
  refine ⟨fun index h => exists_place source file h, ⟨first, last, hfirst, hlast, hstart, hnext⟩,
    (linesOf_follows source).imp fun _ _ h => h.1.symm, fun line hline => ?_, ?_, ?_⟩
  · simpa using ((linesOf_in hline).slice_finish 0).symm
  · have hslices : (linesOf source).flatMap (fun line => (source.take line.next).drop line.start) =
        (linesOf source).flatMap Line.whole :=
      List.flatMap_congr fun line hline => by
        simpa [Line.whole] using (linesOf_in hline).slice_next (Nat.zero_le _)
    rw [hslices, flatMap_whole_linesOf]
  · intro i hi j hj hsameLine hsameColumn
    obtain ⟨k, column, line, hline, hplace, rfl, -⟩ := exists_place source file hi
    obtain ⟨k', column', line', hline', hplace', rfl, -⟩ := exists_place source file hj
    rw [hplace, hplace'] at hsameLine hsameColumn
    obtain rfl : k = k' := by simpa using hsameLine
    obtain rfl : column = column' := by simpa using hsameColumn
    rw [hline] at hline'
    cases hline'
    rfl

/-- The end of a source that ends with a break stands on a last line without any text, and a break does
not have the place of what stands behind it. -/
theorem located_in_lines_breaks :
    let source := "a\n\nb\n".toList
    5 ≤ source.length ∧
    (∃ (k column : Nat) (line : Line), (linesOf source)[k]? = some line ∧
      placeAt source none 5 = { Place.inFile none with line := some k, column := some column } ∧
      line.start + column = 5 ∧ line.start ≤ 5 ∧ 5 ≤ line.finish) ∧
    placeAt source none 5 = { Place.inFile none with line := some 3, column := some 0 } ∧
    (⟨2, 2, 3, []⟩ ∈ linesOf source ∧ [] = (source.take 2).drop 2) ∧
    ¬ ((placeAt source none 1).line = (placeAt source none 2).line ∧
      (placeAt source none 1).column = (placeAt source none 2).column) := by
  intro source
  have hsize : 5 ≤ source.length := by decide
  have hempty : ⟨2, 2, 3, []⟩ ∈ linesOf source := by decide
  obtain ⟨hplaces, -, -, htexts, -, hdistinct⟩ := located_in_lines source none
  refine ⟨hsize, hplaces 5 hsize, rfl, ⟨hempty, htexts _ hempty⟩, ?_⟩
  rintro ⟨hline, hcolumn⟩
  exact absurd (hdistinct 1 (by decide) 2 (by decide) hline hcolumn) (by decide)

end HotSpec.Spec
