import HotSpec.Proofs.Spec.Concatenation
import HotSpec.Proofs.Spec.Mapping

/-!
# Lines behind a text

The lines of a source are those of its first part, each with its break, and those of its second part,
moved behind the first one.  What is made of moved lines is moved as well: their items, and the parts
of these items.

Main definitions:

- `Line.moved`, `Item.moved`, `Part.moved`: lines, items and parts behind a number of characters.
- `brokenLines`: the lines of a text with a break behind it.
- `Itemized`: how lines are made into items.

Main results:

- Theorem `linesOf_break`: the lines of a source, cut behind a break.
- Theorem `Itemized.append`: the items of lines behind lines that close all their blocks.
- Theorem `itemized_trimLines`: the items of lines without the blank ones at both ends.
- Theorem `Cut.partsOf_moved`: the parts of a moved item.
-/

namespace HotSpec.Spec

open HotSpec.Text

/-! ## Lines -/

/-- A line with a number of characters put in front of its source. -/
def Line.moved (n : Nat) (line : Line) : Line :=
  ⟨n + line.start, n + line.finish, n + line.next, line.text⟩

section

variable (n : Nat) (line : Line)

@[simp] theorem Line.start_moved : (line.moved n).start = n + line.start := rfl

@[simp] theorem Line.finish_moved : (line.moved n).finish = n + line.finish := rfl

@[simp] theorem Line.next_moved : (line.moved n).next = n + line.next := rfl

@[simp] theorem Line.text_moved : (line.moved n).text = line.text := rfl

@[simp] theorem Line.indent_moved : (line.moved n).indent = line.indent := rfl

@[simp] theorem Line.trimmed_moved : (line.moved n).trimmed = line.trimmed := rfl

@[simp] theorem Line.starts_moved : (line.moved n).starts = line.starts := rfl

@[simp] theorem Line.textStart_moved : (line.moved n).textStart = n + line.textStart := by
  simp [Line.textStart, Nat.add_assoc]

end

theorem placeLines_moved (n size offset : Nat) (texts : List (List Char)) :
    placeLines (n + size) (n + offset) texts = (placeLines size offset texts).map (Line.moved n) := by
  induction texts generalizing offset with
  | nil => rfl
  | cons text texts ih =>
    have hnext : min (n + offset + text.length + 1) (n + size) =
        n + min (offset + text.length + 1) size := by omega
    rw [placeLines, placeLines, List.map_cons, hnext,
      show n + offset + text.length = n + (offset + text.length) by omega,
      show n + (offset + text.length) + 1 = n + (offset + text.length + 1) by omega, ih]
    rfl

/-- The number of characters of some texts, each with a break. -/
def sizeOfLines : List (List Char) → Nat
  | [] => 0
  | text :: texts => text.length + 1 + sizeOfLines texts

theorem placeLines_append (size offset : Nat) (texts texts' : List (List Char)) :
    placeLines size offset (texts ++ texts') =
      placeLines size offset texts ++ placeLines size (offset + sizeOfLines texts) texts' := by
  induction texts generalizing offset with
  | nil => rfl
  | cons text texts ih =>
    rw [List.cons_append, placeLines, placeLines, ih, sizeOfLines,
      show offset + text.length + 1 + sizeOfLines texts =
        offset + (text.length + 1 + sizeOfLines texts) by omega]
    rfl

/-- Lines with a break each do not depend on what follows them. -/
theorem placeLines_of_le {size size' offset : Nat} {texts : List (List Char)}
    (h : offset + sizeOfLines texts ≤ size) (h' : offset + sizeOfLines texts ≤ size') :
    placeLines size offset texts = placeLines size' offset texts := by
  induction texts generalizing offset with
  | nil => rfl
  | cons text texts ih =>
    rw [sizeOfLines] at h h'
    rw [placeLines, placeLines, ih (by omega) (by omega), Nat.min_eq_left (by omega),
      Nat.min_eq_left (by omega)]

theorem sizeOfLines_splitOn (text : List Char) :
    sizeOfLines (splitOn '\n' text) = text.length + 1 := by
  induction text with
  | nil => rfl
  | cons c text ih =>
    rw [splitOn]
    split
    · rw [sizeOfLines, ih, List.length_cons, List.length_nil]
      omega
    · cases hpieces : splitOn '\n' text with
      | nil => exact absurd hpieces (splitOn_ne_nil _ _)
      | cons piece pieces =>
        rw [hpieces] at ih
        simp only [sizeOfLines, List.length_cons] at ih ⊢
        omega

/-- The lines of a text with a break behind it. -/
def brokenLines (text : List Char) : List Line :=
  placeLines (text.length + 1) 0 (splitOn '\n' text)

/-- The lines of a source, cut behind a break. -/
theorem linesOf_break (front back : List Char) :
    linesOf (front ++ '\n' :: back) =
      brokenLines front ++ (linesOf back).map (Line.moved (front.length + 1)) := by
  have hlength : (front ++ '\n' :: back).length = front.length + 1 + back.length := by
    rw [List.length_append, List.length_cons]
    omega
  have hsize := sizeOfLines_splitOn front
  rw [linesOf, splitOn_append, placeLines_append, hsize, hlength, brokenLines, linesOf,
    ← placeLines_moved, Nat.zero_add, Nat.add_zero,
    @placeLines_of_le (front.length + 1 + back.length) (front.length + 1) 0 _ (by omega) (by omega)]

/-- A line with a break stands in front of the text behind it. -/
theorem brokenLines_spec {text : List Char} {line : Line} (h : line ∈ brokenLines text) :
    line.finish = line.start + line.text.length ∧ line.next = line.finish + 1 ∧
      line.next ≤ text.length + 1 := by
  have hplaced (size offset : Nat) (texts : List (List Char))
      (hsize : offset + sizeOfLines texts ≤ size) : ∀ line ∈ placeLines size offset texts,
        line.finish = line.start + line.text.length ∧ line.next = line.finish + 1 ∧
          line.next ≤ offset + sizeOfLines texts := by
    induction texts generalizing offset with
    | nil => simp [placeLines]
    | cons text texts ih =>
      rw [sizeOfLines] at hsize ⊢
      intro line hline
      rcases List.mem_cons.mp hline with rfl | hline
      · simp only [true_and]
        omega
      · obtain ⟨hfinish, hnext, hle⟩ := ih (offset + text.length + 1) (by omega) line hline
        exact ⟨hfinish, hnext, by omega⟩
  have hsize := sizeOfLines_splitOn text
  obtain ⟨hfinish, hnext, hle⟩ := hplaced _ _ _ (by omega) line h
  exact ⟨hfinish, hnext, by omega⟩

/-! ## Items -/

/-- How lines are made into items: a block from its opener to its closer, or a line that stands alone. -/
inductive Itemized : List Line → List Item → Prop
  | nil : Itemized [] []
  | block {line : Line} {lines inner rest : List Line} {label : List Char}
      {title : Option (List Char)} {items : List Item}
      (hopener : opener? (trimStart line.text) = some (label, title))
      (hcut : cutAtCloser lines = some (inner, rest)) (h : Itemized rest items) :
      Itemized (line :: lines)
        (.block (String.ofList label) (nonEmpty? title) line inner :: items)
  | line {line : Line} {lines : List Line} {items : List Item}
      (hopener : opener? (trimStart line.text) = none)
      (hcloser : isCloser (trimStart line.text) = false) (h : Itemized lines items) :
      Itemized (line :: lines) (.ofLine line :: items)

theorem itemized_of_itemsOf {lines : List Line} {items : List Item} (h : itemsOf lines = .ok items) :
    Itemized lines items := by
  fun_induction itemsOf lines generalizing items with
  | case1 =>
    cases h
    exact .nil
  | case2 => cases h
  | case3 line lines content label title hopener inner rest hcut =>
    next ih =>
    obtain ⟨items, hrest, heq⟩ := ok_of_bind h
    cases heq
    exact .block hopener hcut (ih hrest)
  | case4 => cases h
  | case5 line lines content hopener hcloser =>
    next ih =>
    obtain ⟨items, hrest, heq⟩ := ok_of_bind h
    have hline := Itemized.line hopener (by simpa using hcloser) (ih hrest)
    unfold Item.ofLine at hline
    cases hform : condition? (trimStart line.text) with
    | none =>
      simp only [content, hform] at heq hline
      cases heq
      exact hline
    | some condition =>
      simp only [content, hform] at heq hline
      cases heq
      exact hline

theorem Itemized.itemsOf {lines : List Line} {items : List Item} (h : Itemized lines items) :
    itemsOf lines = .ok items := by
  induction h with
  | nil => rw [Spec.itemsOf]
  | block hopener hcut _ ih =>
    rw [itemsOf_of_block hopener hcut, ih]
    rfl
  | line hopener hcloser _ ih =>
    rw [itemsOf_of_line hopener hcloser, ih]
    rfl

theorem cutAtCloser_append {lines inner rest : List Line} (h : cutAtCloser lines = some (inner, rest))
    (more : List Line) : cutAtCloser (lines ++ more) = some (inner, rest ++ more) := by
  induction lines generalizing inner with
  | nil => cases h
  | cons line lines ih =>
    rw [cutAtCloser] at h
    rw [List.cons_append, cutAtCloser]
    split at h
    · next hcloser =>
      obtain ⟨rfl, rfl⟩ := Prod.mk.inj (Option.some.inj h)
      rw [if_pos hcloser]
    · next hcloser =>
      obtain ⟨⟨inner', rest'⟩, hcut, heq⟩ := Option.map_eq_some_iff.mp h
      obtain ⟨rfl, rfl⟩ := Prod.mk.inj heq
      rw [if_neg hcloser, ih hcut]
      rfl

/-- Behind lines that close all their blocks, the items of more lines follow. -/
theorem Itemized.append {lines more : List Line} {items items' : List Item}
    (h : Itemized lines items) (h' : Itemized more items') :
    Itemized (lines ++ more) (items ++ items') := by
  induction h with
  | nil => exact h'
  | block hopener hcut _ ih => exact .block hopener (cutAtCloser_append hcut more) ih
  | line hopener hcloser _ ih => exact .line hopener hcloser ih

/-- Whether lines behind such lines have items is up to them. -/
theorem Itemized.of_append {lines more : List Line} {items items' : List Item}
    (h : Itemized lines items) (hall : Itemized (lines ++ more) items') :
    ∃ rest, items' = items ++ rest ∧ Itemized more rest := by
  induction h generalizing items' with
  | nil => exact ⟨items', rfl, hall⟩
  | block hopener hcut _ ih =>
    cases hall with
    | block hopener' hcut' hrest =>
      obtain ⟨rfl, rfl⟩ := Prod.mk.inj (Option.some.inj (hopener.symm.trans hopener'))
      obtain ⟨rfl, rfl⟩ :=
        Prod.mk.inj (Option.some.inj ((cutAtCloser_append hcut more).symm.trans hcut'))
      obtain ⟨rest, rfl, hmore⟩ := ih hrest
      exact ⟨rest, rfl, hmore⟩
    | line hopener' => cases hopener.symm.trans hopener'
  | line hopener hcloser _ ih =>
    cases hall with
    | block hopener' => cases hopener.symm.trans hopener'
    | line _ _ hrest =>
      obtain ⟨rest, rfl, hmore⟩ := ih hrest
      exact ⟨rest, rfl, hmore⟩

/-- Blank lines stand alone, without a label. -/
theorem itemized_of_blank {lines : List Line} (h : ∀ line ∈ lines, line.isBlank = true) :
    Itemized lines (lines.map .plain) := by
  induction lines with
  | nil => exact .nil
  | cons line lines ih =>
    have hnil : trimStart line.text = [] := trimStart_of_blank (h line List.mem_cons_self)
    have hplain : Item.ofLine line = .plain line := by
      rw [Item.ofLine, hnil]
      rfl
    have hopener : opener? (trimStart line.text) = none := by
      rw [hnil]
      rfl
    have hcloser : isCloser (trimStart line.text) = false := by
      rw [hnil]
      rfl
    have hline := Itemized.line hopener hcloser (ih fun line hline => h line (List.mem_cons_of_mem _ hline))
    rwa [hplain] at hline

/-- The items of lines are those of the lines without the blank ones at both ends, with the blank ones
around them. -/
theorem itemized_trimLines {lines : List Line} {items : List Item}
    (h : Itemized (trimLines lines) items) : ∃ front back,
      lines = front ++ (trimLines lines ++ back) ∧ (∀ line ∈ front ++ back, line.isBlank = true) ∧
        Itemized lines (front.map .plain ++ (items ++ back.map .plain)) := by
  obtain ⟨front, back, heq, hfront, hback⟩ := append_trimLines lines
  refine ⟨front, back, heq, List.forall_mem_append.mpr ⟨hfront, hback⟩, ?_⟩
  have hall := (itemized_of_blank hfront).append (h.append (itemized_of_blank hback))
  rwa [← heq] at hall

/-- An item with a number of characters put in front of its source. -/
def Item.moved (n : Nat) : Item → Item
  | .plain line => .plain (line.moved n)
  | .condition label marker line => .condition label marker (line.moved n)
  | .block label title opener inner =>
    .block label title (opener.moved n) (inner.map (Line.moved n))

@[simp] theorem Item.label?_moved (n : Nat) (item : Item) : (item.moved n).label? = item.label? := by
  cases item <;> rfl

theorem filterMap_label?_moved (n : Nat) (items : List Item) :
    (items.map (Item.moved n)).filterMap Item.label? = items.filterMap Item.label? := by
  rw [List.filterMap_map]
  exact List.filterMap_congr fun item _ => item.label?_moved n

theorem cutAtCloser_moved (n : Nat) (lines : List Line) :
    cutAtCloser (lines.map (Line.moved n)) = (cutAtCloser lines).map fun cut =>
      (cut.1.map (Line.moved n), cut.2.map (Line.moved n)) := by
  induction lines with
  | nil => rfl
  | cons line lines ih =>
    rw [List.map_cons, cutAtCloser, cutAtCloser, ih, Line.trimmed_moved]
    split
    · rfl
    · rw [Option.map_map, Option.map_map]
      rfl

theorem Item.ofLine_moved (n : Nat) (line : Line) :
    Item.ofLine (line.moved n) = (Item.ofLine line).moved n := by
  unfold Item.ofLine
  rw [Line.text_moved]
  cases condition? (trimStart line.text) <;> rfl

/-- Moved lines have moved items. -/
theorem Itemized.moved {lines : List Line} {items : List Item} (h : Itemized lines items) (n : Nat) :
    Itemized (lines.map (Line.moved n)) (items.map (Item.moved n)) := by
  induction h with
  | nil => exact .nil
  | block hopener hcut _ ih =>
    refine .block hopener ?_ ih
    rw [cutAtCloser_moved, hcut]
    rfl
  | line hopener hcloser _ ih =>
    rw [List.map_cons, List.map_cons, ← Item.ofLine_moved]
    exact .line hopener hcloser ih

/-! ## Parts -/

/-- A part with a number of characters put in front of its source. -/
def Part.moved (n : Nat) (p : Part) : Part := { p with start := n + p.start, stop := n + p.stop }

/-- What stands in front of an offset has the same parts in all sources that start alike. -/
theorem Cut.partsOf_of_take {cut cut' : Cut} {k : Nat} {item : Item}
    (hcut : cut'.expectations = cut.expectations) (hindent : cut'.indent = cut.indent)
    (hend : ∀ line, cut'.endOf line = cut.endOf line)
    (hsource : cut'.source.take k = cut.source.take k)
    (hitem : ∀ line ∈ item.lines, line.finish ≤ line.next ∧ line.next ≤ k) :
    cut'.partsOf item = cut.partsOf item := by
  have hpart (stop start : Nat) (hstop : stop ≤ k) (label : Option String) (block : Bool)
      (title : Option String) :
      cut'.part start stop label block title = cut.part start stop label block title := by
    have htake : cut'.source.take stop = cut.source.take stop := by
      rw [← Nat.min_eq_left hstop, ← List.take_take, ← List.take_take, hsource]
    simp only [Cut.part, htake]
  have hle (line : Line) (hline : line ∈ item.lines) : cut.endOf line ≤ k := by
    obtain ⟨hfinish, hnext⟩ := hitem line hline
    unfold Cut.endOf
    split <;> omega
  cases item with
  | plain line =>
    have hline := hle line (List.mem_singleton_self _)
    simp only [Cut.partsOf, hend, Cut.startOf, hindent, hpart _ _ hline]
  | condition label marker line =>
    have hline := hle line (List.mem_singleton_self _)
    simp only [Cut.partsOf, hend, hpart _ _ hline]
  | block label title opener inner =>
    cases hmode : cut.expectations with
    | false =>
      simp only [Cut.partsOf, hcut, hmode, Bool.false_eq_true, if_false]
      refine List.map_congr_left fun line hline => ?_
      have hline := hle line (List.mem_cons_of_mem _ hline)
      simp only [hend, Cut.startOf, hindent, hpart _ _ hline]
    | true =>
      cases inner with
      | nil =>
        have hopener := (hitem opener List.mem_cons_self).2
        simp only [Cut.partsOf, hcut, hmode, if_true, hpart _ _ hopener]
      | cons first rest =>
        have hlast : (first :: rest).getLastD first ∈ first :: rest := by
          rw [List.getLastD_eq_getLast?, List.getLast?_eq_some_getLast (List.cons_ne_nil _ _)]
          exact List.getLast_mem _
        have hline := hle _ (List.mem_cons_of_mem opener hlast)
        simp only [Cut.partsOf, hcut, hmode, if_true, hend, Cut.startOf, hindent, hpart _ _ hline]

/-- What stands behind an offset has moved parts where more text stands in front of it. -/
theorem Cut.partsOf_moved {cut cut' : Cut} {n k : Nat} {item : Item} (hcut : cut.expectations = true)
    (hcut' : cut'.expectations = true) (hindent : cut'.indent = cut.indent)
    (hsource : cut'.source.drop (n + k) = cut.source.drop k)
    (hitem : ∀ line ∈ item.lines, k ≤ line.start ∧ line.start ≤ line.finish ∧ line.finish ≤ line.next) :
    cut'.partsOf (item.moved n) = (cut.partsOf item).map (Part.moved n) := by
  have hend (line : Line) : cut.endOf line = line.next := by simp [Cut.endOf, hcut]
  have hend' (line : Line) : cut'.endOf line = line.next := by simp [Cut.endOf, hcut']
  have hpart (start stop : Nat) (hstart : k ≤ start) (label : Option String) (block : Bool)
      (title : Option String) : cut'.part (n + start) (n + stop) label block title =
        (cut.part start stop label block title).moved n := by
    have hdrop : cut'.source.drop (n + start) = cut.source.drop start := by
      rw [show n + start = n + k + (start - k) by omega, ← List.drop_drop, hsource, List.drop_drop,
        Nat.add_sub_cancel' hstart]
    have htext : (cut'.source.take (n + stop)).drop (n + start) =
        (cut.source.take stop).drop start := by
      rw [List.drop_take, List.drop_take, hdrop, Nat.add_sub_add_left]
    simp only [Cut.part, Part.moved, htext]
  cases item with
  | plain line =>
    obtain ⟨hk, -, -⟩ := hitem line (List.mem_singleton_self _)
    have hle : k ≤ line.start + min cut.indent line.indent := by omega
    simp only [Item.moved, Cut.partsOf, hend, hend', Cut.startOf, hindent, Line.start_moved,
      Line.next_moved, Line.indent_moved, Nat.add_assoc, hpart _ _ hle, List.map_cons, List.map_nil]
  | condition label marker line =>
    obtain ⟨hk, hfinish, -⟩ := hitem line (List.mem_singleton_self _)
    have hstart : min (n + line.textStart + marker) (n + line.finish) =
        n + min (line.textStart + marker) line.finish := by omega
    have hle : k ≤ min (line.textStart + marker) line.finish := by
      rw [Line.textStart]
      omega
    simp only [Item.moved, Cut.partsOf, hend, hend', Line.textStart_moved, Line.finish_moved,
      Line.next_moved, hstart, hpart _ _ hle, List.map_cons, List.map_nil]
  | block label title opener inner =>
    cases inner with
    | nil =>
      obtain ⟨hk, hfinish, hnext⟩ := hitem opener List.mem_cons_self
      simp only [Item.moved, Cut.partsOf, hcut, hcut', if_true, List.map_nil, Line.next_moved,
        hpart _ _ (show k ≤ opener.next by omega), List.map_cons]
    | cons first rest =>
      obtain ⟨hk, -, -⟩ := hitem first (List.mem_cons_of_mem _ List.mem_cons_self)
      have hle : k ≤ first.start + min cut.indent first.indent := by omega
      have hlast : ((first.moved n) :: rest.map (Line.moved n)).getLastD (first.moved n) =
          ((first :: rest).getLastD first).moved n := by
        rw [← List.map_cons, List.getLastD_eq_getLast?, List.getLastD_eq_getLast?, List.getLast?_map]
        cases (first :: rest).getLast? <;> rfl
      simp only [Item.moved, Cut.partsOf, hcut, hcut', if_true, List.map_cons, hend, hend', hlast,
        Cut.startOf, hindent, Line.start_moved, Line.next_moved, Line.indent_moved, Nat.add_assoc,
        hpart _ _ hle, List.map_nil]

/-- The parts of moved items, each of them behind the offset. -/
theorem partsOf_map_moved {source source' : List Char} {n k : Nat} (indent : Nat) {items : List Item}
    (hsource : source'.drop (n + k) = source.drop k)
    (hitems : ∀ item ∈ items, ∀ line ∈ item.lines,
      k ≤ line.start ∧ line.start ≤ line.finish ∧ line.finish ≤ line.next) :
    (items.map (Item.moved n)).flatMap (Cut.partsOf ⟨source', indent, true, 0⟩) =
      (items.flatMap (Cut.partsOf ⟨source, indent, true, 0⟩)).map (Part.moved n) := by
  rw [List.flatMap_map, List.map_flatMap]
  exact List.flatMap_congr fun item hitem => Cut.partsOf_moved rfl rfl rfl hsource (hitems item hitem)

/-! ## Indentation -/

/-- Numbers of which none is smaller than all others have the smallest number of the others. -/
theorem min?_of_bounded {l l' : List Nat} (hsub : l ⊆ l') (hbounded : ∀ n ∈ l', ∃ m ∈ l, m ≤ n) :
    l'.min? = l.min? := by
  cases hmin : l.min? with
  | none =>
    rw [List.min?_eq_none_iff] at hmin ⊢
    refine List.eq_nil_iff_forall_not_mem.mpr fun n hn => ?_
    obtain ⟨m, hm, -⟩ := hbounded n hn
    rw [hmin] at hm
    cases hm
  | some m =>
    rw [List.min?_eq_some_iff] at hmin ⊢
    refine ⟨hsub hmin.1, fun n hn => ?_⟩
    obtain ⟨i, hi, hle⟩ := hbounded n hn
    exact (hmin.2 i hi).trans hle

/-- Lines that are blank, or indented at least as some other line with text, leave the common indentation
as it is. -/
theorem commonIndent_insert {above more below : List Line}
    (h : ∀ line ∈ more, line.isBlank = true ∨
      ∃ other ∈ above ++ below, other.isBlank = false ∧ other.indent ≤ line.indent) :
    commonIndent (above ++ more ++ below) = commonIndent (above ++ below) := by
  rw [commonIndent, commonIndent, @min?_of_bounded
    (((above ++ below).filter fun line => !line.isBlank).map Line.indent)]
  · refine List.map_subset _ fun line hline => ?_
    obtain ⟨hline, hvisible⟩ := List.mem_filter.mp hline
    refine List.mem_filter.mpr ⟨?_, hvisible⟩
    rcases List.mem_append.mp hline with hline | hline
    · exact List.mem_append_left _ (List.mem_append_left _ hline)
    · exact List.mem_append_right _ hline
  · intro n hn
    obtain ⟨line, hline, rfl⟩ := List.mem_map.mp hn
    obtain ⟨hline, hvisible⟩ := List.mem_filter.mp hline
    have hvisible : line.isBlank = false := by simpa using hvisible
    have hself (hmem : line ∈ above ++ below) :
        ∃ m ∈ ((above ++ below).filter fun line => !line.isBlank).map Line.indent, m ≤ line.indent :=
      ⟨_, List.mem_map_of_mem (List.mem_filter.mpr ⟨hmem, by simp [hvisible]⟩), Nat.le_refl _⟩
    rcases List.mem_append.mp hline with hline | hline
    · rcases List.mem_append.mp hline with hline | hline
      · exact hself (List.mem_append_left _ hline)
      · rcases h line hline with hblank | ⟨other, hother, hshown, hle⟩
        · rw [hvisible] at hblank
          cases hblank
        · exact ⟨_, List.mem_map_of_mem (List.mem_filter.mpr ⟨hother, by simp [hshown]⟩), hle⟩
    · exact hself (List.mem_append_right _ hline)

/-- Blank lines have no part in the common indentation. -/
theorem commonIndent_trimLines (lines : List Line) :
    commonIndent (trimLines lines) = commonIndent lines := by
  obtain ⟨front, back, heq, hfront, hback⟩ := append_trimLines lines
  have hnone (blanks : List Line) (h : ∀ line ∈ blanks, line.isBlank = true) :
      blanks.filter (fun line => !line.isBlank) = [] :=
    List.filter_eq_nil_iff.mpr fun line hline => by simp [h line hline]
  have hsame : (lines.filter fun line => !line.isBlank) =
      (trimLines lines).filter fun line => !line.isBlank := by
    rw [heq, List.filter_append, List.filter_append, hnone front hfront, hnone back hback,
      List.nil_append, List.append_nil, ← heq]
  rw [commonIndent, commonIndent, hsame]

theorem commonIndent_moved (n : Nat) (above below : List Line) :
    commonIndent (above ++ below.map (Line.moved n)) = commonIndent (above ++ below) := by
  have hbelow : ((below.map (Line.moved n)).filter fun line => !line.isBlank).map Line.indent =
      (below.filter fun line => !line.isBlank).map Line.indent := by
    rw [List.filter_map, List.map_map]
    rfl
  rw [commonIndent, commonIndent, List.filter_append, List.filter_append, List.map_append,
    List.map_append, hbelow]

end HotSpec.Spec
