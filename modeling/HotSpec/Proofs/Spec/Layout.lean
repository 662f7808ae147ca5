import HotSpec.Spec.Section
import Mathlib

/-!
# Where the parts of a section stand

The lines of a source follow each other, and so do the parts of the expectations: each part is a piece
of the source, and no two of them overlap.

Main definitions:

- `Line.Fits`: a line that stands in a source of some size.
- `Item.lines`: the lines of an item.
- `Part.Laid`, `Section.Laid`: a part of a source, and a section whose parts stand one after the other.
- `Part.Covers`: whether a part holds the character at an offset.

Main results:

- Theorem `linesOf_spec`: the lines of a source follow each other.
- Theorem `itemsOf_lines`: the items of a section use each line at most once, in order.
- Theorem `Cut.spans_flatMap`: the parts of items lie within their items, one after the other.
- Theorem `laid_outline`: the parts of the expectations of a spec.
-/

namespace HotSpec.Spec

open HotSpec.Text

/-- A result that comes after another one comes from it. -/
theorem ok_of_bind {ε α β : Type} {x : Except ε α} {f : α → Except ε β} {b : β}
    (h : x >>= f = .ok b) : ∃ a, x = .ok a ∧ f a = .ok b := by
  cases x with
  | error e => cases h
  | ok a => exact ⟨a, rfl, h⟩

/-! ## Lines -/

/-- A line of a source of the given size. -/
structure Line.Fits (size : Nat) (line : Line) : Prop where
  finish : line.finish = line.start + line.text.length
  next : line.finish ≤ line.next
  size : line.next ≤ size

theorem placeLines_spec {size offset : Nat} {texts : List (List Char)}
    (hsize : offset + (texts.intersperse ['\n']).flatten.length ≤ size) :
    (∀ line ∈ placeLines size offset texts, line.Fits size ∧ offset ≤ line.start) ∧
      (placeLines size offset texts).Pairwise fun a b => a.next ≤ b.start := by
  induction texts generalizing offset with
  | nil => simp [placeLines]
  | cons text texts ih =>
    have htext : offset + text.length ≤ size := by
      cases texts with
      | nil => simpa using hsize
      | cons next texts =>
        simp only [List.intersperse_cons_cons, List.flatten_cons, List.length_append] at hsize
        omega
    have hrest := @ih (offset + text.length + 1)
    cases texts with
    | nil =>
      simp only [placeLines, List.mem_singleton, forall_eq, List.pairwise_singleton, and_true,
        Nat.le_refl]
      exact ⟨rfl, by simp only; omega, Nat.min_le_right _ _⟩
    | cons next texts =>
      obtain ⟨hfits, happart⟩ := hrest (by
        simp only [List.intersperse_cons_cons, List.flatten_cons, List.length_append,
          List.length_singleton] at hsize
        omega)
      rw [placeLines]
      refine ⟨fun line hline => ?_, List.pairwise_cons.mpr ⟨fun line hline => ?_, happart⟩⟩
      · rcases List.mem_cons.mp hline with rfl | hline
        · exact ⟨⟨rfl, by simp only; omega, Nat.min_le_right _ _⟩, Nat.le_refl _⟩
        · have hstart := (hfits line hline).2
          exact ⟨(hfits line hline).1, by omega⟩
      · have hstart := (hfits line hline).2
        simp only
        omega

theorem linesOf_spec (source : List Char) :
    (∀ line ∈ linesOf source, line.Fits source.length) ∧
      (linesOf source).Pairwise fun a b => a.next ≤ b.start := by
  have hsize : 0 + ((splitOn '\n' source).intersperse ['\n']).flatten.length ≤ source.length := by
    rw [splitOn_flatten]
    omega
  obtain ⟨hfits, happart⟩ := placeLines_spec hsize
  exact ⟨fun line hline => (hfits line hline).1, happart⟩

/-! ## Items -/

/-- The lines of an item, from the line of its label on. -/
def Item.lines : Item → List Line
  | .plain line => [line]
  | .condition _ _ line => [line]
  | .block _ _ opener inner => opener :: inner

theorem cutAtCloser_sublist {lines inner rest : List Line}
    (h : cutAtCloser lines = some (inner, rest)) : (inner ++ rest).Sublist lines := by
  induction lines generalizing inner with
  | nil => simp [cutAtCloser] at h
  | cons line lines ih =>
    rw [cutAtCloser] at h
    by_cases hcloser : isCloser line.trimmed
    · rw [if_pos hcloser] at h
      obtain ⟨rfl, rfl⟩ := Prod.mk.inj (Option.some.inj h)
      exact .cons line (.refl lines)
    · rw [if_neg hcloser] at h
      obtain ⟨⟨inner', rest'⟩, hcut, heq⟩ := Option.map_eq_some_iff.mp h
      obtain ⟨rfl, rfl⟩ := Prod.mk.inj heq
      exact (ih hcut).cons_cons line

/-- The items of a section use each line at most once, in order. -/
theorem itemsOf_lines {lines : List Line} {items : List Item} (h : itemsOf lines = .ok items) :
    (items.flatMap Item.lines).Sublist lines := by
  fun_induction itemsOf lines generalizing items with
  | case1 =>
    cases h
    exact .slnil
  | case2 => cases h
  | case3 line lines content label title hopener inner rest hcut =>
    next ih =>
    obtain ⟨items, hrest, hitems⟩ := ok_of_bind h
    cases hitems
    have hinner : (inner ++ items.flatMap Item.lines).Sublist lines :=
      ((ih hrest).append_left inner).trans (cutAtCloser_sublist hcut)
    simpa [Item.lines] using hinner.cons_cons line
  | case4 => cases h
  | case5 line lines content hopener hcloser =>
    next ih =>
    obtain ⟨items, hrest, hitems⟩ := ok_of_bind h
    have hlines := (ih hrest).cons_cons line
    split at hitems
    · cases hitems
      simpa [Item.lines] using hlines
    · cases hitems
      simpa [Item.lines] using hlines

/-! ## Parts -/

/-- A part that is a piece of a source. -/
structure Part.Laid (source : List Char) (p : Part) : Prop where
  text : p.text = (source.take p.stop).drop p.start
  le : p.start ≤ p.stop
  size : p.stop ≤ source.length

theorem Part.Laid.length {source : List Char} {p : Part} (h : p.Laid source) :
    p.text.length = p.stop - p.start := by
  have hle := h.le
  have hsize := h.size
  rw [h.text, List.length_drop, List.length_take]
  omega

/-- A section whose parts are pieces of a source that stand one after the other. -/
structure Section.Laid (source : List Char) (s : Section) : Prop where
  parts : ∀ p ∈ s.parts, p.Laid source
  apart : s.parts.Pairwise fun p q => p.stop ≤ q.start
  /-- What belongs to no label is no block. -/
  plain : ∀ p ∈ s.parts, p.label = none → p.block = false
  labels : s.labels = (s.parts.filterMap Part.label).eraseDups

/-- The part of an item of the expectations: it lies within the lines of the item. -/
structure Cut.Spans (cut : Cut) (item : Item) (p : Part) : Prop where
  label : p.label = item.label?
  plain : p.label = none → p.block = false
  text : p.text = (cut.source.take p.stop).drop p.start
  le : p.start ≤ p.stop
  first : ∃ line ∈ item.lines, line.start ≤ p.start
  last : ∃ line ∈ item.lines, p.stop ≤ line.next

theorem Cut.startOf_le {cut : Cut} {size : Nat} {line : Line} (h : line.Fits size) :
    cut.startOf line ≤ line.finish := by
  have hfinish := h.finish
  unfold Cut.startOf Line.indent
  omega

/-- An item of the expectations has one part. -/
theorem Cut.partsOf_spec {cut : Cut} {size : Nat} {item : Item} (hcut : cut.expectations = true)
    (hfits : ∀ line ∈ item.lines, line.Fits size)
    (happart : item.lines.Pairwise fun a b => a.next ≤ b.start) :
    ∃ p, cut.partsOf item = [p] ∧ cut.Spans item p := by
  have hend (line : Line) : cut.endOf line = line.next := by simp [Cut.endOf, hcut]
  cases item with
  | plain line =>
    have hline := hfits line (List.mem_singleton_self _)
    have hstart := cut.startOf_le hline
    refine ⟨_, rfl, rfl, fun _ => rfl, rfl, ?_, ⟨line, List.mem_singleton_self _, ?_⟩,
      ⟨line, List.mem_singleton_self _, ?_⟩⟩
    · have hnext := hline.next
      simp only [Cut.part, hend]
      omega
    · exact Nat.le_add_right _ _
    · exact Nat.le_of_eq (hend line)
  | condition label marker line =>
    have hline := hfits line (List.mem_singleton_self _)
    have hfinish := hline.finish
    have hnext := hline.next
    refine ⟨_, rfl, rfl, by rintro ⟨⟩, rfl, ?_, ⟨line, List.mem_singleton_self _, ?_⟩,
      ⟨line, List.mem_singleton_self _, ?_⟩⟩
    · simp only [Cut.part, hend]
      omega
    · simp only [Cut.part, Line.textStart]
      omega
    · exact Nat.le_of_eq (hend line)
  | block label title opener inner =>
    cases inner with
    | nil =>
      refine ⟨cut.part opener.next opener.next (some label) true title, by simp [Cut.partsOf, hcut],
        rfl, by rintro ⟨⟩, rfl, Nat.le_refl _,
        ⟨opener, List.mem_singleton_self _, ?_⟩, ⟨opener, List.mem_singleton_self _, Nat.le_refl _⟩⟩
      have hline := hfits opener (List.mem_singleton_self _)
      have hfinish := hline.finish
      have hnext := hline.next
      simp only [Cut.part]
      omega
    | cons first rest =>
      let last := (first :: rest).getLastD first
      have hlast : last ∈ first :: rest := by
        have hne : first :: rest ≠ [] := List.cons_ne_nil first rest
        simpa only [last, List.getLastD_eq_getLast?, List.getLast?_eq_some_getLast hne,
          Option.getD_some] using List.getLast_mem hne
      have hfirst := hfits first (by simp [Item.lines])
      have hnext : first.next ≤ last.next := by
        rcases List.mem_cons.mp hlast with heq | hrest
        · exact Nat.le_of_eq (congrArg Line.next heq.symm)
        · have hfitsLast := hfits last (by simp [Item.lines, hrest])
          have hfinish := hfitsLast.finish
          have hnext := hfitsLast.next
          have hapart := (List.pairwise_cons.mp (List.pairwise_cons.mp happart).2).1 last hrest
          omega
      refine ⟨cut.part (cut.startOf first) (cut.endOf last) (some label) true title,
        by simp [Cut.partsOf, hcut, last], rfl, by rintro ⟨⟩, rfl, ?_,
        ⟨first, by simp [Item.lines], Nat.le_add_right _ _⟩,
        ⟨last, List.mem_cons_of_mem _ hlast, Nat.le_of_eq (hend last)⟩⟩
      have hstart := cut.startOf_le hfirst
      have hfinish := hfirst.next
      simp only [Cut.part, hend]
      omega

/-- The parts of an item lie within its lines, one after the other. -/
theorem Cut.spans_partsOf {cut : Cut} {size : Nat} {item : Item}
    (hfits : ∀ line ∈ item.lines, line.Fits size)
    (happart : item.lines.Pairwise fun a b => a.next ≤ b.start) :
    (∀ p ∈ cut.partsOf item, cut.Spans item p) ∧
      (cut.partsOf item).Pairwise fun p q => p.stop ≤ q.start := by
  by_cases hcut : cut.expectations = true
  · obtain ⟨p, hp, hspans⟩ := Cut.partsOf_spec hcut hfits happart
    rw [hp]
    exact ⟨fun q hq => List.mem_singleton.mp hq ▸ hspans, List.pairwise_singleton _ _⟩
  · have hend (line : Line) (hline : line.Fits size) : line.finish ≤ cut.endOf line ∧
        cut.endOf line ≤ line.next := by
      have hnext := hline.next
      unfold Cut.endOf
      split <;> omega
    cases item with
    | plain line =>
      have hline := hfits line (List.mem_singleton_self _)
      have hstart := cut.startOf_le hline
      obtain ⟨hfinish, hnext⟩ := hend line hline
      refine ⟨fun p hp => ?_, List.pairwise_singleton _ _⟩
      obtain rfl := List.mem_singleton.mp hp
      exact ⟨rfl, fun _ => rfl, rfl, Nat.le_trans hstart hfinish, ⟨line, List.mem_singleton_self _,
        Nat.le_add_right _ _⟩, ⟨line, List.mem_singleton_self _, hnext⟩⟩
    | condition label marker line =>
      have hline := hfits line (List.mem_singleton_self _)
      obtain ⟨hfinish, hnext⟩ := hend line hline
      have hstart := hline.finish
      refine ⟨fun p hp => ?_, List.pairwise_singleton _ _⟩
      obtain rfl := List.mem_singleton.mp hp
      refine ⟨rfl, by rintro ⟨⟩, rfl, ?_, ⟨line, List.mem_singleton_self _, ?_⟩,
        ⟨line, List.mem_singleton_self _, hnext⟩⟩
      · simp only [Cut.part]
        omega
      · simp only [Cut.part, Line.textStart]
        omega
    | block label title opener inner =>
      have hparts : cut.partsOf (.block label title opener inner) = inner.map fun line =>
          cut.part (cut.startOf line) (cut.endOf line) (some label) true title := by
        simp [Cut.partsOf, hcut]
      rw [hparts]
      refine ⟨fun p hp => ?_, List.pairwise_map.mpr ?_⟩
      · obtain ⟨line, hmem, rfl⟩ := List.mem_map.mp hp
        have hline := hfits line (List.mem_cons_of_mem _ hmem)
        have hstart := cut.startOf_le hline
        obtain ⟨hfinish, hnext⟩ := hend line hline
        exact ⟨rfl, by rintro ⟨⟩, rfl, Nat.le_trans hstart hfinish, ⟨line, List.mem_cons_of_mem _ hmem,
          Nat.le_add_right _ _⟩, ⟨line, List.mem_cons_of_mem _ hmem, hnext⟩⟩
      · refine (List.pairwise_cons.mp happart).2.imp_of_mem fun {a b} ha hb hab => ?_
        have hnext := (hend a (hfits a (List.mem_cons_of_mem _ ha))).2
        simp only [Cut.part, Cut.startOf]
        omega

/-- The parts of items lie within their items, one after the other. -/
theorem Cut.spans_flatMap {cut : Cut} {size : Nat} {items : List Item}
    (hfits : ∀ line ∈ items.flatMap Item.lines, line.Fits size)
    (happart : (items.flatMap Item.lines).Pairwise fun a b => a.next ≤ b.start) :
    (∀ p ∈ items.flatMap cut.partsOf, ∃ item ∈ items, cut.Spans item p) ∧
      (items.flatMap cut.partsOf).Pairwise fun p q => p.stop ≤ q.start := by
  induction items with
  | nil => simp
  | cons item items ih =>
    rw [List.flatMap_cons] at hfits happart
    obtain ⟨hitem, hrest, hcross⟩ := List.pairwise_append.mp happart
    obtain ⟨hspans, hapart⟩ :=
      Cut.spans_partsOf (fun line hline => hfits line (List.mem_append_left _ hline)) hitem
    obtain ⟨ihspans, ihapart⟩ := ih (fun line hline => hfits line (List.mem_append_right _ hline)) hrest
    rw [List.flatMap_cons]
    refine ⟨fun p hp => ?_, List.pairwise_append.mpr ⟨hapart, ihapart, fun p hp q hq => ?_⟩⟩
    · rcases List.mem_append.mp hp with hp | hp
      · exact ⟨item, List.mem_cons_self, hspans p hp⟩
      · obtain ⟨item', hmem, hspans'⟩ := ihspans p hp
        exact ⟨item', List.mem_cons_of_mem _ hmem, hspans'⟩
    · obtain ⟨item', hmem, hspans'⟩ := ihspans q hq
      obtain ⟨a, ha, hstop⟩ := (hspans p hp).last
      obtain ⟨b, hb, hstart⟩ := hspans'.first
      have hab := hcross a ha b (List.mem_flatMap.mpr ⟨item', hmem, hb⟩)
      omega

/-- Whether a part holds the character at an offset. -/
def Part.Covers (p : Part) (i : Nat) : Prop := p.start ≤ i ∧ i < p.stop

/-- Parts that stand one after the other have no character in common. -/
theorem eq_of_covers {parts : List Part} (h : parts.Pairwise fun p q => p.stop ≤ q.start)
    {p q : Part} {i : Nat} (hp : p ∈ parts) (hq : q ∈ parts) (hpi : p.Covers i) (hqi : q.Covers i) :
    q = p := by
  have : Std.Symm fun x y : Part => x.stop ≤ y.start ∨ y.stop ≤ x.start := ⟨fun _ _ hxy => hxy.symm⟩
  have hboth := (h.imp (S := fun x y : Part => x.stop ≤ y.start ∨ y.stop ≤ x.start)
    fun hxy => .inl hxy).forall hp hq
  by_contra hne
  obtain ⟨hp₁, hp₂⟩ := hpi
  obtain ⟨hq₁, hq₂⟩ := hqi
  rcases hboth fun heq => hne heq.symm with hle | hle <;> omega

/-- The labels of the parts of the expectations are those of their items. -/
theorem Cut.labels_partsOf {cut : Cut} (hcut : cut.expectations = true) (items : List Item) :
    (items.flatMap cut.partsOf).filterMap Part.label = items.filterMap Item.label? := by
  have hitem (item : Item) : (cut.partsOf item).filterMap Part.label = item.label?.toList := by
    cases item with
    | plain line => rfl
    | condition label marker line => rfl
    | block label title opener inner => cases inner <;> simp [Cut.partsOf, hcut, Cut.part, Item.label?]
  rw [List.filterMap_flatMap, List.filterMap_eq_flatMap_toList]
  exact List.flatMap_congr fun item _ => hitem item

/-! ## Sections -/

theorem trimLines_sublist (lines : List Line) : (trimLines lines).Sublist lines := by
  have hback := (List.dropWhile_sublist Line.isBlank (l := (lines.dropWhile Line.isBlank).reverse)).reverse
  rw [List.reverse_reverse] at hback
  exact hback.trans (List.dropWhile_sublist _)

/-- The parts of the expectations stand one after the other in the source. -/
theorem laid_section {source : List Char} {lines : List Line} {s : Section}
    (hlines : lines.Sublist (linesOf source)) (h : Section.of source true lines = .ok s) :
    s.Laid source := by
  have htrimmed := (trimLines_sublist lines).trans hlines
  unfold Section.of at h
  simp only at h
  split at h
  · cases h
    exact ⟨by simp, .nil, by simp, rfl⟩
  · next last hlast =>
    obtain ⟨items, hitems, hs⟩ := ok_of_bind h
    cases hs
    have hsub := (itemsOf_lines hitems).trans htrimmed
    obtain ⟨hfits, happart⟩ := linesOf_spec source
    let cut : Cut := ⟨source, commonIndent (trimLines lines), true, last.start⟩
    have hcut : cut.expectations = true := rfl
    obtain ⟨hspans, hapart⟩ := @Cut.spans_flatMap cut _ _
      (fun line hline => hfits line (hsub.subset hline)) (happart.sublist hsub)
    refine ⟨fun p hp => ?_, hapart, fun p hp => ?_, by rw [Cut.labels_partsOf hcut]⟩
    · obtain ⟨item, hitem, hp⟩ := hspans p hp
      obtain ⟨line, hline, hstop⟩ := hp.last
      have hsize := (hfits line (hsub.subset (List.mem_flatMap.mpr ⟨item, hitem, hline⟩))).size
      exact ⟨hp.text, hp.le, Nat.le_trans hstop hsize⟩
    · obtain ⟨item, hitem, hp⟩ := hspans p hp
      exact hp.plain

/-! ## Outlines -/

theorem chunksOf_sublist {lines : List Line} {line : Line} {body : List Line}
    (h : .expectations line body ∈ (chunksOf lines).2) : body.Sublist lines := by
  have hbody (lines : List Line) : (chunksOf lines).1.Sublist lines := by
    induction lines with
    | nil => simp [chunksOf]
    | cons line lines ih =>
      rw [chunksOf]
      simp only
      split
      · simp
      · split
        · simp
        · exact ih.cons_cons line
  induction lines with
  | nil => simp [chunksOf] at h
  | cons start lines ih =>
    rw [chunksOf] at h
    simp only at h
    split at h
    · exact .cons start (ih (by simpa using h))
    · split at h
      · rcases List.mem_cons.mp h with heq | h
        · cases heq
          exact .cons _ (hbody lines)
        · exact .cons start (ih h)
      · exact .cons start (ih h)

/-- The outline of a source whose title is known, if it has one. -/
def outlineWith (source : List Char) (title : Option String) : Except Refusal Outline := do
  checkPreamble title.isSome (chunksOf (linesOf source)).1
  checkOrder false (chunksOf (linesOf source)).2
  let files ← fileSections source (chunksOf (linesOf source)).2
  let expectations ← expectationSection source (chunksOf (linesOf source)).2
  return ⟨title, files, expectations⟩

/-- First the title of a source is read, if it has to have one, and then the rest. -/
theorem outline_eq_bind (source : List Char) (full : Bool) : Outline.of source full =
    (if full then (titleOf source).map some else .ok none) >>= outlineWith source := by
  cases full <;> rfl

theorem outlineWith_eq_ok {source : List Char} {title : Option String} {outline : Outline}
    (h : outlineWith source title = .ok outline) : outline.title = title ∧
      fileSections source (chunksOf (linesOf source)).2 = .ok outline.files ∧
      expectationSection source (chunksOf (linesOf source)).2 = .ok outline.expectations := by
  obtain ⟨_, -, h⟩ := ok_of_bind h
  obtain ⟨_, -, h⟩ := ok_of_bind h
  obtain ⟨files, hfiles, h⟩ := ok_of_bind h
  obtain ⟨expectations, hexpectations, h⟩ := ok_of_bind h
  cases h
  exact ⟨rfl, hfiles, hexpectations⟩

/-- The expectations of a spec stand one after the other in its source. -/
theorem laid_outline {source : List Char} {full : Bool} {outline : Outline} {s : Section}
    (h : Outline.of source full = .ok outline) (hs : outline.expectations = some s) :
    s.Laid source := by
  have hchunks (chunks : List Chunk) (h : expectationSection source chunks = .ok (some s)) :
      ∃ line body, .expectations line body ∈ chunks ∧ Section.of source true body = .ok s := by
    induction chunks with
    | nil => cases h
    | cons chunk chunks ih =>
      cases chunk with
      | file line path body =>
        obtain ⟨line, body, hmem, hof⟩ := ih h
        exact ⟨line, body, List.mem_cons_of_mem _ hmem, hof⟩
      | expectations line body =>
        obtain ⟨content, hof, heq⟩ := ok_of_bind h
        cases heq
        exact ⟨line, body, List.mem_cons_self, hof⟩
  rw [outline_eq_bind] at h
  obtain ⟨title, -, h⟩ := ok_of_bind h
  obtain ⟨-, -, hexpectations⟩ := outlineWith_eq_ok h
  rw [hs] at hexpectations
  obtain ⟨line, body, hmem, hof⟩ := hchunks _ hexpectations
  exact laid_section (chunksOf_sublist hmem) hof

end HotSpec.Spec
