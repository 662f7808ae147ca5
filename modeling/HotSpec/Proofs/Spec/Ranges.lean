import HotSpec.Proofs.Spec.Refusals
import HotSpec.Proofs.Spec.Stretches
import Mathlib

/-!
# Values taken off a queue, range by range

The values of a source wait in a queue in the order of their offsets, and ranges that lie one behind
the other are taken off it.  Each range gets the values that were written in it.  The first range that
passes over a value is refused for it, and so are all ranges behind it: the queue stays as it is.

Main definitions:

- `Taking`, `takingsOf`: what becomes of one range, and of some ranges in turn.
- `Takes`: what a range can make of a queue.
- `QueueBehind`: a queue from which some ranges were taken.

Main results:

- Theorem `takes_takingOf`: a range gets its values, or it is refused for the first one that waits.
- Theorem `QueueBehind.takings`: a queue from which any number of the ranges were taken.
- Theorem `taken_by_range`: all of it at once.
-/

namespace HotSpec.Spec

/-! ## Ranges in turn -/

/-- What becomes of a range: the values that wait when it is taken off the queue, those that it gets
or why it is refused, and the values left. -/
structure Taking where
  waiting : List Anchored
  taken : Except Fault (List Anchored)
  left : List Anchored

/-- The values that a range gets: none if it is refused. -/
def Taking.values (t : Taking) : List Anchored := t.taken.toOption.getD []

section Queue

variable (source : List Char) (file : Option String)

/-- Take a range off a queue of the values of a source. -/
def takingOf (queue : List Anchored) (range : Stretch) : Taking :=
  let answer := shift range.start range.stop queue
  ⟨queue, answer.1.mapError fun index => Refusal.fault source file (.valueOutside, index), answer.2⟩

/-- Take ranges off a queue, one after the other, also behind one that is refused. -/
def takingsOf : List Anchored → List Stretch → List Taking
  | _, [] => []
  | queue, range :: ranges =>
    takingOf source file queue range :: takingsOf (takingOf source file queue range).left ranges

theorem length_takingsOf (queue : List Anchored) (ranges : List Stretch) :
    (takingsOf source file queue ranges).length = ranges.length := by
  induction ranges generalizing queue with
  | nil => rfl
  | cons range ranges ih => rw [takingsOf, List.length_cons, ih, List.length_cons]

/-- What a range can make of a queue. -/
inductive Takes (range : Stretch) : Taking → Prop
  /-- No value waits in front of the range: it gets those in it, and the others come after it. -/
  | served {taken left : List Anchored} (htaken : ∀ a ∈ taken, range.contains a.index = true)
      (hleft : ∀ a ∈ left, range.stop ≤ a.index) : Takes range ⟨taken ++ left, .ok taken, left⟩
  /-- The first value waits in front of the range: the range is refused for it, and all values stay. -/
  | refused {first : Anchored} {rest : List Anchored} (hfirst : first.index < range.start)
      (hrest : ∀ a ∈ rest, first.index ≤ a.index) :
      Takes range ⟨first :: rest, .error (Refusal.fault source file (.valueOutside, first.index)),
        first :: rest⟩

end Queue

section Step

variable {source : List Char} {file : Option String} {values queue taken : List Anchored}
  {before ranges : List Stretch} {range : Stretch} {t : Taking}

/-- A range gets its values, or it is refused for the first one that waits. -/
theorem takes_takingOf (hsorted : Sorted queue) (range : Stretch) :
    Takes source file range (takingOf source file queue range) := by
  unfold takingOf
  cases hshift : shift range.start range.stop queue with
  | mk answer left =>
    cases answer with
    | ok taken =>
      obtain ⟨rfl, hrange, hleft⟩ := shift_eq_ok hsorted hshift
      exact .served (fun a ha => Stretch.contains_iff.mpr (hrange a ha)) hleft
    | error index =>
      obtain ⟨a, ha, hlt⟩ := shift_error hshift
      cases queue with
      | nil => cases ha
      | cons first rest =>
        have hrest := (List.pairwise_cons.mp hsorted).1
        -- the value that is passed over need not be the first, but the first comes before it
        have hfirst : first.index < range.start := by
          rcases List.mem_cons.mp ha with rfl | ha
          · exact hlt
          · exact Nat.lt_of_le_of_lt (hrest a ha) hlt
        rw [shift, if_pos hfirst] at hshift
        cases hshift
        exact .refused hfirst hrest

/-- A queue from which some ranges were taken: what they got and what waits are all the values, in their
order; what they got was written in them, and the first value that waits was not. -/
structure QueueBehind (values : List Anchored) (ranges : List Stretch) (taken waiting : List Anchored) :
    Prop where
  whole : taken ++ waiting = values
  inside : ∀ a ∈ taken, ∃ r ∈ ranges, r.contains a.index = true
  outside : ∀ a, waiting.head? = some a → ∀ r ∈ ranges, r.contains a.index = false

/-- A queue from which nothing was taken. -/
theorem queueBehind_nil (values : List Anchored) : QueueBehind values [] [] values :=
  ⟨rfl, by simp, by simp⟩

namespace QueueBehind

/-- What waits is in order. -/
theorem sorted (h : QueueBehind values ranges taken queue) (hsorted : Sorted values) : Sorted queue :=
  (List.pairwise_append.mp (h.whole.symm ▸ hsorted)).2.1

/-- A queue from which one range more was taken. -/
theorem step (h : QueueBehind values ranges taken t.waiting) (ht : Takes source file range t)
    (hrange : range.start ≤ range.stop) (hapart : ∀ r ∈ ranges, r.stop ≤ range.start) :
    QueueBehind values (ranges ++ [range]) (taken ++ t.values) t.left := by
  have hinside (a : Anchored) (ha : a ∈ taken) : ∃ r ∈ ranges ++ [range], r.contains a.index = true := by
    obtain ⟨r, hr, hcontains⟩ := h.inside a ha
    exact ⟨r, List.mem_append_left _ hr, hcontains⟩
  cases ht with
  | @served values' left htaken hleft =>
    refine ⟨?_, fun a ha => ?_, fun a ha r hr => ?_⟩
    · rw [← h.whole, List.append_assoc]
      rfl
    · rcases List.mem_append.mp ha with ha | ha
      · exact hinside a ha
      · exact ⟨range, by simp, htaken a ha⟩
    · have hstop := hleft a (List.mem_of_head? ha)
      have hbehind : r.stop ≤ a.index := by
        rcases List.mem_append.mp hr with hr | hr
        · exact (hapart r hr).trans (hrange.trans hstop)
        · obtain rfl := List.mem_singleton.mp hr
          exact hstop
      rw [Bool.eq_false_iff, ne_eq, Stretch.contains_iff]
      omega
  | @refused first rest hfirst hrest =>
    refine ⟨?_, fun a ha => ?_, fun a ha r hr => ?_⟩
    · rw [← h.whole]
      simp [Taking.values, Except.toOption]
    · exact hinside a (by simpa [Taking.values, Except.toOption] using ha)
    · rcases List.mem_append.mp hr with hr | hr
      · exact h.outside a ha r hr
      · obtain rfl := List.mem_singleton.mp hr
        obtain rfl : first = a := by simpa using ha
        rw [Bool.eq_false_iff, ne_eq, Stretch.contains_iff]
        omega

/-- A queue from which any number of the ranges were taken. -/
theorem takings (h : QueueBehind values before taken queue) (hsorted : Sorted values)
    (hranges : ∀ r ∈ ranges, r.start ≤ r.stop)
    (hapart : (before ++ ranges).Pairwise fun r s => r.stop ≤ s.start) {k : Nat}
    (hrange : ranges[k]? = some range) (ht : (takingsOf source file queue ranges)[k]? = some t) :
    Takes source file range t ∧
      QueueBehind values (before ++ ranges.take k)
        (taken ++ ((takingsOf source file queue ranges).take k).flatMap Taking.values) t.waiting := by
  induction ranges generalizing before taken queue k with
  | nil => cases hrange
  | cons first ranges ih =>
    have htakes : Takes source file first (takingOf source file queue first) :=
      takes_takingOf (h.sorted hsorted) first
    cases k with
    | zero =>
      cases hrange
      cases ht
      simpa using ⟨htakes, h⟩
    | succ k =>
      rw [takingsOf, List.getElem?_cons_succ] at ht
      rw [List.getElem?_cons_succ] at hrange
      have hstep := h.step htakes (hranges first List.mem_cons_self)
        fun r hr => (List.pairwise_append.mp hapart).2.2 r hr first List.mem_cons_self
      have hrest := ih hstep (fun r hr => hranges r (List.mem_cons_of_mem _ hr)) (by simpa using hapart)
        hrange ht
      simpa [takingsOf] using hrest

end QueueBehind

/-! ## One range -/

/-- What a range gets was written in it. -/
theorem Takes.contains (h : Takes source file range t) : ∀ a ∈ t.values, range.contains a.index = true := by
  cases h with
  | served htaken hleft => exact htaken
  | refused hfirst hrest => simp [Taking.values, Except.toOption]

/-- A range that passes over a value is refused for the first one that waits, and takes none. -/
theorem Takes.refused_of_lt (h : Takes source file range t) (hrange : range.start ≤ range.stop)
    (hpassed : ∃ a ∈ t.waiting, a.index < range.start) :
    ∃ first ∈ t.waiting, (∀ a ∈ t.waiting, first.index ≤ a.index) ∧
      t.taken = .error (.spec .valueOutside (some (placeAt source file first.index))) ∧
      t.left = t.waiting := by
  obtain ⟨a, ha, hlt⟩ := hpassed
  cases h with
  | served htaken hleft =>
    rcases List.mem_append.mp ha with ha | ha
    · have hstart := (Stretch.contains_iff.mp (htaken a ha)).1
      omega
    · have hstop := hleft a ha
      omega
  | @refused first rest hfirst hrest =>
    exact ⟨first, List.mem_cons_self, List.forall_mem_cons.mpr ⟨Nat.le_refl _, hrest⟩, rfl, rfl⟩

/-- A range that passes over no value gets all values that were written in it. -/
theorem QueueBehind.taken_eq (h : QueueBehind values ranges taken t.waiting)
    (ht : Takes source file range t) (hapart : ∀ r ∈ ranges, r.stop ≤ range.start)
    (hnone : ∀ a ∈ t.waiting, range.start ≤ a.index) :
    t.taken = .ok (values.filter fun a => range.contains a.index) := by
  cases ht with
  | @served values' left htaken hleft =>
    have hbefore : taken.filter (fun a => range.contains a.index) = [] := by
      refine List.filter_eq_nil_iff.mpr fun a ha hcontains => ?_
      obtain ⟨r, hr, hinside⟩ := h.inside a ha
      have hstop := hapart r hr
      have hlt := (Stretch.contains_iff.mp hinside).2
      have hstart := (Stretch.contains_iff.mp hcontains).1
      omega
    have hbehind : left.filter (fun a => range.contains a.index) = [] := by
      refine List.filter_eq_nil_iff.mpr fun a ha hcontains => ?_
      have hstop := hleft a ha
      have hlt := (Stretch.contains_iff.mp hcontains).2
      omega
    rw [← h.whole, List.filter_append, List.filter_append, hbefore, hbehind,
      List.filter_eq_self.mpr htaken, List.nil_append, List.append_nil]
  | @refused first rest hfirst hrest =>
    have hstart := hnone first List.mem_cons_self
    omega

/-- A range passes over a value that waits if and only if some value was written in front of the range
and in none of those taken before. -/
theorem QueueBehind.passed_iff (h : QueueBehind values ranges taken queue) (hsorted : Sorted queue) :
    (∃ a ∈ queue, a.index < range.start) ↔
      ∃ a ∈ values, a.index < range.start ∧ ∀ r ∈ ranges, r.contains a.index = false := by
  constructor
  · rintro ⟨a, ha, hlt⟩
    cases queue with
    | nil => cases ha
    | cons first rest =>
      have hle : first.index ≤ a.index := by
        rcases List.mem_cons.mp ha with rfl | ha
        · exact Nat.le_refl _
        · exact (List.pairwise_cons.mp hsorted).1 a ha
      refine ⟨first, ?_, Nat.lt_of_le_of_lt hle hlt, h.outside first rfl⟩
      rw [← h.whole]
      exact List.mem_append_right _ List.mem_cons_self
  · rintro ⟨a, ha, hlt, houtside⟩
    rw [← h.whole] at ha
    rcases List.mem_append.mp ha with ha | ha
    · obtain ⟨r, hr, hinside⟩ := h.inside a ha
      rw [houtside r hr] at hinside
      cases hinside
    · exact ⟨a, ha, hlt⟩

end Step

/-! ## All ranges -/

/-- Ranges of which each starts where the one before it stops, or later, do not overlap. -/
theorem pairwise_of_isChain {ranges : List Stretch} (hranges : ∀ r ∈ ranges, r.start ≤ r.stop)
    (hchain : ranges.IsChain fun r s => r.stop ≤ s.start) :
    ranges.Pairwise fun r s => r.stop ≤ s.start := by
  induction ranges with
  | nil => exact .nil
  | cons r ranges ih =>
    cases ranges with
    | nil => exact List.pairwise_singleton _ _
    | cons s ranges =>
      obtain ⟨hnext, hchain⟩ := List.isChain_cons_cons.mp hchain
      have hrest := ih (fun s hs => hranges s (List.mem_cons_of_mem _ hs)) hchain
      refine List.pairwise_cons.mpr ⟨List.forall_mem_cons.mpr ⟨hnext, fun t ht => ?_⟩, hrest⟩
      exact hnext.trans ((hranges s (by simp)).trans ((List.pairwise_cons.mp hrest).1 t ht))

section All

variable {source : List Char} {file : Option String} {values : List Anchored} {ranges : List Stretch}
  {k : Nat} {range : Stretch} {t : Taking}

/-- The ranges in front of one of them stop where it starts, or before. -/
theorem stop_le_of_take (hapart : ranges.Pairwise fun r s => r.stop ≤ s.start)
    (hrange : ranges[k]? = some range) : ∀ r ∈ ranges.take k, r.stop ≤ range.start := by
  have hsplit : ranges.take (k + 1) = ranges.take k ++ [range] := by
    rw [List.take_add_one, hrange, Option.toList_some]
  have htaken := hapart.sublist (List.take_sublist (k + 1) ranges)
  rw [hsplit] at htaken
  exact fun r hr => (List.pairwise_append.mp htaken).2.2 r hr range (by simp)

section

variable (hsorted : Sorted values) (hranges : ∀ r ∈ ranges, r.start ≤ r.stop)
  (hapart : ranges.Pairwise fun r s => r.stop ≤ s.start)
include hsorted hranges hapart

/-- The queue that a range meets, when those in front of it were taken. -/
theorem queueBehind_take (hrange : ranges[k]? = some range)
    (ht : (takingsOf source file values ranges)[k]? = some t) :
    Takes source file range t ∧ QueueBehind values (ranges.take k)
      (((takingsOf source file values ranges).take k).flatMap Taking.values) t.waiting := by
  simpa using (queueBehind_nil values).takings hsorted hranges hapart hrange ht

/-- No value is taken twice. -/
theorem disjoint_takings :
    ((takingsOf source file values ranges).map Taking.values).Pairwise List.Disjoint := by
  rw [List.pairwise_map, List.pairwise_iff_getElem]
  intro i j hi hj hij a hai haj
  have hi' : i < ranges.length := length_takingsOf source file values ranges ▸ hi
  have hj' : j < ranges.length := length_takingsOf source file values ranges ▸ hj
  have hcontains {k : Nat} (hk : k < (takingsOf source file values ranges).length)
      (hk' : k < ranges.length) (ha : a ∈ (takingsOf source file values ranges)[k].values) :
      ranges[k].contains a.index = true :=
    (queueBehind_take hsorted hranges hapart (List.getElem?_eq_getElem hk')
      (List.getElem?_eq_getElem hk)).1.contains a ha
  have hstop := (Stretch.contains_iff.mp (hcontains hi hi' hai)).2
  have hstart := (Stretch.contains_iff.mp (hcontains hj hj' haj)).1
  have hle := List.pairwise_iff_getElem.mp hapart i j hi' hj' hij
  omega

end

/-- Values in the order of their offsets are taken by ranges that lie one behind the other.  As long as
no range passes over a value that waits, each gets the values that were written in it, in their order.
A range that does is refused, at the place of the first value that waits, and changes nothing; this
happens from the first range on that has a value in front of it which lies in no range before.  No value
is taken twice: those taken so far, followed by those that wait, are always all the values. -/
theorem taken_by_range (source : List Char) (file : Option String) {values : List Anchored}
    {ranges : List Stretch} (hsorted : Sorted values) (hranges : ∀ r ∈ ranges, r.start ≤ r.stop)
    (hchain : ranges.IsChain fun r s => r.stop ≤ s.start) :
    let takings := takingsOf source file values ranges
    takings.length = ranges.length ∧
    (∀ k range t, ranges[k]? = some range → takings[k]? = some t →
      (takings.take k).flatMap Taking.values ++ t.waiting = values ∧
      (takings.take (k + 1)).flatMap Taking.values ++ t.left = values ∧
      ((∀ a ∈ t.waiting, range.start ≤ a.index) →
        t.taken = .ok (values.filter fun a => range.contains a.index)) ∧
      ((∃ a ∈ t.waiting, a.index < range.start) →
        ∃ first ∈ t.waiting, (∀ a ∈ t.waiting, first.index ≤ a.index) ∧
          t.taken = .error (.spec .valueOutside (some (placeAt source file first.index))) ∧
          t.left = t.waiting) ∧
      ((∃ a ∈ t.waiting, a.index < range.start) ↔
        ∃ a ∈ values, a.index < range.start ∧ ∀ r ∈ ranges.take k, r.contains a.index = false)) ∧
    (takings.map Taking.values).Pairwise List.Disjoint := by
  intro takings
  have hapart := pairwise_of_isChain hranges hchain
  refine ⟨length_takingsOf source file values ranges, fun k range t hrange ht => ?_,
    disjoint_takings hsorted hranges hapart⟩
  obtain ⟨htakes, hqueue⟩ := queueBehind_take hsorted hranges hapart hrange ht
  have hvalid := hranges range (List.mem_of_getElem? hrange)
  have hbefore := stop_le_of_take hapart hrange
  have hnext : (takings.take (k + 1)).flatMap Taking.values =
      (takings.take k).flatMap Taking.values ++ t.values := by
    simp [List.take_add_one, ht]
  exact ⟨hqueue.whole, hnext ▸ (hqueue.step htakes hvalid hbefore).whole,
    hqueue.taken_eq htakes hbefore, htakes.refused_of_lt hvalid,
    hqueue.passed_iff (hqueue.sorted hsorted)⟩

end All

/-- Ranges that lie one behind the other: an empty one and one with two values at its start, one that
passes over a value, and one behind it. -/
def gapRanges : List Stretch := [⟨10, 13⟩, ⟨13, 13⟩, ⟨13, 15⟩, ⟨16, 20⟩, ⟨20, 30⟩]

/-- The range that starts behind the last value is refused for it, with its line and its column. -/
theorem taken_by_range_gap :
    let takings := takingsOf "****\n::1 <p>\n\n::1 a".toList none gapPatterns gapRanges
    Sorted gapPatterns ∧ (∀ r ∈ gapRanges, r.start ≤ r.stop) ∧
    (gapRanges.IsChain fun r s => r.stop ≤ s.start) ∧
    takings.map (·.values.map Anchored.index) = [[], [], [13, 13], [], []] ∧
    ∃ t, takings[3]? = some t ∧ t.left.map Anchored.index = [15] ∧
      t.taken = .error (.spec .valueOutside
        (some { Place.inFile none with line := some 3, column := some 1 })) := by
  intro takings
  have hsorted : Sorted gapPatterns := by
    unfold Sorted
    decide
  have hranges : ∀ r ∈ gapRanges, r.start ≤ r.stop := by decide
  have hchain : gapRanges.IsChain fun r s => r.stop ≤ s.start := by decide
  obtain ⟨t, ht, hwaiting⟩ :
      ∃ t, takings[3]? = some t ∧ t.waiting = gapPatterns.drop 2 := ⟨_, rfl, rfl⟩
  obtain ⟨-, htaken, -⟩ := taken_by_range "****\n::1 <p>\n\n::1 a".toList none hsorted hranges hchain
  obtain ⟨-, -, -, hrefused, -⟩ := htaken 3 ⟨16, 20⟩ t rfl ht
  rw [hwaiting] at hrefused
  obtain ⟨first, hfirst, -, hplace, hleft⟩ := hrefused ⟨_, List.mem_cons_self, by decide⟩
  obtain rfl := List.mem_singleton.mp hfirst
  exact ⟨hsorted, hranges, hchain, rfl, t, ht, by rw [hleft]; rfl, hplace⟩

end HotSpec.Spec
