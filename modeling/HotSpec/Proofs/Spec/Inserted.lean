import HotSpec.Proofs.Spec.Demands
import HotSpec.Proofs.Spec.Moved

/-!
# Parts with others put between them

Where some text is put into a source, the parts in front of it stay what they are, and those behind it
are moved with their values.  They ask of a label what they asked before, so a section with more parts
asks for what it asked for, and in between for what these parts ask for.

Main definitions:

- `Anchored.movedFrom`: a value of a source that some characters are put into.
- `Part.counts`: a part that asks for something: it has a label, text or values.
- `Section.Inserted`: a section, and the one with parts put into it.

Main results:

- Theorem `Part.demand_moved`: a moved part asks for what it asked for.
- Theorem `Section.Inserted.demandOf_new`: what the parts ask of a label.
- Theorem `Section.Inserted.compileExpectations`: what the section with more parts comes to.
-/

namespace HotSpec.Spec

open HotSpec.Text
open Html (Token Expected)

/-! ## Moved values -/

/-- A value of a source that a number of characters are put into at an offset. -/
def Anchored.movedFrom (k n : Nat) (a : Anchored) : Anchored := if a.index < k then a else a.moved n

@[simp] theorem Anchored.index_moved (n : Nat) (a : Anchored) : (a.moved n).index = n + a.index := rfl

@[simp] theorem Anchored.value_moved (n : Nat) (a : Anchored) : (a.moved n).value = a.value := rfl

@[simp] theorem Anchored.role_moved (n : Nat) (a : Anchored) : (a.moved n).role = a.role := rfl

@[simp] theorem Anchored.isCallable_moved (n : Nat) (a : Anchored) :
    (a.moved n).isCallable = a.isCallable := rfl

theorem Anchored.movedFrom_of_lt {k n : Nat} {a : Anchored} (h : a.index < k) :
    a.movedFrom k n = a := if_pos h

theorem Anchored.movedFrom_of_le {k n : Nat} {a : Anchored} (h : k ≤ a.index) :
    a.movedFrom k n = a.moved n := if_neg (Nat.not_lt.mpr h)

/-- Values stay in their order. -/
theorem sorted_movedFrom {values : List Anchored} (h : Sorted values) (k n : Nat) :
    Sorted (values.map (Anchored.movedFrom k n)) := by
  refine List.pairwise_map.mpr (h.imp fun {a b} hab => ?_)
  simp only [Anchored.movedFrom, apply_ite Anchored.index, Anchored.index_moved]
  split <;> split <;> omega

/-! ## Moved parts -/

section

variable (n : Nat)

theorem shift_moved (start stop : Nat) (queue : List Anchored) :
    shift (n + start) (n + stop) (queue.map (Anchored.moved n)) =
      (((shift start stop queue).1.map (List.map (Anchored.moved n))).mapError (n + ·),
        (shift start stop queue).2.map (Anchored.moved n)) := by
  induction queue with
  | nil => rfl
  | cons a queue ih =>
    rw [List.map_cons, shift, shift, Anchored.index_moved, ih]
    by_cases hbefore : a.index < start
    · rw [if_pos hbefore, if_pos (by omega)]
      rfl
    · rw [if_neg hbefore, if_neg (by omega)]
      by_cases hafter : stop ≤ a.index
      · rw [if_pos hafter, if_pos (by omega)]
        rfl
      · rw [if_neg hafter, if_neg (by omega)]
        cases shift start stop queue with
        | mk taken left => cases taken <;> rfl

theorem applyRegexes_moved (start : Nat) (text : List Char) (values : List Anchored) :
    applyRegexes (n + start) text (values.map (Anchored.moved n)) =
      ((applyRegexes start text values).1,
        (applyRegexes start text values).2.map (Anchored.moved n)) := by
  induction values generalizing start text with
  | nil => rfl
  | cons a values ih =>
    rw [List.map_cons]
    cases hcall : a.isCallable with
    | true =>
      rw [@applyRegexes_cons_of_callable (n + start) text (a.moved n) hcall,
        applyRegexes_cons_of_callable _ _ hcall, ih]
      rfl
    | false =>
      obtain ⟨r, hr⟩ := exists_regex hcall
      have hcut : n + a.index - (n + start) = a.index - start := by omega
      have hstart : n + start + (a.index - start) = n + (start + (a.index - start)) := by omega
      rw [@applyRegexes_cons_of_regex (n + start) text (a.moved n) r hr,
        applyRegexes_cons_of_regex _ _ hr, Anchored.index_moved, hcut, hstart, ih]

theorem textStep_moved (p : Part) (left : Nat) (text : List Char) (regexes : List Anchored) :
    textStep (p.moved n) (n + left) text (regexes.map (Anchored.moved n)) =
      ((textStep p left text regexes).map fun result =>
        (result.1, result.2.map (Anchored.moved n))).mapError fun refusal =>
          (refusal.1, n + refusal.2) := by
  have hstop : n + left + text.length = n + (left + text.length) := by omega
  have hshift := shift_moved n p.start (left + text.length) regexes
  unfold textStep
  rw [hstop]
  simp only [Part.moved, hshift]
  cases hresult : shift p.start (left + text.length) regexes with
  | mk taken rest =>
    cases taken with
    | error index => rfl
    | ok taken =>
      simp only [Except.map, Except.mapError, applyRegexes_moved]

theorem splitSteps_moved (p : Part) (left : Nat) (subs regexes : List Anchored) :
    splitSteps (p.moved n) (n + left) (subs.map (Anchored.moved n))
        (regexes.map (Anchored.moved n)) =
      (splitSteps p left subs regexes).mapError fun refusal => (refusal.1, n + refusal.2) := by
  induction subs generalizing left regexes with
  | nil =>
    have hdrop : n + left - (p.moved n).start = left - p.start := by
      simp only [Part.moved]
      omega
    rw [List.map_nil, splitSteps, splitSteps, hdrop]
    by_cases hlt : left < p.stop
    · rw [if_pos hlt, if_pos (by simp only [Part.moved]; omega)]
      rw [show (p.moved n).text = p.text from rfl, textStep_moved]
      cases textStep p left (p.text.drop (left - p.start)) regexes <;> rfl
    · rw [if_neg hlt, if_neg (by simp only [Part.moved]; omega)]
      rfl
  | cons sub subs ih =>
    rw [List.map_cons, splitSteps, splitSteps, Anchored.role_moved, Anchored.index_moved]
    by_cases hrole : sub.role = .function
    · rw [if_pos hrole, if_pos hrole]
      rfl
    · rw [if_neg hrole, if_neg hrole]
      by_cases hlt : left < sub.index
      · have hdrop : n + left - (p.moved n).start = left - p.start := by
          simp only [Part.moved]
          omega
        have htake : n + sub.index - (p.moved n).start = sub.index - p.start := by
          simp only [Part.moved]
          omega
        rw [if_pos hlt, if_pos (by omega), hdrop, htake, show (p.moved n).text = p.text from rfl]
        simp only [textStep_moved]
        cases textStep p left ((p.text.take (sub.index - p.start)).drop (left - p.start)) regexes with
        | error refusal => rfl
        | ok result =>
          simp only [Except.map, Except.mapError, bind, Except.bind, ih]
          cases splitSteps p sub.index subs result.2 <;> rfl
      · rw [if_neg hlt, if_neg (by omega), ih]
        cases splitSteps p left subs regexes <;> rfl

theorem blockSteps_moved (p : Part) (values : List Anchored) :
    (blockSteps (p.moved n) (values.map (Anchored.moved n))).toOption =
      (blockSteps p values).toOption := by
  have hsubs : (values.map (Anchored.moved n)).filter Anchored.isCallable =
      (values.filter Anchored.isCallable).map (Anchored.moved n) := List.filter_map
  have hregexes : (values.map (Anchored.moved n)).filter (fun value => !value.isCallable) =
      (values.filter fun value => !value.isCallable).map (Anchored.moved n) := List.filter_map
  unfold blockSteps
  rw [hsubs, hregexes, show (p.moved n).start = n + p.start from rfl, splitSteps_moved]
  cases splitSteps p p.start (values.filter Anchored.isCallable)
    (values.filter fun value => !value.isCallable) <;> rfl

end

section Demands

variable {label : String} {values values' : List Anchored} {p : Part} {n : Nat}

/-- A part asks for the same with the same values. -/
theorem Part.demand_congr (h : p.share values' = p.share values) :
    p.demand label values' = p.demand label values := by
  have hvalued : p.valued label values' = p.valued label values := by
    rw [Part.valued, Part.valued, h]
  have htokens : p.tokens values' = p.tokens values := by rw [Part.tokens, Part.tokens, h]
  rw [Part.demand, Part.demand, hvalued, htokens, h]

/-- A moved part with moved values asks for what it asked for. -/
theorem Part.demand_moved (h : (p.moved n).share values' = (p.share values).map (Anchored.moved n)) :
    (p.moved n).demand label values' = p.demand label values := by
  have hcallables : callablesOf ((p.share values).map (Anchored.moved n)) =
      callablesOf (p.share values) := by
    rw [callablesOf, List.filter_map, List.map_map]
    rfl
  have hvalued : (p.moved n).valued label values' = p.valued label values := by
    rw [Part.valued, h, List.isEmpty_map]
    rfl
  have htokens : (p.moved n).tokens values' = p.tokens values := by
    rw [Part.tokens, h, List.isEmpty_map, show (p.moved n).start = n + p.start from rfl,
      applyRegexes_moved]
    rfl
  rw [Part.demand, Part.demand, hvalued, htokens, h, blockSteps_moved, hcallables]
  rfl

/-! ## Parts that count -/

/-- Whether a part can ask for something: it has a label, text or values. -/
def Part.counts (values : List Anchored) (p : Part) : Bool :=
  p.label.isSome || !blank p.text || !(p.share values).isEmpty

theorem Part.counts_eq_false {p : Part} :
    p.counts values = false ↔ p.label = none ∧ blank p.text = true ∧ p.share values = [] := by
  simp [Part.counts, and_assoc]

/-- What does not count asks for nothing. -/
theorem Part.demand_of_counts (h : p.counts values = false) : p.demand label values = .nothing := by
  obtain ⟨hlabel, hblank, hshare⟩ := Part.counts_eq_false.mp h
  have htokens : p.tokens values = [] := by
    simp [Part.tokens, hlabel, hshare, applyRegexes, literalToken?, hblank]
  have hvalued : p.valued label values = false := by simp [Part.valued, hshare]
  simp [Part.demand, hvalued, htokens, hlabel, Demand.nothing]

/-- Only the parts that count ask for something. -/
theorem demandOf_counts (label : String) (values : List Anchored) (parts : List Part) :
    demandOf label values (parts.filter (Part.counts values)) = demandOf label values parts := by
  induction parts with
  | nil => rfl
  | cons p parts ih =>
    cases hcounts : p.counts values with
    | true => rw [List.filter_cons_of_pos hcounts, demandOf, demandOf, ih]
    | false =>
      rw [List.filter_cons_of_neg (by simp [hcounts]), ih, demandOf, Part.demand_of_counts hcounts,
        Demand.nothing_append]

theorem demandOf_congr {parts parts' : List Part}
    (h : List.Forall₂ (fun p p' => p'.demand label values' = p.demand label values) parts parts') :
    demandOf label values' parts' = demandOf label values parts := by
  induction h with
  | nil => rfl
  | cons hp _ ih => rw [demandOf, demandOf, hp, ih]

end Demands

/-! ## Shares -/

section Shares

variable {k n : Nat} {values : List Anchored} {p : Part}

/-- What stands in front of an offset keeps its values. -/
theorem share_of_stop_le (h : p.stop ≤ k) :
    p.share (values.map (Anchored.movedFrom k n)) = p.share values := by
  have hfront (a : Anchored) : a.index < k ∧ a.movedFrom k n = a ∨
      p.holds (a.movedFrom k n) = false ∧ p.holds a = false := by
    by_cases hlt : a.index < k
    · exact .inl ⟨hlt, a.movedFrom_of_lt hlt⟩
    · rw [a.movedFrom_of_le (Nat.le_of_not_lt hlt), ← Bool.not_eq_true, ← Bool.not_eq_true,
        Part.holds_iff, Part.holds_iff, Anchored.index_moved]
      omega
  induction values with
  | nil => rfl
  | cons a values ih =>
    unfold Part.share at ih ⊢
    rcases hfront a with ⟨-, hsame⟩ | ⟨hmoved, hnone⟩
    · rw [List.map_cons, hsame, List.filter_cons, List.filter_cons, ih]
    · rw [List.map_cons, List.filter_cons_of_neg (by simp [hmoved]),
        List.filter_cons_of_neg (by simp [hnone]), ih]

/-- What stands behind an offset moves with its values. -/
theorem share_of_le_start (h : k ≤ p.start) :
    (p.moved n).share (values.map (Anchored.movedFrom k n)) =
      (p.share values).map (Anchored.moved n) := by
  have hholds (a : Anchored) : (p.moved n).holds (a.movedFrom k n) = p.holds a ∧
      (p.holds a = true → a.movedFrom k n = a.moved n) := by
    by_cases hlt : a.index < k
    · rw [a.movedFrom_of_lt hlt, Bool.eq_iff_iff, Part.holds_iff, Part.holds_iff]
      simp only [Part.moved]
      exact ⟨by omega, fun hrange => by omega⟩
    · refine ⟨?_, fun _ => a.movedFrom_of_le (Nat.le_of_not_lt hlt)⟩
      rw [a.movedFrom_of_le (Nat.le_of_not_lt hlt), Bool.eq_iff_iff, Part.holds_iff, Part.holds_iff,
        Anchored.index_moved]
      simp only [Part.moved]
      omega
  induction values with
  | nil => rfl
  | cons a values ih =>
    unfold Part.share at ih ⊢
    obtain ⟨hsame, hmoved⟩ := hholds a
    rw [List.map_cons, List.filter_cons, List.filter_cons, hsame, ih]
    split
    · next hyes => rw [hmoved hyes, List.map_cons]
    · rfl

/-- What is put in at an offset has no values. -/
theorem share_of_between (hstart : k ≤ p.start) (hstop : p.stop ≤ k + n) :
    p.share (values.map (Anchored.movedFrom k n)) = [] := by
  refine List.filter_eq_nil_iff.mpr fun a ha hholds => ?_
  obtain ⟨b, -, rfl⟩ := List.mem_map.mp ha
  have hrange := Part.holds_iff.mp hholds
  by_cases hlt : b.index < k
  · rw [b.movedFrom_of_lt hlt] at hrange
    omega
  · rw [b.movedFrom_of_le (Nat.le_of_not_lt hlt), Anchored.index_moved] at hrange
    omega

/-- A part in front of what is put in counts as it did. -/
theorem Part.counts_of_stop_le (h : p.stop ≤ k) :
    p.counts (values.map (Anchored.movedFrom k n)) = p.counts values := by
  rw [Part.counts, Part.counts, share_of_stop_le h]

/-- A moved part counts as it did. -/
theorem Part.counts_moved (h : k ≤ p.start) :
    (p.moved n).counts (values.map (Anchored.movedFrom k n)) = p.counts values := by
  rw [Part.counts, Part.counts, share_of_le_start h, List.isEmpty_map]
  rfl

end Shares

/-! ## Sections -/

/-- Two sections, where the second one has some parts more between those that count, and the parts behind
them are moved. -/
structure Section.Inserted (k n : Nat) (values : List Anchored) (above more below : List Part)
    (s s' : Section) : Prop where
  old : s.parts.filter (Part.counts values) = above ++ below
  new : s'.parts.filter (Part.counts (values.map (Anchored.movedFrom k n))) =
    above ++ (more ++ below.map (Part.moved n))
  above : ∀ p ∈ above, p.stop ≤ k
  more : ∀ p ∈ more, k ≤ p.start ∧ p.stop ≤ k + n
  below : ∀ p ∈ below, k ≤ p.start
  labels : s'.labels = s.labels

namespace Section.Inserted

variable {k n : Nat} {values : List Anchored} {above more below : List Part} {s s' : Section}
variable (h : Section.Inserted k n values above more below s s')
include h

theorem demandOf_old (label : String) : demandOf label values s.parts =
    (demandOf label values above).append (demandOf label values below) := by
  rw [← demandOf_counts, h.old, demandOf_append]

/-- Some parts more ask for something more, in between. -/
theorem demandOf_new (label : String) :
    demandOf label (values.map (Anchored.movedFrom k n)) s'.parts =
      (demandOf label values above).append
        ((demandOf label (values.map (Anchored.movedFrom k n)) more).append
          (demandOf label values below)) := by
  have habove : demandOf label (values.map (Anchored.movedFrom k n)) above =
      demandOf label values above :=
    demandOf_congr (List.forall₂_same.mpr fun p hp =>
      Part.demand_congr (share_of_stop_le (h.above p hp)))
  have hbelow : demandOf label (values.map (Anchored.movedFrom k n)) (below.map (Part.moved n)) =
      demandOf label values below := by
    refine demandOf_congr (List.forall₂_map_right_iff.mpr (List.forall₂_same.mpr fun p hp => ?_))
    exact Part.demand_moved (share_of_le_start (h.below p hp))
  rw [← demandOf_counts, h.new, demandOf_append, demandOf_append, habove, hbelow]

/-- The values of a part come from a part of the other section. -/
theorem share_cases {p' : Part} {a' : Anchored} (hp' : p' ∈ s'.parts)
    (ha' : a' ∈ p'.share (values.map (Anchored.movedFrom k n))) : ∃ p ∈ s.parts, ∃ a ∈ p.share values,
      a'.role = a.role ∧ p'.label = p.label ∧ p'.block = p.block := by
  have hcounts : p'.counts (values.map (Anchored.movedFrom k n)) = true := by
    by_contra hnot
    rw [(Part.counts_eq_false.mp (Bool.not_eq_true _ ▸ hnot)).2.2] at ha'
    cases ha'
  have hmem : p' ∈ above ++ (more ++ below.map (Part.moved n)) :=
    h.new ▸ List.mem_filter.mpr ⟨hp', hcounts⟩
  have hold {p : Part} (hp : p ∈ above ++ below) : p ∈ s.parts :=
    (List.mem_filter.mp (h.old ▸ hp)).1
  rcases List.mem_append.mp hmem with hp | hp
  · rw [share_of_stop_le (h.above p' hp)] at ha'
    exact ⟨p', hold (List.mem_append_left _ hp), a', ha', rfl, rfl, rfl⟩
  · rcases List.mem_append.mp hp with hp | hp
    · rw [share_of_between (h.more p' hp).1 (h.more p' hp).2] at ha'
      cases ha'
    · obtain ⟨q, hq, rfl⟩ := List.mem_map.mp hp
      rw [share_of_le_start (h.below q hq)] at ha'
      obtain ⟨a, ha, rfl⟩ := List.mem_map.mp ha'
      exact ⟨q, hold (List.mem_append_right _ hq), a, ha, rfl, rfl, rfl⟩

/-- Values that stand in a part stand in one still. -/
theorem exists_holds (hinside : ∀ a ∈ values, ∃ p ∈ s.parts, p.holds a = true) :
    ∀ a ∈ values.map (Anchored.movedFrom k n), ∃ p ∈ s'.parts, p.holds a = true := by
  intro a' ha'
  obtain ⟨a, ha, rfl⟩ := List.mem_map.mp ha'
  obtain ⟨p, hp, hholds⟩ := hinside a ha
  obtain ⟨hstart, hstop⟩ := Part.holds_iff.mp hholds
  have hcounts : p.counts values = true := by
    by_contra hnot
    have hnone := (Part.counts_eq_false.mp (Bool.not_eq_true _ ▸ hnot)).2.2
    have hmem : a ∈ p.share values := List.mem_filter.mpr ⟨ha, hholds⟩
    rw [hnone] at hmem
    cases hmem
  have hnew {q : Part} (hq : q ∈ above ++ (more ++ below.map (Part.moved n))) : q ∈ s'.parts :=
    (List.mem_filter.mp (h.new ▸ hq)).1
  have hmem : p ∈ above ++ below := h.old ▸ List.mem_filter.mpr ⟨hp, hcounts⟩
  rcases List.mem_append.mp hmem with hmem | hmem
  · have hle := h.above p hmem
    refine ⟨p, hnew (List.mem_append_left _ hmem), ?_⟩
    rw [a.movedFrom_of_lt (by omega)]
    exact hholds
  · have hle := h.below p hmem
    refine ⟨p.moved n, hnew (List.mem_append_right _ (List.mem_append_right _
      (List.mem_map_of_mem hmem))), ?_⟩
    rw [a.movedFrom_of_le (by omega), Part.holds_iff]
    simp only [Part.moved, Anchored.index_moved]
    omega

theorem hooksOf_new (label : String) :
    hooksOf label (values.map (Anchored.movedFrom k n)) s'.parts = hooksOf label values s.parts := by
  have hmore : hooksOf label (values.map (Anchored.movedFrom k n)) more = [] :=
    List.flatMap_eq_nil_iff.mpr fun p hp => by
      rw [share_of_between (h.more p hp).1 (h.more p hp).2]
      split <;> rfl
  rw [← hooks_demandOf, h.demandOf_new, ← hooks_demandOf, h.demandOf_old]
  simp only [Demand.append, hooks_demandOf, hmore, List.nil_append]

/-- A label has as many blocks with values as it had. -/
theorem length_valuedBlocks (label : String) :
    (s'.valuedBlocks label (values.map (Anchored.movedFrom k n))).length =
      (s.valuedBlocks label values).length := by
  have hcounted (s : Section) (values : List Anchored) : s.valuedBlocks label values =
      (s.parts.filter (Part.counts values)).filter (Part.valued label values) := by
    rw [List.filter_filter, Section.valuedBlocks]
    refine List.filter_congr fun p _ => ?_
    cases hvalued : p.valued label values with
    | false => rfl
    | true => simp [Part.counts, (Part.valued_iff.mp hvalued).2.1]
  have habove : above.filter (Part.valued label (values.map (Anchored.movedFrom k n))) =
      above.filter (Part.valued label values) := by
    refine List.filter_congr fun p hp => ?_
    rw [Part.valued, Part.valued, share_of_stop_le (h.above p hp)]
  have hmore : more.filter (Part.valued label (values.map (Anchored.movedFrom k n))) = [] := by
    refine List.filter_eq_nil_iff.mpr fun p hp => ?_
    simp [Part.valued, share_of_between (h.more p hp).1 (h.more p hp).2]
  have hbelow : (below.map (Part.moved n)).filter
        (Part.valued label (values.map (Anchored.movedFrom k n))) =
      (below.filter (Part.valued label values)).map (Part.moved n) := by
    rw [List.filter_map]
    refine congrArg (List.map _) (List.filter_congr fun p hp => ?_)
    rw [Function.comp_apply, Part.valued, Part.valued, share_of_le_start (h.below p hp),
      List.isEmpty_map]
    rfl
  rw [hcounted, hcounted, h.new, h.old]
  simp only [List.filter_append, habove, hmore, hbelow, List.length_append, List.length_map,
    List.length_nil, Nat.zero_add]

/-- Where a section is made into expectations, so is the section with more parts, as long as each of its
labels can be. -/
theorem compileExpectations {source source' : List Char} {file : Option String}
    {expects : Table Expectation} {left : List Anchored} (hlaid : s.Laid source)
    (hlaid' : s'.Laid source') (hsorted : Sorted values)
    (hinside : ∀ a ∈ values, ∃ p ∈ s.parts, p.holds a = true)
    (hok : Spec.compileExpectations source file values s = .ok (expects, left)) :
    expectAll (fun label => (demandOf label values s.parts).finish label) s.labels = .ok expects ∧
    Spec.compileExpectations source' file (values.map (Anchored.movedFrom k n)) s' =
      (expectAll (fun label =>
        (demandOf label (values.map (Anchored.movedFrom k n)) s'.parts).finish label) s.labels).map
          fun expects => (expects, []) := by
  obtain ⟨hplaced, hone⟩ := wellPlaced_of_ok hlaid hsorted hok
  have hsorted' := sorted_movedFrom hsorted k n
  have hinside' := h.exists_holds hinside
  have hdealt : s'.Dealt (values.map (Anchored.movedFrom k n)) := by
    refine ⟨fun a ha _ _ _ => hinside' a ha, fun p hp hnone a ha => ?_, fun p hp hblock a ha => ?_,
      fun label => ?_⟩
    · obtain ⟨q, hq, b, hb, hrole, hlabel, -⟩ := h.share_cases hp ha
      have hcallable := hplaced.labelled q hq (hlabel ▸ hnone) b hb
      rwa [Anchored.isCallable, hrole]
    · obtain ⟨q, hq, b, hb, hrole, -, hsame⟩ := h.share_cases hp ha
      rw [hrole]
      exact hplaced.subs q hq (hsame ▸ hblock) b hb
    · rw [h.hooksOf_new]
      exact hplaced.hooks label
  obtain ⟨⟨drafts, left'⟩, hdrafts⟩ :=
    draftsOf_of_dealt hlaid' hsorted' hdealt fun label => h.length_valuedBlocks label ▸ hone label
  obtain rfl : left' = [] := by
    obtain ⟨taken, heq, -, hleft⟩ := draftsOf_left hsorted' hdrafts
    refine List.eq_nil_iff_forall_not_mem.mpr fun a ha => ?_
    obtain ⟨p, hp, hholds⟩ := hinside' a (heq ▸ List.mem_append_right _ ha)
    have hstop := hleft a ha p hp
    have hlt := (Part.holds_iff.mp hholds).2
    omega
  constructor
  · obtain ⟨⟨drafts₀, left₀⟩, hdrafts₀, -⟩ := ok_of_bind hok
    rw [compileExpectations_eq file hlaid hsorted (ok_of_locate hdrafts₀)] at hok
    cases hall : expectAll (fun label => (demandOf label values s.parts).finish label) s.labels with
    | error fault =>
      rw [hall] at hok
      cases hok
    | ok expects' =>
      rw [hall] at hok
      cases hok
      rfl
  · rw [compileExpectations_eq file hlaid' hsorted' hdrafts, h.labels]

end Section.Inserted

end HotSpec.Spec
