import HotSpec.Proofs.Spec.Conservation

/-!
# What is refused

The values of a spec can be refused where they were written: a value in no part, a plain function in
a block, a hook too many, a second block.  Each lemma says of one step of the compiler from which
values its refusals come.

Main results:

- Theorem `blockSteps_error_iff`: a block is refused exactly for a plain function in it.
- Theorem `addHooks_error_iff`: a condition line is refused exactly if its label gets a third hook.
- Theorem `addPart_error`: the refusals of a part.
- Theorem `draftsOf_error`: the part at which a section is refused, with what was read before it.
-/

namespace HotSpec.Spec

open Html (Token)

/-- What is made of a result is refused as the result is. -/
theorem bind_pure_eq_error_iff {ε α β : Type} {x : Except ε α} {f : α → β} {e : ε} :
    (x >>= fun a => pure (f a)) = .error e ↔ x = .error e := by
  cases x with
  | error e' => exact ⟨fun h => congrArg Except.error (Except.error.inj h), fun h => by rw [h]; rfl⟩
  | ok a => exact ⟨fun h => (by cases h), fun h => (by cases h)⟩

/-! ## Values of a range -/

/-- A value that is refused stands in front of the range. -/
theorem shift_error {start stop index : Nat} {queue left : List Anchored}
    (h : shift start stop queue = (.error index, left)) : ∃ a ∈ queue, a.index < start := by
  induction queue generalizing left index with
  | nil => cases h
  | cons a queue ih =>
    rw [shift] at h
    by_cases hbefore : a.index < start
    · exact ⟨a, List.mem_cons_self, hbefore⟩
    · rw [if_neg hbefore] at h
      by_cases hafter : stop ≤ a.index
      · rw [if_pos hafter] at h
        cases h
      · rw [if_neg hafter] at h
        cases hrest : shift start stop queue with
        | mk taken left' =>
          rw [hrest] at h
          cases taken with
          | ok taken => cases h
          | error index' =>
            obtain ⟨b, hb, hlt⟩ := ih hrest
            exact ⟨b, List.mem_cons_of_mem _ hb, hlt⟩

/-- What is left of a queue was in the queue. -/
theorem shift_snd_sublist (start stop : Nat) (queue : List Anchored) :
    (shift start stop queue).2.Sublist queue := by
  induction queue with
  | nil => exact .slnil
  | cons a queue ih =>
    rw [shift]
    split
    · exact .refl _
    · split
      · exact .refl _
      · exact ih.cons a

/-- Values that all stand in the range are taken. -/
theorem shift_of_within {start stop : Nat} {queue : List Anchored}
    (h : ∀ a ∈ queue, start ≤ a.index ∧ a.index < stop) :
    shift start stop queue = (.ok queue, []) := by
  induction queue with
  | nil => rfl
  | cons a queue ih =>
    obtain ⟨hstart, hstop⟩ := h a List.mem_cons_self
    rw [shift, if_neg (by omega), if_neg (by omega), ih fun b hb => h b (List.mem_cons_of_mem _ hb)]
    rfl

/-! ## Blocks -/

theorem textStep_ne_error {p : Part} {left : Nat} {text : List Char} {regexes : List Anchored}
    (h : ∀ a ∈ regexes, p.start ≤ a.index) :
    ∃ steps, textStep p left text regexes =
      .ok (steps, (shift p.start (left + text.length) regexes).2) := by
  unfold textStep
  split
  · next index queue hshift =>
    obtain ⟨a, ha, hlt⟩ := shift_error hshift
    have hle := h a ha
    omega
  · next taken queue hshift =>
    exact ⟨_, by rw [hshift]⟩

/-- The steps of a block are refused exactly for a plain function among its callables. -/
theorem splitSteps_error_iff {p : Part} {left : Nat} {subs regexes : List Anchored}
    (h : ∀ a ∈ regexes, p.start ≤ a.index) :
    (∃ refusal, splitSteps p left subs regexes = .error refusal) ↔
      ∃ a ∈ subs, a.role = .function := by
  induction subs generalizing left regexes with
  | nil =>
    obtain ⟨steps, hsteps⟩ := @textStep_ne_error p left (p.text.drop (left - p.start)) regexes h
    rw [splitSteps, hsteps]
    split <;> simp [Except.map]
  | cons sub subs ih =>
    rw [splitSteps]
    by_cases hrole : sub.role = .function
    · simp [hrole]
    · rw [if_neg hrole]
      have hiff : (∃ a ∈ sub :: subs, a.role = .function) ↔ ∃ a ∈ subs, a.role = .function := by
        simp [hrole]
      rw [hiff]
      split
      · obtain ⟨steps, hsteps⟩ := @textStep_ne_error p left
          ((p.text.take (sub.index - p.start)).drop (left - p.start)) regexes h
        have hrest (stop : Nat) := @ih sub.index (shift p.start stop regexes).2
          fun a ha => h a ((shift_snd_sublist _ _ _).subset ha)
        simp only [hsteps]
        exact (exists_congr fun _ => bind_pure_eq_error_iff).trans (hrest _)
      · exact (exists_congr fun _ => bind_pure_eq_error_iff).trans (ih h)

/-- A block is refused exactly for a plain function that was written inside it. -/
theorem blockSteps_error_iff {p : Part} {values : List Anchored}
    (h : ∀ a ∈ values, p.holds a = true) :
    (∃ refusal, blockSteps p values = .error refusal) ↔ ∃ a ∈ values, a.role = .function := by
  have hcallable (a : Anchored) (ha : a.role = .function) : a.isCallable = true := by
    simp [Anchored.isCallable, ha]
  unfold blockSteps
  rw [splitSteps_error_iff fun a ha => (Part.holds_iff.mp (h a (List.mem_of_mem_filter ha))).1]
  constructor
  · rintro ⟨a, ha, hrole⟩
    exact ⟨a, List.mem_of_mem_filter ha, hrole⟩
  · rintro ⟨a, ha, hrole⟩
    exact ⟨a, List.mem_filter.mpr ⟨ha, hcallable a hrole⟩, hrole⟩

/-! ## Hooks -/

namespace Draft

/-- The hooks of a draft. -/
def hooks (d : Draft) : List Value := d.before.toList ++ d.after.toList

/-- There are two places for hooks, the first of them in front. -/
theorem addHook?_eq {d : Draft} (horder : d.before = none → d.after = none) (hook : Value) :
    (d.hooks.length = 2 ∧ d.addHook? hook = none) ∨
      ∃ d', d.addHook? hook = some d' ∧ d'.hooks = d.hooks ++ [hook] ∧
        (d'.before = none → d'.after = none) := by
  obtain ⟨title, lines, steps, before, after⟩ := d
  cases before with
  | none =>
    obtain rfl : after = none := horder rfl
    exact .inr ⟨_, rfl, rfl, fun h => nomatch h⟩
  | some first =>
    cases after with
    | none => exact .inr ⟨_, rfl, rfl, fun h => nomatch h⟩
    | some second => exact .inl ⟨rfl, rfl⟩

/-- A condition line is refused exactly if its label gets a third hook. -/
theorem addHooks_error_iff {d : Draft} {values : List Anchored}
    (horder : d.before = none → d.after = none) :
    (∃ refusal, d.addHooks values = .error refusal) ↔ 2 < d.hooks.length + values.length := by
  induction values generalizing d with
  | nil =>
    have hle : d.hooks.length ≤ 2 := by
      unfold hooks
      cases d.before <;> cases d.after <;> simp
    simp only [addHooks, reduceCtorEq, exists_false, List.length_nil, false_iff]
    omega
  | cons a values ih =>
    rw [addHooks]
    rcases addHook?_eq horder a.value with ⟨htwo, hnone⟩ | ⟨d', hsome, hhooks, horder'⟩
    · simp only [hnone, List.length_cons]
      exact ⟨fun _ => by omega, fun _ => ⟨_, rfl⟩⟩
    · simp only [hsome, ih horder', hhooks, List.length_append, List.length_cons, List.length_nil]
      omega

/-- The refusals of a part: a second block, a plain function in a block, or a third hook. -/
theorem addPart_error {d : Draft} {p : Part} {values : List Anchored} {refusal : Refusal}
    (horder : d.before = none → d.after = none) (hholds : ∀ a ∈ values, p.holds a = true)
    (h : d.addPart p values = .error refusal) :
    (p.block = true ∧ values ≠ [] ∧ d.steps ≠ none ∧ refusal = (.tooManyBlocks, p.start)) ∨
      (p.block = true ∧ ∃ a ∈ values, a.role = .function) ∨
      (p.block = false ∧ 2 < d.hooks.length + (callablesOf values).length) := by
  obtain ⟨d₀, hd₀, hsteps, hhooks, horder₀⟩ : ∃ d₀ : Draft,
      (if p.title.isSome then { d with title := p.title } else d) = d₀ ∧ d₀.steps = d.steps ∧
        d₀.hooks = d.hooks ∧ (d₀.before = none → d₀.after = none) := by
    refine ⟨_, rfl, ?_⟩
    split <;> exact ⟨rfl, rfl, horder⟩
  unfold addPart at h
  simp only [hd₀] at h
  by_cases hempty : values = []
  · simp [hempty] at h
  · rw [if_neg (by simpa using hempty)] at h
    by_cases hblock : p.block = true
    · rw [if_pos hblock] at h
      split at h
      · next hsome =>
        cases h
        exact .inl ⟨hblock, hempty, by rw [← hsteps]; exact Option.isSome_iff_ne_none.mp hsome, rfl⟩
      · refine .inr (.inl ⟨hblock, (blockSteps_error_iff hholds).mp ?_⟩)
        exact ⟨refusal, bind_pure_eq_error_iff.mp h⟩
    · rw [if_neg hblock] at h
      refine .inr (.inr ⟨by simpa using hblock, ?_⟩)
      rw [applyRegexes_snd] at h
      have hadd := (addHooks_error_iff (by split <;> exact horder₀)).mp ⟨refusal, h⟩
      rw [callablesOf, List.length_map, ← hhooks]
      split at hadd <;> exact hadd

end Draft

/-! ## Sections -/

/-- The part at which a section is refused, with what was read before it. -/
theorem draftsOf_error {drafts : Drafts} {parts : List Part} {queue : List Anchored}
    {refusal : Refusal} (h : draftsOf drafts parts queue = .error refusal) :
    ∃ front p rest drafts' queue', parts = front ++ p :: rest ∧
      draftsOf drafts front queue = .ok (drafts', queue') ∧
      addToDrafts drafts' p queue' = .error refusal := by
  induction parts generalizing drafts queue with
  | nil => cases h
  | cons p parts ih =>
    cases hpart : addToDrafts drafts p queue with
    | error refusal' =>
      rw [draftsOf, hpart] at h
      cases h
      exact ⟨[], p, parts, drafts, queue, rfl, rfl, hpart⟩
    | ok result =>
      rw [draftsOf, hpart] at h
      obtain ⟨front, q, rest, drafts', queue', rfl, hfront, hq⟩ := ih h
      refine ⟨p :: front, q, rest, drafts', queue', rfl, ?_, hq⟩
      rw [draftsOf, hpart]
      exact hfront

/-- What is left of the values when some parts have been read: all that stand behind them. -/
theorem draftsOf_left {drafts drafts' : Drafts} {parts : List Part} {queue left : List Anchored}
    (hsorted : Sorted queue) (h : draftsOf drafts parts queue = .ok (drafts', left)) :
    ∃ taken, queue = taken ++ left ∧ (∀ a ∈ taken, ∃ p ∈ parts, p.holds a = true) ∧
      ∀ a ∈ left, ∀ p ∈ parts, p.stop ≤ a.index := by
  induction parts generalizing drafts queue with
  | nil =>
    cases h
    exact ⟨[], rfl, by simp, by simp⟩
  | cons p parts ih =>
    obtain ⟨⟨drafts₁, queue₁⟩, hpart, hrest⟩ := ok_of_bind h
    obtain ⟨first, hshift, -⟩ := addToDrafts_eq_ok hpart
    obtain ⟨rfl, hrange, hbehind⟩ := shift_eq_ok hsorted hshift
    obtain ⟨second, rfl, hsecond, hleft⟩ := ih (List.pairwise_append.mp hsorted).2.1 hrest
    refine ⟨first ++ second, (List.append_assoc _ _ _).symm, fun a ha => ?_, fun a ha q hq => ?_⟩
    · rcases List.mem_append.mp ha with ha | ha
      · exact ⟨p, List.mem_cons_self, Part.holds_iff.mpr (hrange a ha)⟩
      · obtain ⟨q, hq, hholds⟩ := hsecond a ha
        exact ⟨q, List.mem_cons_of_mem _ hq, hholds⟩
    · rcases List.mem_cons.mp hq with rfl | hq
      · exact hbehind a (List.mem_append_right _ ha)
      · exact hleft a ha q hq

end HotSpec.Spec
