import HotSpec.Proofs.Spec.Blocks
import HotSpec.Proofs.Spec.Guarded
import HotSpec.Proofs.Spec.Plain

/-!
# Drafts without mishap

The parts of a section are read within the guards: their values are in order, so each part takes the
values inside it and no others, and each of these cuts the text of its part in two.

Main definitions:

- `BlockStep.given`, `Draft.given`: steps and drafts with their tokens as values.

Main results:

- Theorem `Guarded.tokensOf_eq`: no guard is reached where a text is divided by its patterns.
- Theorem `Guarded.splitSteps_eq`: none is reached where a block is split at its subs.
- Theorem `Guarded.bucketsOf_eq`: none is reached where the parts of a section are read.
-/

namespace HotSpec.Spec

open HotSpec.Text
open Html (Token)

variable {ε : Type}

/-! ## Blocks -/

/-- A step of a block with its tokens as values. -/
def BlockStep.given : BlockStep → Guarded.GivenStep
  | .html tokens => .html (tokens.map Token.toValue)
  | .sub value => .sub value

@[simp]
theorem BlockStep.isHtml_given (step : BlockStep) : step.given.isHtml = step.isHtml := by
  cases step <;> rfl

namespace Guarded

theorem literal?_eq (text : List Char) : literal? text = (literalToken? text).map Token.toValue := by
  unfold literal? literalToken?
  split <;> rfl

/-- No guard is reached where a text is divided by the patterns inside it. -/
theorem tokensOf_eq {start : Nat} {text : List Char} {values : List Anchored} (hsorted : Sorted values)
    (hrange : ∀ a ∈ values, start ≤ a.index ∧ a.index ≤ start + text.length) :
    (tokensOf start text values : Guarded ε (List Value × List Anchored)) =
      .ok ((applyRegexes start text values).1.map Token.toValue,
        (applyRegexes start text values).2) := by
  induction values generalizing start text with
  | nil => rw [tokensOf, applyRegexes, literal?_eq]
  | cons a values ih =>
    obtain ⟨hfirst, hsorted⟩ := List.pairwise_cons.mp hsorted
    have hrest (b : Anchored) (hb : b ∈ values) := hrange b (List.mem_cons_of_mem a hb)
    obtain ⟨hle, hstop⟩ := hrange a List.mem_cons_self
    cases hcall : a.isCallable with
    | false =>
      obtain ⟨r, hr⟩ := exists_regex hcall
      have hrole : a.role = .regex := by
        rw [Anchored.role, hr]
        rfl
      have hcut : a.index - start ≤ text.length := by omega
      have htokens := @ih (start + (a.index - start)) (text.drop (a.index - start)) hsorted
        fun b hb => by
          have hb := hrest b hb
          have hab := hfirst b ‹_›
          rw [List.length_drop]
          omega
      rw [tokensOf, if_pos hrole, minus_eq_ok hle, ok_bind, slice_eq_ok (Nat.zero_le _) hcut, ok_bind,
        slice_eq_ok hcut (Nat.le_refl _), ok_bind, List.take_length, List.drop_zero, htokens]
      simp [applyRegexes_cons_of_regex _ _ hr, hr, literal?_eq, Token.toValue, pure, Except.pure]
    | true =>
      have hrole : a.role ≠ .regex := by simpa [Anchored.isCallable] using hcall
      rw [tokensOf, if_neg hrole, ih hsorted hrest, ok_bind, applyRegexes_cons_of_callable _ _ hcall]
      rfl

theorem textStep_eq {p : Part} {left : Nat} {text : List Char} {regexes : List Anchored}
    (hsorted : Sorted regexes) (hstart : ∀ a ∈ regexes, left ≤ a.index) :
    textStep p left text regexes = lift ((Spec.textStep p left text regexes).map fun result =>
      (result.1.map BlockStep.given, result.2)) := by
  unfold textStep Spec.textStep
  cases hshift : shift p.start (left + text.length) regexes with
  | mk taken? rest =>
    cases taken? with
    | error index => rfl
    | ok taken =>
      obtain ⟨heq, hrange, -⟩ := shift_eq_ok hsorted hshift
      have hsub (a : Anchored) (ha : a ∈ taken) : a ∈ regexes := heq ▸ List.mem_append_left _ ha
      have htokens := @tokensOf_eq Refusal left text taken
        (List.Pairwise.sublist (heq ▸ List.sublist_append_left _ _) hsorted)
        fun a ha => ⟨hstart a (hsub a ha), Nat.le_of_lt (hrange a ha).2⟩
      simp only [htokens, ok_bind, List.isEmpty_map]
      cases htokens : (applyRegexes left text taken).1 <;> rfl

/-- No guard is reached where a block is split at its subs. -/
theorem splitSteps_eq {p : Part} {left : Nat} {subs regexes : List Anchored}
    (hlength : p.text.length = p.stop - p.start) (hstart : p.start ≤ left) (hstop : left ≤ p.stop)
    (hsubs : Sorted subs) (hregexes : Sorted regexes)
    (hsubRange : ∀ a ∈ subs, left ≤ a.index ∧ a.index < p.stop)
    (hregexRange : ∀ a ∈ regexes, left ≤ a.index) (hregex : ∀ a ∈ regexes, a.isCallable = false) :
    splitSteps p left subs regexes =
      lift ((Spec.splitSteps p left subs regexes).map (List.map BlockStep.given)) := by
  induction subs generalizing left regexes with
  | nil =>
    rw [splitSteps, Spec.splitSteps]
    by_cases hlt : left < p.stop
    · rw [if_pos hlt, if_pos hlt, minus_eq_ok hstart, ok_bind, slice_eq_ok (by omega) (Nat.le_refl _),
        ok_bind, List.take_length, textStep_eq hregexes hregexRange]
      cases Spec.textStep p left (p.text.drop (left - p.start)) regexes <;> rfl
    · rw [if_neg hlt, if_neg hlt]
      rfl
  | cons sub subs ih =>
    obtain ⟨hfirst, hsubs⟩ := List.pairwise_cons.mp hsubs
    obtain ⟨hle, hstopSub⟩ := hsubRange sub List.mem_cons_self
    have hlater (a : Anchored) (ha : a ∈ subs) : sub.index ≤ a.index ∧ a.index < p.stop :=
      ⟨hfirst a ha, (hsubRange a (List.mem_cons_of_mem _ ha)).2⟩
    rw [splitSteps, Spec.splitSteps]
    by_cases hfunction : sub.role = .function
    · rw [if_pos hfunction, if_pos hfunction]
      rfl
    · rw [if_neg hfunction, if_neg hfunction]
      by_cases hlt : left < sub.index
      · have hlen : left + ((p.text.take (sub.index - p.start)).drop (left - p.start)).length =
            sub.index := by
          rw [List.length_drop, List.length_take]
          omega
        rw [if_pos hlt, if_pos hlt, minus_eq_ok hstart, ok_bind, minus_eq_ok (by omega), ok_bind,
          slice_eq_ok (by omega) (by omega), ok_bind, textStep_eq hregexes hregexRange]
        apply lift_map_bind
        intro result htext
        obtain ⟨steps, rest⟩ := result
        obtain ⟨taken, rfl, -, hrest, -⟩ := textStep_spec hregexes hregexRange hregex htext
        rw [hlen] at hrest
        have hsplit := ih (by omega) (by omega) hsubs (List.pairwise_append.mp hregexes).2.1 hlater hrest
          fun a ha => hregex a (List.mem_append_right _ ha)
        simp only [hsplit]
        apply lift_map_bind
        intro later _
        simp [BlockStep.given, pure, Except.pure, Except.map]
      · obtain rfl : left = sub.index := by omega
        rw [if_neg hlt, if_neg hlt, ih hstart hstop hsubs hregexes hlater hregexRange hregex]
        apply lift_map_bind
        intro later _
        rfl

theorem blockSteps_eq {p : Part} {values : List Anchored} (hlength : p.text.length = p.stop - p.start)
    (hle : p.start ≤ p.stop) (hsorted : Sorted values) (hholds : ∀ a ∈ values, p.holds a = true) :
    blockSteps p values = lift ((Spec.blockSteps p values).map (List.map BlockStep.given)) := by
  have hrange (a : Anchored) (ha : a ∈ values) := Part.holds_iff.mp (hholds a ha)
  apply splitSteps_eq hlength (Nat.le_refl _) hle
  · exact List.Pairwise.sublist List.filter_sublist hsorted
  · exact List.Pairwise.sublist List.filter_sublist hsorted
  · intro a ha
    exact hrange a (List.mem_of_mem_filter ha)
  · intro a ha
    exact (hrange a (List.mem_of_mem_filter ha)).1
  · intro a ha
    simpa using (List.mem_filter.mp ha).2

end Guarded

/-! ## Drafts -/

/-- A draft with its tokens as values. -/
def Draft.given (d : Draft) : Guarded.Bucket where
  title := d.title
  lines := d.lines.map (List.map Token.toValue)
  steps := d.steps.map fun block => (block.1.map BlockStep.given, block.2)
  before := d.before
  after := d.after

/-- Drafts with their tokens as values. -/
def givenDrafts (drafts : Drafts) : Table Guarded.Bucket :=
  drafts.map fun row => (row.1, row.2.given)

@[simp]
theorem Draft.given_lines (d : Draft) : d.given.lines = d.lines.map (List.map Token.toValue) := rfl

@[simp]
theorem Draft.given_addLine (d : Draft) (line : List Token) :
    (d.addLine line).given = d.given.addLine (line.map Token.toValue) := by
  simp [given, addLine, Guarded.Bucket.addLine]

theorem givenDrafts_put (drafts : Drafts) (label : String) (d : Draft) :
    givenDrafts (drafts.put label d) = (givenDrafts drafts).put label d.given := by
  induction drafts with
  | nil => rfl
  | cons row drafts ih =>
    obtain ⟨key, old⟩ := row
    by_cases h : key = label
    · simp [givenDrafts, Table.put, h]
    · simpa [givenDrafts, Table.put, h] using ih

namespace Guarded

theorem addHooks_eq (d : Draft) (values : List Anchored) :
    d.given.addHooks values = lift ((d.addHooks values).map Draft.given) := by
  induction values generalizing d with
  | nil => rfl
  | cons a values ih =>
    obtain ⟨title, lines, steps, before, after⟩ := d
    cases before with
    | none => exact ih ⟨title, lines, steps, some a.value, after⟩
    | some first =>
      cases after with
      | none => exact ih ⟨title, lines, steps, some first, some a.value⟩
      | some second => rfl

/-- No guard is reached where a part of a label is read. -/
theorem addPart_eq (d : Draft) {source : List Char} {p : Part} {values : List Anchored}
    (hlaid : p.Laid source) (hsorted : Sorted values) (hholds : ∀ a ∈ values, p.holds a = true) :
    d.given.addPart p values = lift ((d.addPart p values).map Draft.given) := by
  have htitle : (if p.title.isSome then { d.given with title := p.title } else d.given) =
      (if p.title.isSome then { d with title := p.title } else d).given := by
    split <;> rfl
  unfold Bucket.addPart Draft.addPart
  simp only [htitle]
  generalize (if p.title.isSome then { d with title := p.title } else d) = titled
  by_cases hempty : values.isEmpty = true
  · simp [hempty, Except.map, Draft.given_addLine, Token.toValue]
  · rw [if_neg hempty, if_neg hempty]
    by_cases hblock : p.block = true
    · have hsome : titled.given.steps.isSome = titled.steps.isSome := by simp [Draft.given]
      rw [if_pos hblock, if_pos hblock, hsome]
      by_cases hsteps : titled.steps.isSome = true
      · rw [if_pos hsteps, if_pos hsteps]
        rfl
      · rw [if_neg hsteps, if_neg hsteps, blockSteps_eq hlaid.length hlaid.le hsorted hholds]
        apply lift_map_bind
        intro steps _
        simp [Draft.given, pure, Except.pure, Except.map]
    · have htokens := @tokensOf_eq Refusal p.start p.text values hsorted fun a ha => by
        have hrange := Part.holds_iff.mp (hholds a ha)
        have hlength := hlaid.length
        omega
      rw [if_neg hblock, if_neg hblock, htokens]
      simp only [ok_bind, List.isEmpty_map]
      split
      · exact addHooks_eq _ _
      · rw [← Draft.given_addLine]
        exact addHooks_eq _ _

theorem addToBuckets_eq {source : List Char} {drafts : Drafts} {p : Part} {queue : List Anchored}
    (hlaid : p.Laid source) (hsorted : Sorted queue)
    (hlabel : ∀ label, p.label = some label → label ∈ drafts.keys) :
    addToBuckets (givenDrafts drafts) p queue =
      lift ((addToDrafts drafts p queue).map fun result => (givenDrafts result.1, result.2)) := by
  unfold addToBuckets addToDrafts
  cases hshift : shift p.start p.stop queue with
  | mk taken? left =>
    cases taken? with
    | error index => rfl
    | ok taken =>
      obtain ⟨heq, hrange, -⟩ := shift_eq_ok hsorted hshift
      have htaken : Sorted taken := List.Pairwise.sublist (heq ▸ List.sublist_append_left _ _) hsorted
      cases hname : p.label with
      | none =>
        have htokens := @tokensOf_eq Refusal p.start p.text taken htaken fun a ha => by
          have hrange := hrange a ha
          have hlength := hlaid.length
          omega
        simp only [htokens, ok_bind]
        cases (applyRegexes p.start p.text taken).2 with
        | cons value values => rfl
        | nil => simp [givenDrafts, Draft.given_addLine, pure, Except.pure, Except.map]
      | some label =>
        obtain ⟨d, hd⟩ := Table.exists_of_mem_keys (hlabel label hname)
        have hgiven : (givenDrafts drafts).get? label = some d.given := by
          rw [givenDrafts, Table.get?_map, hd]
          rfl
        simp only [find_eq_ok hgiven, ok_bind, hd, Option.getD_some,
          addPart_eq d hlaid htaken fun a ha => Part.holds_iff.mpr (hrange a ha)]
        apply lift_map_bind
        intro draft _
        simp [givenDrafts_put, pure, Except.pure, Except.map]

/-- No guard is reached where the parts of a section are read. -/
theorem bucketsOf_eq {source : List Char} {drafts : Drafts} {parts : List Part}
    {queue : List Anchored} (hlaid : ∀ p ∈ parts, p.Laid source) (hsorted : Sorted queue)
    (hlabels : ∀ p ∈ parts, ∀ label, p.label = some label → label ∈ drafts.keys) :
    bucketsOf (givenDrafts drafts) parts queue =
      lift ((draftsOf drafts parts queue).map fun result => (givenDrafts result.1, result.2)) := by
  induction parts generalizing drafts queue with
  | nil => rfl
  | cons p parts ih =>
    rw [bucketsOf, draftsOf, addToBuckets_eq (hlaid p List.mem_cons_self) hsorted
      (hlabels p List.mem_cons_self)]
    apply lift_map_bind
    intro result hadd
    obtain ⟨drafts', left⟩ := result
    obtain ⟨⟨taken, heq, -, -, -⟩, hkeys, -⟩ :=
      addToDrafts_spec hsorted hadd (hlabels p List.mem_cons_self)
    apply ih
    · intro q hq
      exact hlaid q (List.mem_cons_of_mem _ hq)
    · exact List.Pairwise.sublist (heq ▸ List.sublist_append_right _ _) hsorted
    · intro q hq
      rw [hkeys]
      exact hlabels q (List.mem_cons_of_mem _ hq)

/-- Without a draft for each label, a guard is reached. -/
example : bucketsOf [] [⟨some "1", [], 0, 0, false, none⟩] [] = .error (.missing "1") := rfl

end Guarded

end HotSpec.Spec
