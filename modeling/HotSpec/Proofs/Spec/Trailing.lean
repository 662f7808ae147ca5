import HotSpec.Proofs.Html.Matching
import HotSpec.Proofs.Spec.Alongside

/-!
# A line break at the end of what is expected

What a label expects is the same whether or not its last line ends in a break: the normal form of HTML
has no blanks at its end, and a break adds no token.

Main definitions:

- `Trailing`: tokens, and the tokens of the same text with a break at its end.
- `Draft.InOrder`: a draft whose block stands among its lines.
- `Draft.Trailing`: drafts whose last lines differ by a break at the end.

Main results:

- Theorem `normal_append_break`: a break at the end does not change the normal form.
- Theorem `Draft.Trailing.finish`: drafts that differ by a break make the same expectation.
- Theorem `together_addToDrafts`: a part, with a break at its end or without, makes such drafts.
-/

namespace HotSpec.Html

/-- A break at the end does not change the normal form. -/
theorem normal_append_break (text : List Char) : normalChars (text ++ ['\n']) = normalChars text :=
  normalChars_append_of_blank (by decide) text

end HotSpec.Html

namespace HotSpec.Spec

open HotSpec.Text
open Html (Token Expected)

/-! ## Tokens -/

/-- The tokens of a text, and those of the text with a break at its end. -/
inductive Trailing : List Token → List Token → Prop
  | refl (tokens : List Token) : Trailing tokens tokens
  | last (front : List Token) (text : List Char) :
      Trailing (front ++ [.literal (String.ofList text)])
        (front ++ [.literal (String.ofList (text ++ ['\n']))])

theorem Trailing.append {tokens tokens' : List Token} (h : Trailing tokens tokens')
    (front : List Token) : Trailing (front ++ tokens) (front ++ tokens') := by
  cases h with
  | refl => exact .refl _
  | last middle text =>
    rw [← List.append_assoc, ← List.append_assoc]
    exact .last _ _

theorem Trailing.isEmpty {tokens tokens' : List Token} (h : Trailing tokens tokens') :
    tokens.isEmpty = tokens'.isEmpty := by
  cases h with
  | refl => rfl
  | last front => cases front <;> rfl

/-- What is expected in the end is the same with a break at the end. -/
theorem Trailing.ofLines {tokens tokens' : List Token} (h : Trailing tokens tokens')
    (lines : List (List Token)) :
    Expected.ofLines (lines ++ [tokens]) = Expected.ofLines (lines ++ [tokens']) := by
  have happend := h.append lines.flatten
  unfold Expected.ofLines
  simp only [List.flatten_append, List.flatten_singleton]
  generalize lines.flatten ++ tokens = all, lines.flatten ++ tokens' = all' at happend
  cases happend with
  | refl => rfl
  | last front text =>
    have hnormal (text : List Char) : Html.normal (String.ofList (text ++ ['\n'])) =
        Html.normal (String.ofList text) := by
      simp only [Html.normal, String.toList_ofList, Html.normal_append_break]
    simp only [List.all_append, List.all_cons, Token.isLiteral, List.all_nil, Bool.and_true]
    split
    · have hjoin (text : List Char) :
          String.join ((front ++ [Token.literal (String.ofList text)]).map Token.text) =
            String.ofList ((front.flatMap fun token => token.text.toList) ++ text) := by
        simp [String.join_eq, Token.text, List.flatMap_def, Function.comp_def]
      rw [hjoin, hjoin, ← List.append_assoc, hnormal]
    · simp only [Expected.normal, List.filterMap_append, List.filterMap_cons, Token.normal?, hnormal]

/-- A break at the end adds no token. -/
theorem trailing_literalToken? (text : List Char) :
    Trailing (literalToken? text) (literalToken? (text ++ ['\n'])) := by
  have hblank : blank (text ++ ['\n']) = blank text := by
    rw [blank, List.all_append]
    simp [blank, show isBlank '\n' = true by decide]
  unfold literalToken?
  rw [hblank]
  split
  · exact .refl _
  · exact .last [] text

/-- The patterns of a text divide it in the same way with a break at its end. -/
theorem trailing_applyRegexes {start : Nat} {text : List Char} {values : List Anchored}
    (h : ∀ a ∈ values, a.index ≤ start + text.length) :
    Trailing (applyRegexes start text values).1 (applyRegexes start (text ++ ['\n']) values).1 := by
  induction values generalizing start text with
  | nil => exact trailing_literalToken? text
  | cons a values ih =>
    have hfirst := h a List.mem_cons_self
    have hrest (b : Anchored) (hb : b ∈ values) := h b (List.mem_cons_of_mem _ hb)
    cases hcall : a.isCallable with
    | true =>
      rw [applyRegexes_cons_of_callable _ _ hcall, applyRegexes_cons_of_callable _ _ hcall]
      exact ih hrest
    | false =>
      obtain ⟨r, hr⟩ := exists_regex hcall
      have hcut : a.index - start ≤ text.length := by omega
      rw [applyRegexes_cons_of_regex _ _ hr, applyRegexes_cons_of_regex _ _ hr,
        List.take_append_of_le_length hcut, List.drop_append_of_le_length hcut]
      have htail := @ih (start + (a.index - start)) (text.drop (a.index - start)) fun b hb => by
        have hb := hrest b hb
        rw [List.length_drop]
        omega
      exact (htail.append [.pattern r]).append (literalToken? (text.take (a.index - start)))

/-! ## Drafts -/

namespace Draft

/-- A draft whose block, if it has one, stands among its lines. -/
def InOrder (d : Draft) : Prop := ∀ steps index, d.steps = some (steps, index) → index ≤ d.lines.length

theorem inOrder_empty : empty.InOrder := by
  intro steps index h
  cases h

theorem InOrder.addLine {d : Draft} (h : d.InOrder) (tokens : List Token) :
    (d.addLine tokens).InOrder := by
  intro steps index hsteps
  have hle := h steps index hsteps
  simp only [Draft.addLine, List.length_append]
  omega

/-- Hooks have nothing to do with lines. -/
theorem addHooks_addLine (d : Draft) (tokens : List Token) (values : List Anchored) :
    (d.addLine tokens).addHooks values = (d.addHooks values).map (·.addLine tokens) := by
  induction values generalizing d with
  | nil => rfl
  | cons a values ih =>
    have hhook : (d.addLine tokens).addHook? a.value = (d.addHook? a.value).map (·.addLine tokens) := by
      obtain ⟨title, lines, steps, before, after⟩ := d
      cases before with
      | none => rfl
      | some _ => cases after <;> rfl
    rw [addHooks, addHooks, hhook]
    cases d.addHook? a.value with
    | none => rfl
    | some d' => exact ih d'

theorem InOrder.addHooks {d d' : Draft} {values : List Anchored} (h : d.InOrder)
    (hhooks : d.addHooks values = .ok d') : d'.InOrder := by
  induction values generalizing d with
  | nil =>
    cases hhooks
    exact h
  | cons a values ih =>
    rw [Draft.addHooks] at hhooks
    cases hhook : d.addHook? a.value with
    | none =>
      rw [hhook] at hhooks
      cases hhooks
    | some d₁ =>
      rw [hhook] at hhooks
      refine ih ?_ hhooks
      unfold addHook? at hhook
      split at hhook <;> cases hhook <;> exact h

/-- A block is put behind the lines that are there. -/
theorem InOrder.addPart {d d' : Draft} {p : Part} {values : List Anchored} (h : d.InOrder)
    (hpart : d.addPart p values = .ok d') : d'.InOrder := by
  unfold Draft.addPart at hpart
  have htitled : (if p.title.isSome then { d with title := p.title } else d).InOrder := by
    split
    · exact h
    · exact h
  revert hpart htitled
  generalize (if p.title.isSome then { d with title := p.title } else d) = titled
  intro hpart htitled
  simp only at hpart
  split at hpart
  · cases hpart
    exact htitled.addLine _
  · split at hpart
    · split at hpart
      · cases hpart
      · obtain ⟨steps, -, heq⟩ := ok_of_bind hpart
        cases heq
        intro steps' index hsteps
        cases hsteps
        exact Nat.le_refl _
    · refine InOrder.addHooks ?_ hpart
      split
      · exact htitled
      · exact htitled.addLine _

/-- Drafts whose last lines differ by a break at the end, if they differ at all. -/
inductive Trailing : Draft → Draft → Prop
  | refl (d : Draft) : Trailing d d
  | last {d : Draft} {tokens tokens' : List Token} (horder : d.InOrder)
      (htokens : Spec.Trailing tokens tokens') : Trailing (d.addLine tokens) (d.addLine tokens')

/-- Drafts that differ by a break at the end make the same expectation. -/
theorem Trailing.finish {d d' : Draft} (h : d.Trailing d') (label : String) :
    d.finish label = d'.finish label := by
  cases h with
  | refl => rfl
  | @last d tokens tokens' horder htokens =>
    unfold Draft.finish Draft.hasHtml
    simp only [Draft.addLine, htokens.ofLines, List.any_append, List.any_cons, htokens.isEmpty]
    cases hsteps : d.steps with
    | none => rfl
    | some found =>
      obtain ⟨steps, index⟩ := found
      have hle := horder steps index hsteps
      have haround (block : List Token) :
          Expected.ofLines ((d.lines ++ [tokens]).take index ++ block :: (d.lines ++ [tokens]).drop index) =
            Expected.ofLines
              ((d.lines ++ [tokens']).take index ++ block :: (d.lines ++ [tokens']).drop index) := by
        simp only [List.take_append_of_le_length hle, List.drop_append_of_le_length hle]
        have hofLines := htokens.ofLines (d.lines.take index ++ block :: d.lines.drop index)
        simpa using hofLines
      simp only [haround]

/-- A part with a break more at its end makes a draft that differs by it. -/
theorem together_addPart {d : Draft} {p : Part} {values : List Anchored} (horder : d.InOrder)
    (hblock : p.block = false) (hvalues : ∀ a ∈ values, a.index ≤ p.start + p.text.length)
    (stop : Nat) :
    Together Eq Trailing (d.addPart p values)
      (d.addPart { p with text := p.text ++ ['\n'], stop := stop } values) := by
  have htitled : (if p.title.isSome then { d with title := p.title } else d).InOrder := by
    split
    · exact horder
    · exact horder
  unfold Draft.addPart
  revert htitled
  generalize (if p.title.isSome then { d with title := p.title } else d) = titled
  intro htitled
  simp only [hblock]
  by_cases hempty : values.isEmpty = true
  · rw [if_pos hempty, if_pos hempty]
    exact .ok (.last htitled (.last [] p.text))
  · rw [if_neg hempty, if_neg hempty]
    have htokens := trailing_applyRegexes hvalues
    have hcallables : (applyRegexes p.start (p.text ++ ['\n']) values).2 =
        (applyRegexes p.start p.text values).2 := by
      rw [applyRegexes_snd, applyRegexes_snd]
    rw [hcallables, ← htokens.isEmpty]
    simp only [Bool.false_eq_true, if_false]
    by_cases hnone : (applyRegexes p.start p.text values).1.isEmpty = true
    · rw [if_pos hnone, if_pos hnone]
      cases titled.addHooks (applyRegexes p.start p.text values).2 with
      | error refusal => exact .error rfl
      | ok d' => exact .ok (.refl d')
    · rw [if_neg hnone, if_neg hnone, addHooks_addLine, addHooks_addLine]
      cases hhooks : titled.addHooks (applyRegexes p.start p.text values).2 with
      | error refusal => exact .error rfl
      | ok d' => exact .ok (.last (htitled.addHooks hhooks) htokens)

end Draft

/-! ## All labels -/

/-- Drafts of the same labels, each of which differs by a break at the end, if at all. -/
def TrailingDrafts : Drafts → Drafts → Prop := Table.Rel fun _ => Draft.Trailing

theorem trailingDrafts_refl (drafts : Drafts) : TrailingDrafts drafts drafts :=
  Table.rel_refl fun row _ => .refl row.2

/-- Drafts that differ by a break at the end make the same expectations. -/
theorem finishDrafts_trailing {drafts drafts' : Drafts} (h : TrailingDrafts drafts drafts') :
    finishDrafts drafts = finishDrafts drafts' := by
  induction h with
  | nil => rfl
  | @cons row row' _ _ hrow _ ih =>
    obtain ⟨label, d⟩ := row
    obtain ⟨label', d'⟩ := row'
    obtain ⟨rfl, htrailing⟩ := hrow
    rw [finishDrafts, finishDrafts, ih, htrailing.finish]

/-- The draft of each label is in order. -/
def InOrder (drafts : Drafts) : Prop := ∀ row ∈ drafts, row.2.InOrder

/-- Before any part is read, the drafts are in order. -/
theorem inOrder_start (labels : List String) :
    InOrder (labels.map fun label => (label, Draft.empty)) := by
  intro row hrow
  obtain ⟨label, -, rfl⟩ := List.mem_map.mp hrow
  exact Draft.inOrder_empty

/-- The draft that a label has so far is in order. -/
theorem InOrder.get? {drafts : Drafts} (h : InOrder drafts) (label : String) :
    ((drafts.get? label).getD .empty).InOrder := by
  cases hget : drafts.get? label with
  | none => exact Draft.inOrder_empty
  | some d => exact h _ (Table.mem_of_get? hget)

theorem InOrder.addToDrafts {drafts drafts' : Drafts} {p : Part} {queue left : List Anchored}
    (h : InOrder drafts) (hadd : addToDrafts drafts p queue = .ok (drafts', left)) :
    InOrder drafts' := by
  obtain ⟨taken, -, ⟨-, -, rfl⟩ | ⟨label, draft, -, hdraft, rfl⟩⟩ := addToDrafts_eq_ok hadd
  · intro row hrow
    obtain ⟨old, hold, rfl⟩ := List.mem_map.mp hrow
    exact (h old hold).addLine _
  · intro row hrow
    rcases Table.mem_put hrow with hrow | rfl
    · exact h row hrow
    · exact (h.get? _).addPart hdraft

theorem InOrder.draftsOf {drafts drafts' : Drafts} {parts : List Part} {queue left : List Anchored}
    (h : InOrder drafts) (hdrafts : draftsOf drafts parts queue = .ok (drafts', left)) :
    InOrder drafts' := by
  induction parts generalizing drafts queue with
  | nil =>
    cases hdrafts
    exact h
  | cons p parts ih =>
    obtain ⟨⟨drafts₁, queue₁⟩, hadd, hrest⟩ := ok_of_bind hdrafts
    exact ih (h.addToDrafts hadd) hrest

theorem addToDrafts_suffix {drafts drafts' : Drafts} {p : Part} {queue left : List Anchored}
    (h : addToDrafts drafts p queue = .ok (drafts', left)) : left <:+ queue := by
  obtain ⟨taken, hshift, -⟩ := addToDrafts_eq_ok h
  exact ⟨taken, (append_of_shift hshift).symm⟩

/-- Where all values stand in front of an offset, a range may end at it or behind it. -/
theorem shift_stop {start size : Nat} {queue : List Anchored} (h : ∀ a ∈ queue, a.index < size) :
    shift start (size + 1) queue = shift start size queue := by
  induction queue with
  | nil => rfl
  | cons a queue ih =>
    have hfirst := h a List.mem_cons_self
    rw [shift, shift, ih fun b hb => h b (List.mem_cons_of_mem _ hb),
      if_neg (show ¬ size + 1 ≤ a.index by omega), if_neg (show ¬ size ≤ a.index by omega)]

/-- The last part of a source makes drafts that differ by a break at the end, if the source has one
more. -/
theorem together_addToDrafts {drafts : Drafts} {p : Part} {queue : List Anchored}
    (horder : InOrder drafts) (hblock : p.block = false) (hlength : p.stop ≤ p.start + p.text.length)
    (hqueue : ∀ a ∈ queue, a.index < p.stop) :
    Together Eq (fun x x' => TrailingDrafts x.1 x'.1 ∧ x.2 = x'.2) (addToDrafts drafts p queue)
      (addToDrafts drafts { p with text := p.text ++ ['\n'], stop := p.stop + 1 } queue) := by
  unfold Spec.addToDrafts
  simp only [shift_stop hqueue]
  cases hshift : shift p.start p.stop queue with
  | mk taken? left =>
    cases taken? with
    | error index => exact .error rfl
    | ok taken =>
      have hvalues : ∀ a ∈ taken, a.index ≤ p.start + p.text.length := by
        intro a ha
        have hlt := hqueue a (append_of_shift hshift ▸ List.mem_append_left _ ha)
        omega
      cases hlabel : p.label with
      | none =>
        have hcallables : (applyRegexes p.start (p.text ++ ['\n']) taken).2 =
            (applyRegexes p.start p.text taken).2 := by
          rw [applyRegexes_snd, applyRegexes_snd]
        simp only [hcallables]
        cases (applyRegexes p.start p.text taken).2 with
        | cons value values => exact .error rfl
        | nil =>
          refine .ok ⟨?_, rfl⟩
          unfold TrailingDrafts Table.Rel
          rw [List.forall₂_map_left_iff, List.forall₂_map_right_iff, List.forall₂_same]
          intro row hrow
          exact ⟨rfl, .last (horder row hrow) (trailing_applyRegexes hvalues)⟩
      | some label =>
        have hpart := Draft.together_addPart (horder.get? label) hblock hvalues (p.stop + 1)
        rw [hlabel] at hpart
        exact hpart.bind fun d d' hd => .ok ⟨(trailingDrafts_refl drafts).put hd, rfl⟩

/-- Parts of a section of which the last one may have a break more at its end. -/
inductive TrailingParts (size : Nat) : List Part → List Part → Prop
  | refl (parts : List Part) : TrailingParts size parts parts
  | last (front : List Part) {p : Part} (hblock : p.block = false) (hstop : p.stop = size)
      (hlength : p.stop ≤ p.start + p.text.length) :
      TrailingParts size (front ++ [p])
        (front ++ [{ p with text := p.text ++ ['\n'], stop := p.stop + 1 }])

/-- The drafts of a section differ by a break at the end, if its last part does. -/
theorem together_draftsOf {size : Nat} {drafts : Drafts} {parts parts' : List Part}
    {queue : List Anchored} (h : TrailingParts size parts parts') (horder : InOrder drafts)
    (hqueue : ∀ a ∈ queue, a.index < size) :
    Together Eq (fun x x' => TrailingDrafts x.1 x'.1 ∧ x.2 = x'.2) (draftsOf drafts parts queue)
      (draftsOf drafts parts' queue) := by
  cases h with
  | refl =>
    cases draftsOf drafts parts queue with
    | error refusal => exact .error rfl
    | ok x => exact .ok ⟨trailingDrafts_refl x.1, rfl⟩
  | @last front p hblock hstop hlength =>
    subst hstop
    induction front generalizing drafts queue with
    | nil =>
      refine (together_addToDrafts horder hblock hlength hqueue).bind fun x x' hx => ?_
      exact .ok hx
    | cons q front ih =>
      rw [List.cons_append, List.cons_append, draftsOf, draftsOf]
      cases hadd : addToDrafts drafts q queue with
      | error refusal => exact .error rfl
      | ok x =>
        apply ih
        · exact horder.addToDrafts hadd
        · intro a ha
          exact hqueue a ((addToDrafts_suffix hadd).subset ha)

end HotSpec.Spec
