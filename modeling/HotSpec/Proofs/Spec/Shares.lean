import HotSpec.Proofs.Spec.Layout
import HotSpec.Spec.Compile

/-!
# Each part with its values

The values of a spec are dealt out to the parts of the expectations: each part gets the values that
were written inside it.  What a label comes to depends on its own parts and on those without a label.

Main definitions:

- `Part.holds`, `Part.share`: whether a value was written inside a part, and all that were.
- `Draft.read`: the draft of a label after some parts, each with its share.

Main results:

- Theorem `shift_eq_ok`: what is taken off the queue for a part is its share.
- Theorem `addToDrafts_eq_ok`: what a part that is read makes of the drafts and the queue.
- Theorem `draftsOf_spec`: each label has the draft that its parts and their shares make.
-/

namespace HotSpec

/-- A change of all values of a table, seen from one key. -/
theorem Table.get?_map {α β : Type} (t : Table α) (f : α → β) (key : String) :
    Table.get? (t.map fun row => (row.1, f row.2)) key = (t.get? key).map f := by
  induction t with
  | nil => rfl
  | cons row t ih =>
    obtain ⟨k, v⟩ := row
    by_cases h : k = key
    · simp [Table.get?_cons, h]
    · simp [Table.get?_cons, h, ih]

namespace Spec

/-- Values in the order of their offsets. -/
def Sorted (values : List Anchored) : Prop := values.Pairwise fun a b => a.index ≤ b.index

/-- Whether a value was written inside a part. -/
def Part.holds (p : Part) (a : Anchored) : Bool := p.start ≤ a.index && a.index < p.stop

theorem Part.holds_iff {p : Part} {a : Anchored} :
    p.holds a = true ↔ p.start ≤ a.index ∧ a.index < p.stop := by
  simp [Part.holds]

/-- The values that were written inside a part. -/
def Part.share (p : Part) (values : List Anchored) : List Anchored := values.filter p.holds

/-- What is taken off a queue and what is left make up the queue. -/
theorem append_of_shift {start stop : Nat} {queue taken left : List Anchored}
    (h : shift start stop queue = (.ok taken, left)) : queue = taken ++ left := by
  induction queue generalizing taken with
  | nil =>
    cases h
    rfl
  | cons a queue ih =>
    rw [shift] at h
    split at h
    · cases h
    · split at h
      · cases h
        rfl
      · cases hrest : shift start stop queue with
        | mk taken? left' =>
          rw [hrest] at h
          cases taken? with
          | error index => cases h
          | ok taken' =>
            cases h
            rw [ih hrest, List.cons_append]

/-- What is taken off the queue for a range are the values in it; what is left comes after it. -/
theorem shift_eq_ok {start stop : Nat} {queue taken left : List Anchored} (hsorted : Sorted queue)
    (h : shift start stop queue = (.ok taken, left)) :
    queue = taken ++ left ∧ (∀ a ∈ taken, start ≤ a.index ∧ a.index < stop) ∧
      ∀ a ∈ left, stop ≤ a.index := by
  induction queue generalizing taken with
  | nil =>
    rw [shift] at h
    cases h
    simp
  | cons a queue ih =>
    obtain ⟨hfirst, hsorted⟩ := List.pairwise_cons.mp hsorted
    rw [shift] at h
    by_cases hbefore : a.index < start
    · rw [if_pos hbefore] at h
      cases h
    · rw [if_neg hbefore] at h
      by_cases hafter : stop ≤ a.index
      · rw [if_pos hafter] at h
        cases h
        refine ⟨rfl, by simp, fun b hb => ?_⟩
        rcases List.mem_cons.mp hb with rfl | hb
        · exact hafter
        · exact Nat.le_trans hafter (hfirst b hb)
      · rw [if_neg hafter] at h
        cases hrest : shift start stop queue with
        | mk rest left' =>
          rw [hrest] at h
          cases rest with
          | error index => cases h
          | ok rest =>
            cases h
            obtain ⟨heq, hrange, hleft⟩ := ih hsorted hrest
            refine ⟨by rw [heq, List.cons_append], fun b hb => ?_, hleft⟩
            rcases List.mem_cons.mp hb with rfl | hb
            · omega
            · exact hrange b hb

/-- The share of a part whose values stand in front of all others. -/
theorem share_append {p : Part} {taken left : List Anchored} (htaken : ∀ a ∈ taken, p.holds a = true)
    (hleft : ∀ a ∈ left, p.stop ≤ a.index) : p.share (taken ++ left) = taken := by
  have hnone : left.filter p.holds = [] := by
    rw [List.filter_eq_nil_iff]
    intro a ha hholds
    have hstop := hleft a ha
    have hlt := (Part.holds_iff.mp hholds).2
    omega
  rw [Part.share, List.filter_append, List.filter_eq_self.mpr htaken, hnone, List.append_nil]

/-- A later part has none of the values that were written inside an earlier one. -/
theorem share_append_of_le {p q : Part} {taken left : List Anchored} (hpq : p.stop ≤ q.start)
    (htaken : ∀ a ∈ taken, p.holds a = true) : q.share (taken ++ left) = q.share left := by
  have hnone : taken.filter q.holds = [] := by
    rw [List.filter_eq_nil_iff]
    intro a ha hholds
    have hlt := (Part.holds_iff.mp (htaken a ha)).2
    have hstart := (Part.holds_iff.mp hholds).1
    omega
  rw [Part.share, List.filter_append, hnone, List.nil_append, Part.share]

/-! ## The patterns of a text -/

theorem Anchored.isCallable_of_ne {a : Anchored} (h : ∀ r, a.value ≠ .regex r) :
    a.isCallable = true := by
  obtain ⟨index, value⟩ := a
  cases value with
  | regex r => exact absurd rfl (h r)
  | _ => simp only [isCallable, role, roleOf]; split <;> rfl

theorem exists_regex {a : Anchored} (h : a.isCallable = false) : ∃ r, a.value = .regex r := by
  by_contra hnone
  have hcallable := Anchored.isCallable_of_ne fun r hr => hnone ⟨r, hr⟩
  rw [h] at hcallable
  cases hcallable

/-- A pattern divides a text at its offset. -/
theorem applyRegexes_cons_of_regex (start : Nat) (text : List Char) {a : Anchored} {r : Regex}
    (h : a.value = .regex r) (values : List Anchored) :
    let rest := applyRegexes (start + (a.index - start)) (text.drop (a.index - start)) values
    applyRegexes start text (a :: values) =
      (literalToken? (text.take (a.index - start)) ++ .pattern r :: rest.1, rest.2) := by
  simp only [applyRegexes, h]

/-- What is no pattern takes no part in the division of a text. -/
theorem applyRegexes_cons_of_callable (start : Nat) (text : List Char) {a : Anchored}
    (h : a.isCallable = true) (values : List Anchored) : applyRegexes start text (a :: values) =
      ((applyRegexes start text values).1, a :: (applyRegexes start text values).2) := by
  obtain ⟨index, value⟩ := a
  cases value with
  | regex r => cases h
  | _ => rfl

theorem applyRegexes_snd (start : Nat) (text : List Char) (values : List Anchored) :
    (applyRegexes start text values).2 = values.filter Anchored.isCallable := by
  induction values generalizing start text with
  | nil => rfl
  | cons a values ih =>
    cases hcall : a.isCallable with
    | true => rw [applyRegexes_cons_of_callable _ _ hcall, List.filter_cons_of_pos hcall, ih]
    | false =>
      obtain ⟨r, hr⟩ := exists_regex hcall
      rw [applyRegexes_cons_of_regex _ _ hr, List.filter_cons_of_neg (by simp [hcall]), ih]

/-! ## The draft of a label -/

namespace Draft

/-- The draft of a label after a part with the values that were written inside it. -/
def readPart (label : String) (values : List Anchored) (d : Draft) (p : Part) :
    Except Refusal Draft :=
  match p.label with
  | none => .ok (d.addLine (applyRegexes p.start p.text (p.share values)).1)
  | some l => if l = label then d.addPart p (p.share values) else .ok d

/-- The draft of a label after some parts. -/
def read (label : String) (values : List Anchored) : Draft → List Part → Except Refusal Draft
  | d, [] => .ok d
  | d, p :: parts => do
    let d ← d.readPart label values p
    d.read label values parts

theorem readPart_congr {label : String} {values values' : List Anchored} {d : Draft} {p : Part}
    (h : p.share values = p.share values') :
    d.readPart label values p = d.readPart label values' p := by
  unfold readPart
  rw [h]

theorem read_congr {label : String} {values values' : List Anchored} {d : Draft}
    {parts : List Part} (h : ∀ p ∈ parts, p.share values = p.share values') :
    d.read label values parts = d.read label values' parts := by
  induction parts generalizing d with
  | nil => rfl
  | cons p parts ih =>
    have hrest (d : Draft) : d.read label values parts = d.read label values' parts :=
      ih fun q hq => h q (List.mem_cons_of_mem _ hq)
    simp only [read, readPart_congr (h p List.mem_cons_self), hrest]

end Draft

/-- A part that is read takes its values off the queue.  Without a label it becomes a line of each draft,
and holds patterns only; with a label it becomes part of the draft of the label. -/
theorem addToDrafts_eq_ok {drafts drafts' : Drafts} {p : Part} {queue left : List Anchored}
    (h : addToDrafts drafts p queue = .ok (drafts', left)) :
    ∃ taken, shift p.start p.stop queue = (.ok taken, left) ∧
      ((p.label = none ∧ (applyRegexes p.start p.text taken).2 = [] ∧
          drafts' = drafts.map fun row =>
            (row.1, row.2.addLine (applyRegexes p.start p.text taken).1)) ∨
        ∃ label draft, p.label = some label ∧
          ((drafts.get? label).getD .empty).addPart p taken = .ok draft ∧
          drafts' = drafts.put label draft) := by
  unfold addToDrafts at h
  split at h
  · cases h
  · next taken queue' hshift =>
    split at h
    · next hnone =>
      simp only at h
      split at h
      · cases h
      · next hnil =>
        cases h
        exact ⟨taken, hshift, .inl ⟨hnone, hnil, rfl⟩⟩
    · next label hsome =>
      obtain ⟨draft, hdraft, heq⟩ := ok_of_bind h
      cases heq
      exact ⟨taken, hshift, .inr ⟨label, draft, hsome, hdraft, rfl⟩⟩

/-- What one part makes of the drafts: it takes its share, and each draft reads the part. -/
theorem addToDrafts_spec {drafts drafts' : Drafts} {p : Part} {queue left : List Anchored}
    (hsorted : Sorted queue) (h : addToDrafts drafts p queue = .ok (drafts', left))
    (hlabel : ∀ l, p.label = some l → l ∈ drafts.keys) :
    (∃ taken, queue = taken ++ left ∧ (∀ a ∈ taken, p.holds a = true) ∧
      (∀ a ∈ left, p.stop ≤ a.index) ∧
      (p.label = none → ∀ a ∈ taken, a.isCallable = false)) ∧
    drafts'.keys = drafts.keys ∧
    ∀ label d, drafts.get? label = some d →
      ∃ d', d.readPart label queue p = .ok d' ∧ drafts'.get? label = some d' := by
  obtain ⟨taken, hshift, hadded⟩ := addToDrafts_eq_ok h
  obtain ⟨heq, hrange, hleft⟩ := shift_eq_ok hsorted hshift
  have hholds (a : Anchored) (ha : a ∈ taken) : p.holds a = true :=
    Part.holds_iff.mpr (hrange a ha)
  have hshare : p.share queue = taken := by
    rw [heq]
    exact share_append hholds hleft
  rcases hadded with ⟨hnone, hnil, rfl⟩ | ⟨label, draft, hsome, hdraft, rfl⟩
  · rw [applyRegexes_snd] at hnil
    refine ⟨⟨taken, heq, hholds, hleft, fun _ a ha => ?_⟩, ?_, fun label d hd => ?_⟩
    · exact Bool.not_eq_true _ ▸ List.filter_eq_nil_iff.mp hnil a ha
    · simp [Table.keys, Function.comp_def]
    · refine ⟨d.addLine (applyRegexes p.start p.text taken).1, ?_, ?_⟩
      · simp [Draft.readPart, hnone, hshare]
      · have hget := Table.get?_map drafts
          (fun d => d.addLine (applyRegexes p.start p.text taken).1) label
        rw [hd] at hget
        exact hget
  · refine ⟨⟨taken, heq, hholds, hleft, fun hnone => absurd (hsome.symm.trans hnone) (by simp)⟩,
      ?_, fun label' d hd => ?_⟩
    · rw [Table.keys_put, if_pos (hlabel label hsome)]
    · by_cases hsame : label = label'
      · subst hsame
        refine ⟨draft, ?_, ?_⟩
        · simpa [Draft.readPart, hsome, hshare, hd] using hdraft
        · simp
      · exact ⟨d, by simp [Draft.readPart, hsome, hsame], by simpa [hsame] using hd⟩

/-- Each label has the draft that its parts and their shares make, and each value is left or was
written inside a part; what is no pattern was written inside a part with a label. -/
theorem draftsOf_spec {drafts drafts' : Drafts} {parts : List Part} {queue left : List Anchored}
    (hsorted : Sorted queue) (happart : parts.Pairwise fun p q => p.stop ≤ q.start)
    (hlabels : ∀ p ∈ parts, ∀ l, p.label = some l → l ∈ drafts.keys)
    (h : draftsOf drafts parts queue = .ok (drafts', left)) :
    drafts'.keys = drafts.keys ∧
    (∀ label d, drafts.get? label = some d →
      ∃ d', d.read label queue parts = .ok d' ∧ drafts'.get? label = some d') ∧
    ∀ a ∈ queue, a ∈ left ∨
      ∃ p ∈ parts, p.holds a = true ∧ (a.isCallable = true → p.label ≠ none) := by
  induction parts generalizing drafts queue with
  | nil =>
    cases h
    exact ⟨rfl, fun label d hd => ⟨d, rfl, hd⟩, fun a ha => .inl ha⟩
  | cons p parts ih =>
    obtain ⟨⟨drafts₁, queue₁⟩, hpart, hrest⟩ := ok_of_bind h
    obtain ⟨hfirst, happart⟩ := List.pairwise_cons.mp happart
    obtain ⟨⟨taken, heq, hholds, hleft, hplain⟩, hkeys, hread⟩ :=
      addToDrafts_spec hsorted hpart (hlabels p List.mem_cons_self)
    have hsorted₁ : Sorted queue₁ := (List.pairwise_append.mp (heq ▸ hsorted)).2.1
    obtain ⟨ihkeys, ihread, ihholds⟩ := ih hsorted₁ happart
      (fun q hq l hl => hkeys ▸ hlabels q (List.mem_cons_of_mem _ hq) l hl) hrest
    refine ⟨ihkeys.trans hkeys, fun label d hd => ?_, fun a ha => ?_⟩
    · obtain ⟨d₁, hd₁, hget₁⟩ := hread label d hd
      obtain ⟨d₂, hd₂, hget₂⟩ := ihread label d₁ hget₁
      have hcongr : d₁.read label queue parts = d₁.read label queue₁ parts :=
        Draft.read_congr fun q hq => by rw [heq, share_append_of_le (hfirst q hq) hholds]
      refine ⟨d₂, ?_, hget₂⟩
      rw [Draft.read, hd₁]
      exact hcongr.trans hd₂
    · rw [heq] at ha
      rcases List.mem_append.mp ha with ha | ha
      · refine .inr ⟨p, List.mem_cons_self, hholds a ha, fun hcallable hnone => ?_⟩
        exact absurd (hplain hnone a ha) (by simp [hcallable])
      · rcases ihholds a ha with hmem | ⟨q, hq, hqholds⟩
        · exact .inl hmem
        · exact .inr ⟨q, List.mem_cons_of_mem _ hq, hqholds⟩

end Spec

end HotSpec
