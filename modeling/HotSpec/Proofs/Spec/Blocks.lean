import HotSpec.Proofs.Spec.Shares
import HotSpec.Proofs.Spec.Weave
import Mathlib

/-!
# The steps of a block

A block is read back off its steps: the tokens of its HTML and its subs, in order, are the texts and
the values of the block as it was written, but for one thing.  Where a pattern and a sub were written
at the same offset, the sub comes first.

Main definitions:

- `Reading`, `Piece.reading?`, `BlockStep.readings`: what a piece stands for, and what a step asserts
  or does.
- `merged`: subs and patterns in the order in which a block takes them.
- `Anchored.InFront`: by offset, and at one offset subs in front of patterns.

Main results:

- Theorem `splitSteps_spec`: the steps of a block from an offset on.
- Theorem `blockSteps_spec`: the steps of a block.
- Theorem `merged_eq_insertionSort`: the order in which a block takes its values.
-/

namespace HotSpec.Spec

open HotSpec.Text
open Html (Token Expected)

/-! ## Readings -/

/-- One thing that a step asserts or does: a token of its HTML, or a sub. -/
inductive Reading
  | token (token : Token)
  | sub (sub : Value)

/-- What a piece stands for; a blank text stands for nothing. -/
def Piece.reading? : Piece → Option Reading
  | .text chars => if blank chars then none else some (.token (.literal (String.ofList chars)))
  | .value (.regex r) => some (.token (.pattern r))
  | .value v => some (.sub v)

/-- What a step of a block asserts or does, in order. -/
def BlockStep.readings : BlockStep → List Reading
  | .html tokens => tokens.map .token
  | .sub v => [.sub v]

/-- What a text cut at its values stands for. -/
def readingsOf (pieces : List Piece) : List Reading := pieces.filterMap Piece.reading?

theorem readingsOf_cons (p : Piece) (pieces : List Piece) :
    readingsOf (p :: pieces) = p.reading?.toList ++ readingsOf pieces := by
  unfold readingsOf
  cases h : p.reading? with
  | none => simp [h]
  | some r => simp [h]

theorem readingsOf_append (first second : List Piece) :
    readingsOf (first ++ second) = readingsOf first ++ readingsOf second :=
  List.filterMap_append

theorem reading?_text (text : List Char) :
    (Piece.text text).reading?.toList = (literalToken? text).map Reading.token := by
  simp only [Piece.reading?, literalToken?]
  split <;> rfl

theorem reading?_callable {a : Anchored} (h : a.isCallable = true) :
    (Piece.value a.value).reading? = some (.sub a.value) := by
  obtain ⟨index, value⟩ := a
  cases value with
  | regex r => cases h
  | _ => rfl

/-- A text divided by patterns stands for its pieces. -/
theorem readings_applyRegexes {start : Nat} (text : List Char) {regexes : List Anchored}
    (hsorted : Sorted regexes) (hstart : ∀ a ∈ regexes, start ≤ a.index)
    (hregex : ∀ a ∈ regexes, a.isCallable = false) :
    (applyRegexes start text regexes).1.map Reading.token =
      readingsOf (weave start text regexes) := by
  induction regexes generalizing start text with
  | nil =>
    rw [weave, readingsOf_cons, reading?_text]
    exact (List.append_nil _).symm
  | cons a regexes ih =>
    obtain ⟨hfirst, hsorted⟩ := List.pairwise_cons.mp hsorted
    obtain ⟨r, hr⟩ := exists_regex (hregex a List.mem_cons_self)
    have hle := hstart a List.mem_cons_self
    have hrest := ih (text.drop (a.index - start)) hsorted hfirst
      fun b hb => hregex b (List.mem_cons_of_mem _ hb)
    have hcut : start + (a.index - start) = a.index := by omega
    simp only [applyRegexes_cons_of_regex _ _ hr, weave, readingsOf_cons, reading?_text, List.map_append,
      List.map_cons, hcut, hr]
    rw [hrest]
    rfl

/-- A text that no pattern divides is one token at most. -/
theorem length_applyRegexes {start : Nat} {text : List Char} {values : List Anchored}
    (h : (applyRegexes start text values).1.all Token.isLiteral = true) :
    (applyRegexes start text values).1.length ≤ 1 := by
  induction values generalizing start text with
  | nil =>
    unfold applyRegexes literalToken?
    split <;> simp
  | cons a values ih =>
    obtain ⟨index, value⟩ := a
    unfold applyRegexes at h ⊢
    split at h
    · simp [Token.isLiteral] at h
    · exact ih h

/-! ## Steps -/

/-- A step of HTML with tokens, which is one literal if no pattern divides it. -/
def BlockStep.Divided : BlockStep → Prop
  | .html tokens => tokens ≠ [] ∧ (tokens.all Token.isLiteral = true → tokens.length = 1)
  | .sub _ => True

/-- The step made of a text takes the patterns up to the end of the text. -/
theorem textStep_spec {p : Part} {left : Nat} {text : List Char} {regexes rest : List Anchored}
    {steps : List BlockStep} (hsorted : Sorted regexes)
    (hstart : ∀ a ∈ regexes, left ≤ a.index) (hregex : ∀ a ∈ regexes, a.isCallable = false)
    (h : textStep p left text regexes = .ok (steps, rest)) :
    ∃ taken, regexes = taken ++ rest ∧ (∀ a ∈ taken, a.index < left + text.length) ∧
      (∀ a ∈ rest, left + text.length ≤ a.index) ∧
      steps.flatMap BlockStep.readings = readingsOf (weave left text taken) ∧
      ∀ s ∈ steps, s.Divided := by
  unfold textStep at h
  split at h
  · cases h
  · next taken rest' hshift =>
    obtain ⟨heq, hrange, hrest⟩ := shift_eq_ok hsorted hshift
    obtain ⟨rfl, rfl⟩ := Prod.mk.inj (Except.ok.inj h)
    have hsub : ∀ a ∈ taken, a ∈ regexes := fun a ha => heq ▸ List.mem_append_left _ ha
    have hsortedTaken : Sorted taken := (List.pairwise_append.mp (heq ▸ hsorted)).1
    have hreadings := readings_applyRegexes text hsortedTaken
      (fun a ha => hstart a (hsub a ha)) fun a ha => hregex a (hsub a ha)
    refine ⟨taken, heq, fun a ha => (hrange a ha).2, hrest, ?_, fun s hs => ?_⟩
    · rw [← hreadings]
      by_cases hempty : (applyRegexes left text taken).1 = []
      · simp [hempty]
      · simp [hempty, BlockStep.readings]
    · split at hs
      · cases hs
      · next hne =>
        rw [List.mem_singleton.mp hs]
        have hpos : (applyRegexes left text taken).1 ≠ [] := by simpa using hne
        refine ⟨hpos, fun hall => ?_⟩
        have hle := length_applyRegexes hall
        have hlt := List.length_pos_iff.mpr hpos
        omega

/-- The step that a step of a block makes, with lines around its HTML. -/
def BlockStep.finish (above below : List (List Token)) : BlockStep → Step
  | .html tokens => .html (Expected.ofLines (above ++ tokens :: below))
  | .sub value => .sub value

/-- The expectation of a label without a block asks for its lines. -/
theorem Draft.finish_of_none {d : Draft} (h : d.steps = none) (label : String) :
    d.finish label = .ok ⟨d.title, d.before, d.after, [.html (Expected.ofLines d.lines)]⟩ := by
  rw [finish, h]

/-- The expectation of a label with a block takes its steps, with the lines of the label around them. -/
theorem Draft.finish_of_some {d : Draft} {steps : List BlockStep} {index : Nat}
    (h : d.steps = some (steps, index)) (label : String) : d.finish label =
      if d.hasHtml && !steps.any BlockStep.isHtml then .error (.spec (.ignoredHtml label) none)
      else .ok ⟨d.title, d.before, d.after,
        steps.map (BlockStep.finish (d.lines.take index) (d.lines.drop index))⟩ := by
  rw [finish, h]
  rfl

/-- Subs and patterns in the order in which a block takes them: in front of each sub the patterns of
smaller offsets. -/
def merged : (subs regexes : List Anchored) → List Anchored
  | [], regexes => regexes
  | sub :: subs, regexes =>
    regexes.takeWhile (·.index < sub.index) ++
      sub :: merged subs (regexes.dropWhile (·.index < sub.index))

/-- Where the patterns are cut at an offset, that is where a sub of this offset is merged in. -/
theorem merged_cons (sub : Anchored) (subs : List Anchored) {taken rest : List Anchored}
    (htaken : ∀ a ∈ taken, a.index < sub.index) (hrest : ∀ a ∈ rest, sub.index ≤ a.index) :
    merged (sub :: subs) (taken ++ rest) = taken ++ sub :: merged subs rest := by
  have htake : (taken ++ rest).takeWhile (·.index < sub.index) = taken := by
    rw [List.takeWhile_append_of_pos fun a ha => by simpa using htaken a ha]
    cases rest with
    | nil => simp
    | cons a rest => simp [hrest a List.mem_cons_self]
  have hdrop : (taken ++ rest).dropWhile (·.index < sub.index) = rest := by
    rw [List.dropWhile_append_of_pos fun a ha => by simpa using htaken a ha]
    cases rest with
    | nil => rfl
    | cons a rest => simp [hrest a List.mem_cons_self]
  rw [merged, htake, hdrop]

/-- Up to a sub, a block stands for its text in front of the sub, with the patterns there. -/
theorem readings_merged_cons {p : Part} {left : Nat} {taken rest : List Anchored} (sub : Anchored)
    (subs : List Anchored) (hstart : p.start ≤ left) (hle : left ≤ sub.index)
    (hsorted : Sorted taken) (hrange : ∀ a ∈ taken, left ≤ a.index ∧ a.index < sub.index)
    (hrest : ∀ a ∈ rest, sub.index ≤ a.index) (hcallable : sub.isCallable = true) :
    readingsOf (weave left (p.text.drop (left - p.start)) (merged (sub :: subs) (taken ++ rest))) =
      readingsOf (weave left ((p.text.take (sub.index - p.start)).drop (left - p.start)) taken) ++
        .sub sub.value ::
          readingsOf (weave sub.index (p.text.drop (sub.index - p.start)) (merged subs rest)) := by
  have hcut : sub.index - p.start - (left - p.start) = sub.index - left := by omega
  have hjoin : left - p.start + (sub.index - left) = sub.index - p.start := by omega
  have hbounds : ∀ a ∈ taken ++ [sub], left ≤ a.index :=
    List.forall_mem_append.mpr ⟨fun a ha => (hrange a ha).1, List.forall_mem_singleton.mpr hle⟩
  have hfirst : Sorted (taken ++ [sub]) :=
    List.pairwise_append.mpr ⟨hsorted, List.pairwise_singleton _ _, fun a ha b hb =>
      List.mem_singleton.mp hb ▸ Nat.le_of_lt (hrange a ha).2⟩
  rw [merged_cons sub subs (fun a ha => (hrange a ha).2) hrest, weave_append _ _ _ _ _ hfirst hbounds,
    List.drop_drop, hjoin, List.drop_take, hcut, readingsOf_append, readingsOf_cons,
    reading?_callable hcallable]
  rfl

/-- Behind its last sub, a block is one text with the patterns that are left. -/
theorem splitSteps_nil_spec {p : Part} {left : Nat} {regexes : List Anchored}
    {steps : List BlockStep} (hlength : p.text.length = p.stop - p.start)
    (hstart : p.start ≤ left) (hregexes : Sorted regexes)
    (hrange : ∀ a ∈ regexes, left ≤ a.index ∧ a.index < p.stop)
    (hregex : ∀ a ∈ regexes, a.isCallable = false)
    (h : splitSteps p left [] regexes = .ok steps) :
    steps.flatMap BlockStep.readings =
        readingsOf (weave left (p.text.drop (left - p.start)) regexes) ∧
      ∀ s ∈ steps, s.Divided := by
  have hdrop : (p.text.drop (left - p.start)).length = p.stop - left := by
    rw [List.length_drop, hlength]
    omega
  rw [splitSteps] at h
  split at h
  · next hlt =>
    cases htext : textStep p left (p.text.drop (left - p.start)) regexes with
    | error refusal => simp [htext, Except.map] at h
    | ok result =>
      obtain ⟨steps', rest⟩ := result
      rw [htext] at h
      obtain rfl := Except.ok.inj h
      obtain ⟨taken, heq, -, hge, hreadings, hdivided⟩ :=
        textStep_spec hregexes (fun a ha => (hrange a ha).1) hregex htext
      -- no pattern stands behind the end of the block
      have hnil : rest = [] := List.eq_nil_iff_forall_not_mem.mpr fun a ha => by
        have hstop := (hrange a (heq ▸ List.mem_append_right _ ha)).2
        have hafter := hge a ha
        omega
      rw [hnil, List.append_nil] at heq
      rw [heq]
      exact ⟨hreadings, hdivided⟩
  · next hend =>
    cases h
    have hnil : regexes = [] := List.eq_nil_iff_forall_not_mem.mpr fun a ha => by
      have hbounds := hrange a ha
      omega
    have htext : p.text.drop (left - p.start) = [] := List.length_eq_zero_iff.mp (by omega)
    rw [hnil, htext]
    exact ⟨rfl, by simp⟩

/-- The steps of a block from an offset on are read as the rest of the block, with its values as they
are merged. -/
theorem splitSteps_spec {p : Part} {left : Nat} {subs regexes : List Anchored}
    {steps : List BlockStep} (hlength : p.text.length = p.stop - p.start)
    (hstart : p.start ≤ left) (hstop : left ≤ p.stop) (hsubs : Sorted subs)
    (hregexes : Sorted regexes) (hsubRange : ∀ a ∈ subs, left ≤ a.index ∧ a.index < p.stop)
    (hregexRange : ∀ a ∈ regexes, left ≤ a.index ∧ a.index < p.stop)
    (hcallable : ∀ a ∈ subs, a.isCallable = true) (hregex : ∀ a ∈ regexes, a.isCallable = false)
    (h : splitSteps p left subs regexes = .ok steps) :
    steps.flatMap BlockStep.readings =
        readingsOf (weave left (p.text.drop (left - p.start)) (merged subs regexes)) ∧
      ∀ s ∈ steps, s.Divided := by
  induction subs generalizing left regexes steps with
  | nil => exact splitSteps_nil_spec hlength hstart hregexes hregexRange hregex h
  | cons sub subs ih =>
    obtain ⟨hfirst, hsubs⟩ := List.pairwise_cons.mp hsubs
    obtain ⟨hrange, hsubRange⟩ := List.forall_mem_cons.mp hsubRange
    obtain ⟨hcall, hcallable⟩ := List.forall_mem_cons.mp hcallable
    rw [splitSteps] at h
    split at h
    · cases h
    · split at h
      · next hlt =>
        obtain ⟨⟨steps₁, rest⟩, htext, h⟩ := ok_of_bind h
        obtain ⟨steps₂, hsplit, heq⟩ := ok_of_bind h
        cases heq
        have hlen : left + ((p.text.take (sub.index - p.start)).drop (left - p.start)).length =
            sub.index := by
          rw [List.length_drop, List.length_take, hlength]
          omega
        obtain ⟨taken, rfl, htaken, hge, hreadings, hdivided⟩ :=
          textStep_spec hregexes (fun a ha => (hregexRange a ha).1) hregex htext
        rw [hlen] at htaken hge
        obtain ⟨hsorted, hsortedRest, -⟩ := List.pairwise_append.mp hregexes
        obtain ⟨hrangeTaken, hrangeRest⟩ := List.forall_mem_append.mp hregexRange
        obtain ⟨hrest, hdividedRest⟩ := ih (by omega) (by omega) hsubs hsortedRest
          (fun a ha => ⟨hfirst a ha, (hsubRange a ha).2⟩)
          (fun a ha => ⟨hge a ha, (hrangeRest a ha).2⟩) hcallable
          (List.forall_mem_append.mp hregex).2 hsplit
        rw [readings_merged_cons sub subs hstart hrange.1 hsorted
          (fun a ha => ⟨(hrangeTaken a ha).1, htaken a ha⟩) hge hcall, List.flatMap_append,
          List.flatMap_cons, hreadings, hrest]
        exact ⟨rfl, List.forall_mem_append.mpr
          ⟨hdivided, List.forall_mem_cons.mpr ⟨trivial, hdividedRest⟩⟩⟩
      · next hge =>
        obtain ⟨steps₂, hsplit, heq⟩ := ok_of_bind h
        cases heq
        -- the sub stands where the steps begin, with no text in front of it
        obtain rfl : sub.index = left := by omega
        obtain ⟨hrest, hdividedRest⟩ := ih hstart hstop hsubs hregexes
          (fun a ha => ⟨hfirst a ha, (hsubRange a ha).2⟩) hregexRange hcallable hregex hsplit
        have hafter : ∀ a ∈ regexes, sub.index ≤ a.index := fun a ha => (hregexRange a ha).1
        have hmerged := readings_merged_cons sub subs hstart (Nat.le_refl _) List.Pairwise.nil
          (List.forall_mem_nil _) hafter hcall
        rw [List.nil_append, List.drop_take, Nat.sub_self, List.take_zero] at hmerged
        rw [hmerged, List.flatMap_cons, hrest]
        exact ⟨rfl, List.forall_mem_cons.mpr ⟨trivial, hdividedRest⟩⟩

/-- The steps of a block are read as the block, with its values as they are merged. -/
theorem blockSteps_spec {p : Part} {values : List Anchored} {steps : List BlockStep}
    (hlength : p.text.length = p.stop - p.start) (hle : p.start ≤ p.stop) (hsorted : Sorted values)
    (hholds : ∀ a ∈ values, p.holds a = true) (h : blockSteps p values = .ok steps) :
    steps.flatMap BlockStep.readings = readingsOf (weave p.start p.text
        (merged (values.filter Anchored.isCallable) (values.filter (!·.isCallable)))) ∧
      ∀ s ∈ steps, s.Divided := by
  have hspec := splitSteps_spec hlength (Nat.le_refl _) hle
    (List.Pairwise.sublist List.filter_sublist hsorted)
    (List.Pairwise.sublist List.filter_sublist hsorted)
    (fun a ha => Part.holds_iff.mp (hholds a (List.mem_of_mem_filter ha)))
    (fun a ha => Part.holds_iff.mp (hholds a (List.mem_of_mem_filter ha)))
    (fun a ha => (List.mem_filter.mp ha).2)
    (fun a ha => by simpa using (List.mem_filter.mp ha).2) h
  simpa using hspec

/-! ## The order of the values -/

/-- The order in which a block takes its values: by offset, and at one offset subs in front of
patterns. -/
def Anchored.InFront (a b : Anchored) : Prop :=
  a.index < b.index ∨ a.index = b.index ∧ (a.isCallable = true ∨ b.isCallable = false)

instance : DecidableRel Anchored.InFront := fun a b => by
  unfold Anchored.InFront
  infer_instance

theorem filter_merged {subs regexes : List Anchored} (hcallable : ∀ a ∈ subs, a.isCallable = true)
    (hregex : ∀ a ∈ regexes, a.isCallable = false) :
    (merged subs regexes).filter Anchored.isCallable = subs ∧
      (merged subs regexes).filter (!·.isCallable) = regexes := by
  induction subs generalizing regexes with
  | nil => simpa [merged] using hregex
  | cons sub subs ih =>
    have hsplit := List.takeWhile_append_dropWhile (p := (·.index < sub.index)) (l := regexes)
    have htake : ∀ a ∈ regexes.takeWhile (·.index < sub.index), a.isCallable = false := fun a ha =>
      hregex a (List.takeWhile_subset _ ha)
    obtain ⟨ihsubs, ihregexes⟩ :=
      @ih (regexes.dropWhile (·.index < sub.index))
        (fun a ha => hcallable a (List.mem_cons_of_mem _ ha))
        (fun a ha => hregex a ((List.dropWhile_sublist _).subset ha))
    have hsub := hcallable sub List.mem_cons_self
    rw [merged, List.filter_append, List.filter_append, List.filter_cons_of_pos hsub,
      List.filter_cons_of_neg (by simp [hsub]), ihsubs, ihregexes]
    constructor
    · rw [List.filter_eq_nil_iff.mpr (by simpa using htake), List.nil_append]
    · rw [List.filter_eq_self.mpr (by simpa using htake), hsplit]

/-- A pattern that stands in front of all others is merged in behind the subs of its offset. -/
theorem merged_regex {a : Anchored} {subs regexes : List Anchored} (ha : a.isCallable = false)
    (hcallable : ∀ b ∈ subs, b.isCallable = true) (hregex : ∀ b ∈ regexes, b.isCallable = false)
    (hsubs : ∀ b ∈ subs, a.index ≤ b.index) (hregexes : ∀ b ∈ regexes, a.index ≤ b.index) :
    merged subs (a :: regexes) = (merged subs regexes).orderedInsert Anchored.InFront a := by
  have hfront {b : Anchored} (hb : b ∈ regexes) : a.InFront b := by
    rcases Nat.lt_or_eq_of_le (hregexes b hb) with hlt | heq
    · exact .inl hlt
    · exact .inr ⟨heq, .inr (hregex b hb)⟩
  induction subs with
  | nil =>
    cases regexes with
    | nil => rfl
    | cons b regexes =>
      rw [merged, merged, List.orderedInsert_cons_of_le _ _ (hfront List.mem_cons_self)]
  | cons sub subs ih =>
    have hle := hsubs sub List.mem_cons_self
    by_cases hlt : a.index < sub.index
    · have hcons : merged (sub :: subs) (a :: regexes) = a :: merged (sub :: subs) regexes := by
        simp [merged, hlt]
      rw [hcons, merged]
      cases htake : regexes.takeWhile (·.index < sub.index) with
      | nil => rw [List.nil_append, List.orderedInsert_cons_of_le _ _ (.inl hlt)]
      | cons b taken =>
        have hb : b ∈ regexes := List.takeWhile_subset _ (htake ▸ List.mem_cons_self)
        rw [List.cons_append, List.orderedInsert_cons_of_le _ _ (hfront hb)]
    · have heq : a.index = sub.index := by omega
      have hrest := merged_cons sub subs (List.forall_mem_nil _)
        fun b hb => heq ▸ hregexes b hb
      have hall := @merged_cons sub subs [] (a :: regexes) (List.forall_mem_nil _) fun b hb => by
          rcases List.mem_cons.mp hb with rfl | hb
          · exact Nat.le_of_eq heq.symm
          · exact heq ▸ hregexes b hb
      have hbehind : ¬ a.InFront sub := by
        simp [Anchored.InFront, heq, ha, hcallable sub List.mem_cons_self]
      rw [List.nil_append] at hrest hall
      rw [hrest, hall, List.nil_append, List.nil_append, List.orderedInsert_of_not_le _ _ hbehind,
        ih (fun b hb => hcallable b (List.mem_cons_of_mem _ hb))
          fun b hb => hsubs b (List.mem_cons_of_mem _ hb)]

/-- A block takes its values sorted by offset, with the subs of an offset in front. -/
theorem merged_eq_insertionSort {values : List Anchored} (hsorted : Sorted values) :
    merged (values.filter Anchored.isCallable) (values.filter (!·.isCallable)) =
      values.insertionSort Anchored.InFront := by
  induction values with
  | nil => rfl
  | cons a values ih =>
    obtain ⟨hfirst, hsorted⟩ := List.pairwise_cons.mp hsorted
    by_cases hcall : a.isCallable = true
    · have hfront : ∀ b ∈ values, a.InFront b := fun b hb => by
        rcases Nat.lt_or_eq_of_le (hfirst b hb) with hlt | heq
        · exact .inl hlt
        · exact .inr ⟨heq, .inl hcall⟩
      have hmerged := @merged_cons a (values.filter Anchored.isCallable) []
        (values.filter (!·.isCallable)) (List.forall_mem_nil _)
        fun b hb => hfirst b (List.mem_of_mem_filter hb)
      rw [List.insertionSort_cons_of_forall_rel _ hfront, ← ih hsorted,
        List.filter_cons_of_pos hcall, List.filter_cons_of_neg (by simp [hcall])]
      exact hmerged
    · have hregex : a.isCallable = false := by simpa using hcall
      rw [List.insertionSort_cons, ← ih hsorted, List.filter_cons_of_neg hcall,
        List.filter_cons_of_pos (by simp [hregex])]
      exact merged_regex hregex (fun b hb => (List.mem_filter.mp hb).2)
        (fun b hb => by simpa using (List.mem_filter.mp hb).2)
        (fun b hb => hfirst b (List.mem_of_mem_filter hb))
        fun b hb => hfirst b (List.mem_of_mem_filter hb)

end HotSpec.Spec
