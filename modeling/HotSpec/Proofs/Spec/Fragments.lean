import HotSpec.Proofs.Spec.Places

/-!
# What the expectations assert

A part of the expectations, cut at the values that were written inside it, is made of fragments: texts
that are not blank, and patterns.  Where the expectations have a label, each fragment is asserted by a
step of HTML.  Where they have none, nothing is asserted at all, and nothing is refused either.

Main definitions:

- `Fragment`: a text or a pattern that was written in the expectations.
- `Expected.Asserts`, `Asserted`: HTML that asks for a fragment, and a fragment that a step asks for.

Main results:

- Theorem `within_applyRegexes`: each fragment of a line is within one of its tokens.
- Theorem `holds_readPart`: the draft of a label holds the fragments of each part that it reads.
- Theorem `asserts_finish`: an expectation asks for all that its draft holds.
- Theorem `asserted_iff_labels`: fragments are asserted exactly if the expectations have a label.
-/

namespace HotSpec

namespace Html

/-- A token that is part of another one. -/
inductive Token.Within : Token → Token → Prop
  | literal {text whole : String} (h : text.toList <:+: whole.toList) :
    Within (.literal text) (.literal whole)
  | pattern (regex : Regex) : Within (.pattern regex) (.pattern regex)

theorem Token.Within.refl (t : Token) : t.Within t := by
  cases t with
  | literal text => exact .literal (List.infix_refl _)
  | pattern regex => exact .pattern regex

theorem Token.Within.trans {t u v : Token} (h : t.Within u) (h' : u.Within v) : t.Within v := by
  cases h with
  | literal h =>
    cases h' with
    | literal h' => exact .literal (h.trans h')
  | pattern => exact h'

/-- HTML that asks for a token, in normal form: as part of its text, or of one of its tokens. -/
def Expected.Asserts (t : Token) : Expected → Prop
  | .exact html => ∃ whole, html = Html.normal whole ∧ t.Within (.literal whole)
  | .tokens ts => ∃ whole, t.Within whole ∧ ∃ form ∈ ts, whole.normal? = some form

end Html

namespace Spec

open HotSpec.Text
open Html (Token Expected)

/-! ## Fragments -/

/-- A text or a pattern that was written in the expectations: a part, cut at its values, holds it. -/
def Fragment (source : Source) (s : Section) (t : Token) : Prop :=
  ∃ p ∈ s.parts, Reading.token t ∈ readingsOf (weave p.start p.text (p.share source.values))

/-- A fragment that a step of HTML of some label asks for. -/
def Asserted (expects : Table Expectation) (t : Token) : Prop :=
  ∃ label e html, expects.get? label = some e ∧ .html html ∈ e.steps ∧ html.Asserts t

/-- A text that a token is made of is visible if part of it is. -/
theorem visible_of_within {t u : Token} (h : t.Within u) (ht : (Reading.token t).Visible) :
    (Reading.token u).Visible := by
  cases h with
  | pattern => exact ht
  | @literal text whole h =>
    intro text' heq
    cases heq
    have hvisible := ht text rfl
    simp only [blank, List.all_eq_false] at hvisible ⊢
    obtain ⟨c, hc, hblank⟩ := hvisible
    exact ⟨c, h.subset hc, hblank⟩

/-- Lines of tokens ask for all that is in one of them. -/
theorem asserts_ofLines {lines : List (List Token)} {t u : Token} (hu : u ∈ lines.flatten)
    (htu : t.Within u) (ht : (Reading.token t).Visible) : (Expected.ofLines lines).Asserts t := by
  unfold Expected.ofLines
  simp only
  split
  · next hall =>
    have hliteral := List.all_eq_true.mp hall u hu
    cases u with
    | pattern r => cases hliteral
    | literal whole =>
      refine ⟨_, rfl, htu.trans (.literal ?_)⟩
      have hmem : whole ∈ lines.flatten.map Token.text := List.mem_map.mpr ⟨_, hu, rfl⟩
      rw [String.toList_join, List.flatMap_def]
      exact List.infix_of_mem_flatten (List.mem_map_of_mem hmem)
  · refine ⟨u, htu, ?_⟩
    cases u with
    | pattern r => exact ⟨_, List.mem_filterMap.mpr ⟨_, hu, rfl⟩, rfl⟩
    | literal whole =>
      have hne := Html.normal_ne_empty (visible_of_within htu ht whole rfl)
      rw [String.ofList_toList] at hne
      have hform : Token.normal? (.literal whole) = some (.literal (Html.normal whole)) := by
        simp [Token.normal?, hne]
      exact ⟨_, List.mem_filterMap.mpr ⟨_, hu, hform⟩, hform⟩

/-! ## Fragments of a line -/

theorem token_mem_map {tokens : List Token} {t : Token} :
    Reading.token t ∈ tokens.map Reading.token ↔ t ∈ tokens :=
  List.mem_map_of_injective fun _ _ h => Reading.token.inj h

/-- A text that is part of another one stands for part of what that stands for. -/
theorem within_text {text whole : List Char} (h : text <:+: whole) {t : Token}
    (ht : .token t ∈ (Piece.text text).reading?.toList) :
    ∃ u, .token u ∈ (Piece.text whole).reading?.toList ∧ t.Within u := by
  simp only [Piece.reading?] at ht ⊢
  split at ht
  · cases ht
  · next hvisible =>
    obtain rfl : t = .literal (String.ofList text) := by simpa using ht
    have hwhole : ¬ blank whole = true := by
      rw [blank, List.all_eq_true] at hvisible ⊢
      exact fun hall => hvisible fun c hc => hall c (h.subset hc)
    exact ⟨.literal (String.ofList whole), by simp [hwhole], .literal (by simpa using h)⟩

/-- Where a text is not cut at a callable, the fragments around it are parts of a longer one. -/
theorem within_uncut {start : Nat} {text : List Char} {a : Anchored} {values : List Anchored}
    (ha : a.isCallable = true) (hstart : start ≤ a.index) (hvalues : ∀ b ∈ values, a.index ≤ b.index)
    {t : Token} (ht : .token t ∈ readingsOf (weave start text (a :: values))) :
    ∃ u, .token u ∈ readingsOf (weave start text values) ∧ t.Within u := by
  rw [weave, readingsOf_cons, readingsOf_cons, reading?_callable ha, List.mem_append, List.mem_append] at ht
  have htext {x y : List Char} {pieces : List Piece} (hxy : x <:+: y)
      (ht : .token t ∈ (Piece.text x).reading?.toList) :
      ∃ u, .token u ∈ readingsOf (.text y :: pieces) ∧ t.Within u := by
    obtain ⟨u, hu, htu⟩ := within_text hxy ht
    exact ⟨u, by rw [readingsOf_cons]; exact List.mem_append_left _ hu, htu⟩
  cases values with
  | nil =>
    rcases ht with ht | ht | ht
    · exact htext (List.take_prefix _ _).isInfix ht
    · cases List.mem_singleton.mp ht
    · rw [weave, readingsOf_cons, readingsOf, List.filterMap_nil, List.append_nil] at ht
      exact htext (List.drop_suffix _ _).isInfix ht
  | cons b values =>
    have hab := hvalues b List.mem_cons_self
    rcases ht with ht | ht | ht
    · refine htext (List.IsPrefix.isInfix ?_) ht
      exact List.take_prefix_take_left (by omega)
    · cases List.mem_singleton.mp ht
    · rw [weave, readingsOf_cons, List.mem_append] at ht
      rcases ht with ht | ht
      · refine htext (List.IsSuffix.isInfix ?_) ht
        rw [show b.index - a.index = b.index - start - (a.index - start) by omega, ← List.drop_take]
        exact List.drop_suffix _ _
      · rw [List.drop_drop, show a.index - start + (b.index - a.index) = b.index - start by omega] at ht
        exact ⟨t, by rw [weave, readingsOf_cons]; exact List.mem_append_right _ ht, .refl t⟩

/-- Each fragment of a line is within one of its tokens. -/
theorem within_applyRegexes {start : Nat} {text : List Char} {values : List Anchored}
    (hsorted : Sorted values) (hstart : ∀ a ∈ values, start ≤ a.index) {t : Token}
    (ht : .token t ∈ readingsOf (weave start text values)) :
    ∃ u ∈ (applyRegexes start text values).1, t.Within u := by
  induction values generalizing start text t with
  | nil =>
    rw [weave, readingsOf_cons, reading?_text, readingsOf, List.filterMap_nil, List.append_nil,
      token_mem_map] at ht
    exact ⟨t, ht, .refl t⟩
  | cons a values ih =>
    obtain ⟨hfirst, hsorted⟩ := List.pairwise_cons.mp hsorted
    have hle := hstart a List.mem_cons_self
    by_cases hcallable : a.isCallable = true
    · obtain ⟨u, hu, htu⟩ := within_uncut hcallable hle hfirst ht
      obtain ⟨v, hv, huv⟩ := ih hsorted (fun b hb => hstart b (List.mem_cons_of_mem _ hb)) hu
      exact ⟨v, by rwa [applyRegexes_cons_of_callable _ _ hcallable], htu.trans huv⟩
    · obtain ⟨r, hr⟩ := exists_regex (Bool.not_eq_true _ ▸ hcallable)
      have hcut : start + (a.index - start) = a.index := by omega
      have htokens : (applyRegexes start text (a :: values)).1 =
          literalToken? (text.take (a.index - start)) ++ .pattern r ::
            (applyRegexes a.index (text.drop (a.index - start)) values).1 := by
        rw [applyRegexes_cons_of_regex _ _ hr, hcut]
      rw [weave, readingsOf_cons, readingsOf_cons, reading?_text, hr, List.mem_append,
        List.mem_append] at ht
      rw [htokens]
      rcases ht with ht | ht | ht
      · exact ⟨t, List.mem_append_left _ (token_mem_map.mp ht), .refl t⟩
      · cases List.mem_singleton.mp ht
        exact ⟨_, List.mem_append_right _ List.mem_cons_self, .pattern r⟩
      · obtain ⟨u, hu, htu⟩ := ih hsorted hfirst ht
        exact ⟨u, List.mem_append_right _ (List.mem_cons_of_mem _ hu), htu⟩

/-! ## Fragments of a block -/

/-- Where a value is inserted among others of the same offset, the offsets stay in their order. -/
theorem index_orderedInsert {a : Anchored} {values : List Anchored}
    (hvalues : ∀ b ∈ values, a.index ≤ b.index) :
    (values.orderedInsert Anchored.InFront a).map Anchored.index =
      a.index :: values.map Anchored.index := by
  induction values with
  | nil => rfl
  | cons b values ih =>
    have hab := hvalues b List.mem_cons_self
    by_cases hfront : a.InFront b
    · rw [List.orderedInsert_cons_of_le _ _ hfront, List.map_cons]
    · have heq : a.index = b.index := by
        unfold Anchored.InFront at hfront
        omega
      rw [List.orderedInsert_of_not_le _ _ hfront, List.map_cons,
        ih fun c hc => hvalues c (List.mem_cons_of_mem _ hc), List.map_cons, heq]

theorem index_insertionSort {values : List Anchored} (hsorted : Sorted values) :
    (values.insertionSort Anchored.InFront).map Anchored.index = values.map Anchored.index := by
  induction values with
  | nil => rfl
  | cons a values ih =>
    obtain ⟨hfirst, hsorted⟩ := List.pairwise_cons.mp hsorted
    rw [List.insertionSort_cons, index_orderedInsert, ih hsorted, List.map_cons]
    exact fun b hb => hfirst b ((List.mem_insertionSort _).mp hb)

/-- The text of a piece. -/
def Piece.text? : Piece → Option (List Char)
  | .text chars => some chars
  | .value _ => none

theorem Piece.mem_texts {pieces : List Piece} {chars : List Char} :
    chars ∈ pieces.filterMap Piece.text? ↔ .text chars ∈ pieces := by
  rw [List.mem_filterMap]
  constructor
  · rintro ⟨piece, hmem, heq⟩
    cases piece <;> cases heq
    exact hmem
  · exact fun hmem => ⟨_, hmem, rfl⟩

theorem Piece.mem_values {pieces : List Piece} {v : Value} :
    v ∈ pieces.filterMap Piece.value? ↔ .value v ∈ pieces := by
  rw [List.mem_filterMap]
  constructor
  · rintro ⟨piece, hmem, heq⟩
    cases piece <;> cases heq
    exact hmem
  · exact fun hmem => ⟨_, hmem, rfl⟩

/-- The texts of a weave depend on nothing but the offsets of its values. -/
theorem texts_weave {start : Nat} {text : List Char} {values others : List Anchored}
    (h : others.map Anchored.index = values.map Anchored.index) :
    (weave start text others).filterMap Piece.text? = (weave start text values).filterMap Piece.text? := by
  induction values generalizing start text others with
  | nil => rw [List.map_eq_nil_iff.mp h]
  | cons a values ih =>
    cases others with
    | nil => cases h
    | cons b others =>
      obtain ⟨hindex, hrest⟩ := List.cons.inj h
      simp [weave, List.filterMap_cons, Piece.text?, hindex, ih hrest]

/-- Where values change places that have the same offset, the fragments stay what they are. -/
theorem token_mem_weave {start : Nat} {text : List Char} {values others : List Anchored}
    (hindex : others.map Anchored.index = values.map Anchored.index) (hperm : others.Perm values)
    {t : Token} (ht : .token t ∈ readingsOf (weave start text values)) :
    .token t ∈ readingsOf (weave start text others) := by
  obtain ⟨piece, hmem, hreading⟩ := List.mem_filterMap.mp ht
  refine List.mem_filterMap.mpr ⟨piece, ?_, hreading⟩
  cases piece with
  | text chars => rwa [← Piece.mem_texts, texts_weave hindex, Piece.mem_texts]
  | value v =>
    rw [← Piece.mem_values, values_weave] at hmem ⊢
    exact (hperm.map Anchored.value).mem_iff.mpr hmem

/-- Each fragment of a block is a token of one of its steps. -/
theorem token_mem_blockSteps {p : Part} {values : List Anchored} {steps : List BlockStep}
    (hlength : p.text.length = p.stop - p.start) (hle : p.start ≤ p.stop) (hsorted : Sorted values)
    (hholds : ∀ a ∈ values, p.holds a = true) (h : blockSteps p values = .ok steps) {t : Token}
    (ht : .token t ∈ readingsOf (weave p.start p.text values)) :
    ∃ tokens, BlockStep.html tokens ∈ steps ∧ t ∈ tokens := by
  obtain ⟨hreadings, -⟩ := blockSteps_spec hlength hle hsorted hholds h
  have hmem := token_mem_weave (index_insertionSort hsorted) (List.perm_insertionSort _ values) ht
  rw [← merged_eq_insertionSort hsorted, ← hreadings] at hmem
  obtain ⟨step, hstep, hreading⟩ := List.mem_flatMap.mp hmem
  cases step with
  | html tokens => exact ⟨tokens, hstep, token_mem_map.mp hreading⟩
  | sub v => cases List.mem_singleton.mp hreading

/-! ## Drafts -/

namespace Draft

/-- Whether a token is within a line of a draft, or within a step of its block. -/
def Holds (d : Draft) (t : Token) : Prop :=
  (∃ u ∈ d.lines.flatten, t.Within u) ∨
    ∃ steps index, d.steps = some (steps, index) ∧
      ∃ tokens, BlockStep.html tokens ∈ steps ∧ ∃ u ∈ tokens, t.Within u

/-- A draft with more lines than another one, and with its block, if that has one. -/
structure Grows (d d' : Draft) : Prop where
  lines : d.lines <+: d'.lines
  steps : d.steps = none ∨ d'.steps = d.steps

variable {d d' d'' : Draft} {t : Token}

theorem Grows.refl (d : Draft) : d.Grows d := ⟨List.prefix_refl _, .inr rfl⟩

theorem Grows.trans (h : d.Grows d') (h' : d'.Grows d'') : d.Grows d'' where
  lines := h.lines.trans h'.lines
  steps := by
    rcases h.steps with hnone | hsame
    · exact .inl hnone
    · rcases h'.steps with hnone | hsame'
      · exact .inl (hsame.symm.trans hnone)
      · exact .inr (hsame'.trans hsame)

theorem Holds.grow (h : d.Holds t) (hgrows : d.Grows d') : d'.Holds t := by
  rcases h with ⟨u, hu, htu⟩ | ⟨steps, index, hsteps, hholds⟩
  · obtain ⟨line, hline, hu⟩ := List.mem_flatten.mp hu
    exact .inl ⟨u, List.mem_flatten.mpr ⟨line, hgrows.lines.subset hline, hu⟩, htu⟩
  · rcases hgrows.steps with hnone | hsame
    · rw [hsteps] at hnone
      cases hnone
    · exact .inr ⟨steps, index, hsame.trans hsteps, hholds⟩

theorem grows_addLine (d : Draft) (line : List Token) : d.Grows (d.addLine line) :=
  ⟨List.prefix_append _ _, .inr rfl⟩

theorem grows_addHooks {values : List Anchored} (h : d.addHooks values = .ok d') : d.Grows d' := by
  induction values generalizing d with
  | nil =>
    cases h
    exact .refl _
  | cons a values ih =>
    rw [addHooks] at h
    split at h
    · next d₁ hhook =>
      have hfirst : d.Grows d₁ := by
        unfold addHook? at hhook
        split at hhook <;> cases hhook <;> exact ⟨List.prefix_refl _, .inr rfl⟩
      exact hfirst.trans (ih h)
    · cases h

/-- A draft that reads a part grows, and holds the fragments of the part. -/
theorem holds_addPart {p : Part} {values : List Anchored}
    (hlength : p.text.length = p.stop - p.start) (hle : p.start ≤ p.stop) (hsorted : Sorted values)
    (hholds : ∀ a ∈ values, p.holds a = true) (h : d.addPart p values = .ok d') :
    d.Grows d' ∧ ∀ t, .token t ∈ readingsOf (weave p.start p.text values) → d'.Holds t := by
  obtain ⟨d₀, htitled, hgrows⟩ : ∃ d₀ : Draft,
      (if p.title.isSome then { d with title := p.title } else d) = d₀ ∧ d.Grows d₀ := by
    refine ⟨_, rfl, ?_⟩
    split
    · exact ⟨List.prefix_refl _, .inr rfl⟩
    · exact .refl d
  have hline (tokens : List Token) {t u : Token} (hu : u ∈ tokens) (htu : t.Within u) :
      (d₀.addLine tokens).Holds t :=
    .inl ⟨u, List.mem_flatten.mpr ⟨tokens, List.mem_append_right _ (List.mem_singleton_self _), hu⟩, htu⟩
  unfold addPart at h
  simp only [htitled] at h
  by_cases hempty : values = []
  · subst hempty
    obtain rfl := Except.ok.inj h
    refine ⟨hgrows.trans (grows_addLine d₀ _), fun t ht => ?_⟩
    rw [weave, readingsOf_cons, reading?_text, readingsOf, List.filterMap_nil, List.append_nil,
      token_mem_map] at ht
    refine hline _ ?_ (.refl t)
    unfold literalToken? at ht
    split at ht
    · cases ht
    · exact ht
  · rw [if_neg (by simpa using hempty)] at h
    by_cases hblock : p.block = true
    · rw [if_pos hblock] at h
      split at h
      · cases h
      · next hsteps =>
        obtain ⟨steps, hsteps', heq⟩ := ok_of_bind h
        cases heq
        refine ⟨hgrows.trans ⟨List.prefix_refl _, .inl (by simpa using hsteps)⟩, fun t ht => ?_⟩
        obtain ⟨tokens, htokens, hmem⟩ :=
          token_mem_blockSteps hlength hle hsorted hholds hsteps' ht
        exact .inr ⟨steps, _, rfl, tokens, htokens, t, hmem, .refl t⟩
    · rw [if_neg hblock] at h
      have hstart : ∀ a ∈ values, p.start ≤ a.index := fun a ha => (Part.holds_iff.mp (hholds a ha)).1
      have hhooks := grows_addHooks h
      by_cases htokens : (applyRegexes p.start p.text values).1 = []
      · rw [if_pos (by simpa using htokens)] at hhooks
        refine ⟨hgrows.trans hhooks, fun t ht => ?_⟩
        obtain ⟨u, hu, -⟩ := within_applyRegexes hsorted hstart ht
        rw [htokens] at hu
        cases hu
      · rw [if_neg (by simpa using htokens)] at hhooks
        refine ⟨(hgrows.trans (grows_addLine d₀ _)).trans hhooks, fun t ht => ?_⟩
        obtain ⟨u, hu, htu⟩ := within_applyRegexes hsorted hstart ht
        exact (hline _ hu htu).grow hhooks

/-- The draft of a label grows with each part that it reads, and holds the fragments of those that have
its label or none. -/
theorem holds_readPart {label : String} {values : List Anchored} {source : List Char} {p : Part}
    (hp : p.Laid source) (hsorted : Sorted values) (h : d.readPart label values p = .ok d') :
    d.Grows d' ∧ (p.label.all (· == label) = true →
      ∀ t, .token t ∈ readingsOf (weave p.start p.text (p.share values)) → d'.Holds t) := by
  have hshare : Sorted (p.share values) := List.Pairwise.sublist List.filter_sublist hsorted
  have hholds : ∀ a ∈ p.share values, p.holds a = true := fun a ha => (List.mem_filter.mp ha).2
  unfold readPart at h
  split at h
  · next hnone =>
    cases h
    refine ⟨grows_addLine d _, fun _ t ht => ?_⟩
    obtain ⟨u, hu, htu⟩ := within_applyRegexes hshare
      (fun a ha => (Part.holds_iff.mp (hholds a ha)).1) ht
    exact .inl ⟨u, List.mem_flatten.mpr ⟨_, List.mem_append_right _ (List.mem_singleton_self _), hu⟩, htu⟩
  · next l hlabel =>
    split at h
    · obtain ⟨hgrows, hall⟩ := holds_addPart hp.length hp.le hshare hholds h
      exact ⟨hgrows, fun _ => hall⟩
    · next hne =>
      cases h
      refine ⟨.refl _, fun hfor => ?_⟩
      rw [hlabel] at hfor
      exact absurd (by simpa using hfor) hne

/-- The draft of a label holds the fragments of all parts that it reads. -/
theorem holds_read {label : String} {values : List Anchored} {source : List Char} {parts : List Part}
    (hlaid : ∀ p ∈ parts, p.Laid source) (hsorted : Sorted values)
    (h : d.read label values parts = .ok d') : d.Grows d' ∧
      ∀ p ∈ parts, p.label.all (· == label) = true →
        ∀ t, .token t ∈ readingsOf (weave p.start p.text (p.share values)) → d'.Holds t := by
  induction parts generalizing d with
  | nil =>
    cases h
    exact ⟨.refl _, by simp⟩
  | cons p parts ih =>
    obtain ⟨d₁, hpart, hrest⟩ := ok_of_bind h
    obtain ⟨hgrows, hfirst⟩ := holds_readPart (hlaid p List.mem_cons_self) hsorted hpart
    obtain ⟨hgrows', hall⟩ := ih (fun q hq => hlaid q (List.mem_cons_of_mem _ hq)) hrest
    refine ⟨hgrows.trans hgrows', fun q hq hfor t ht => ?_⟩
    rcases List.mem_cons.mp hq with rfl | hq
    · exact (hfirst hfor t ht).grow hgrows'
    · exact hall q hq hfor t ht

end Draft

/-- An expectation asks for all that its draft holds. -/
theorem asserts_finish {label : String} {d : Draft} {e : Expectation} {t : Token}
    (hfinish : d.finish label = .ok e) (h : d.Holds t) (ht : (Reading.token t).Visible) :
    ∃ html, .html html ∈ e.steps ∧ html.Asserts t := by
  cases hsteps : d.steps with
  | none =>
    rw [Draft.finish_of_none hsteps] at hfinish
    cases hfinish
    rcases h with ⟨u, hu, htu⟩ | ⟨steps, index, heq, -⟩
    · exact ⟨_, List.mem_singleton_self _, asserts_ofLines hu htu ht⟩
    · rw [hsteps] at heq
      cases heq
  | some block =>
    obtain ⟨steps, index⟩ := block
    rw [Draft.finish_of_some hsteps] at hfinish
    split at hfinish
    · cases hfinish
    · next hguard =>
      cases hfinish
      -- some step of HTML has the token in its lines or in its own tokens
      obtain ⟨tokens, htokens, u, hu, htu⟩ : ∃ tokens, BlockStep.html tokens ∈ steps ∧
          ∃ u ∈ (d.lines.take index ++ tokens :: d.lines.drop index).flatten, t.Within u := by
        rcases h with ⟨u, hu, htu⟩ | ⟨steps', index', heq, tokens, htokens, u, hu, htu⟩
        · obtain ⟨line, hline, hmem⟩ := List.mem_flatten.mp hu
          have hhtml : d.hasHtml = true :=
            List.any_eq_true.mpr ⟨line, hline, by simpa using List.ne_nil_of_mem hmem⟩
          have hany : steps.any BlockStep.isHtml = true := by simpa [hhtml] using hguard
          obtain ⟨step, hstep, hishtml⟩ := List.any_eq_true.mp hany
          cases step with
          | sub v => cases hishtml
          | html tokens =>
            refine ⟨tokens, hstep, u, ?_, htu⟩
            rw [← List.take_append_drop index d.lines, List.flatten_append, List.mem_append] at hu
            rw [List.flatten_append, List.flatten_cons, List.mem_append, List.mem_append]
            exact hu.imp_right .inr
        · rw [hsteps] at heq
          cases heq
          exact ⟨tokens, htokens, u, by simp [hu], htu⟩
      exact ⟨_, List.mem_map.mpr ⟨_, htokens, rfl⟩, asserts_ofLines hu htu ht⟩

/-! ## Specs -/

/-- The values of the source of any spec are in the order of their offsets. -/
theorem sorted_of {spec : Value} {source : Source} (h : Source.of spec = .ok source) :
    Sorted source.values := by
  unfold Source.of at h
  split at h <;> cases h
  · exact .nil
  all_goals exact (sorted_interpolateAt 0 _ _).1

/-- The patterns of a weave are among its pieces. -/
theorem pattern_mem_weave (start : Nat) (text : List Char) {a : Anchored} {values : List Anchored}
    (ha : a ∈ values) {r : Regex} (hr : a.value = .regex r) :
    .token (.pattern r) ∈ readingsOf (weave start text values) := by
  have hmem : .value a.value ∈ weave start text values := by
    rw [← Piece.mem_values, values_weave]
    exact List.mem_map_of_mem ha
  exact List.mem_filterMap.mpr ⟨_, hmem, by rw [hr]; rfl⟩

/-- Each pattern of a spec that compiles is a fragment of its expectations, and each of their fragments
is asserted exactly if they have a label.  The expectations of a full spec always have one. -/
theorem asserted_iff_labels {spec : Value} {full : Bool} {file : Option String} {compiled : CompiledSpec}
    (h : compileValue spec full file = .ok compiled) : ∃ source outline,
      Source.of spec = .ok source ∧ Outline.of source.text full = .ok outline ∧
      (outline.expectations = none → source.values = []) ∧
      ∀ s, outline.expectations = some s →
        (full = true → s.labels ≠ []) ∧
        (∀ a ∈ source.values, ∀ r, a.value = .regex r → Fragment source s (.pattern r)) ∧
        ∀ t, Fragment source s t → (Asserted compiled.expects t ↔ s.labels ≠ []) := by
  obtain ⟨source, hsource, hcompile⟩ := ok_of_bind h
  have hsorted := sorted_of hsource
  obtain ⟨outline, houtline, hnone, hrouted⟩ := routed_compile hsorted hcompile
  refine ⟨source, outline, hsource, houtline, fun hs => (hnone hs).1, fun s hs => ?_⟩
  have hroute := hrouted s hs
  have hempty (hlabels : s.labels = []) : compiled.expects = [] := by
    have hkeys := hroute.keys
    rwa [hlabels, Table.keys, List.map_eq_nil_iff] at hkeys
  refine ⟨fun hfull hlabels => ?_, fun a ha r hr => ?_, fun t ht => ⟨?_, fun hlabels => ?_⟩⟩
  · exact expects_of_full (hfull ▸ hcompile) (hempty hlabels)
  · obtain ⟨p, hp, hholds, -⟩ := hroute.value a ha
    exact ⟨p, hp, pattern_mem_weave _ _ (List.mem_filter.mpr ⟨ha, hholds⟩) hr⟩
  · rintro ⟨label, e, html, hget, -⟩ hlabels
    rw [hempty hlabels] at hget
    cases hget
  · obtain ⟨p, hp, hreading⟩ := ht
    obtain ⟨label, hlabel, hfor⟩ : ∃ label ∈ s.labels, p.label.all (· == label) = true := by
      cases hpl : p.label with
      | none =>
        obtain ⟨label, hlabel⟩ := List.exists_mem_of_ne_nil _ hlabels
        exact ⟨label, hlabel, rfl⟩
      | some label => exact ⟨label, hroute.laid.mem_labels.mpr ⟨p, hp, hpl⟩, by simp⟩
    obtain ⟨d, e, hread, hfinish, hget⟩ := hroute.label label hlabel
    have hholds := (Draft.holds_read hroute.laid.parts hsorted hread).2 p hp hfor t hreading
    obtain ⟨html, hstep, hasserts⟩ := asserts_finish hfinish hholds (visible_readingsOf _ hreading)
    exact ⟨label, e, html, hget, hstep, hasserts⟩

/-- A line without a label, and a block with a pattern and a sub. -/
def patternBlock : List Value :=
  [.text "****\n<main>\n::1::\n<p>", .regex ⟨"", ⟨false, false, false⟩, .empty⟩, .text "</p>\n",
    .routine ⟨"s", [], .nothing⟩, .text "\n::\n"]

theorem asserted_iff_labels_block : ∃ compiled,
    compileValue (.list patternBlock) false none = .ok compiled ∧
      Asserted compiled.expects (.pattern ⟨"", ⟨false, false, false⟩, .empty⟩) := by
  have hok : (compileValue (.list patternBlock) false none).isOk = true := by decide +kernel
  have hlabels : ((Outline.of (Source.ofParts patternBlock).text false).toOption.bind
      Outline.expectations).map Section.labels = some ["1"] := by
    decide +kernel
  cases hcompile : compileValue (.list patternBlock) false none with
  | error fault =>
    rw [hcompile] at hok
    cases hok
  | ok compiled =>
    obtain ⟨source, outline, hsource, houtline, -, hall⟩ := asserted_iff_labels hcompile
    obtain rfl : Source.ofParts patternBlock = source := Except.ok.inj hsource
    rw [houtline] at hlabels
    obtain ⟨s, hs, hnames⟩ := Option.map_eq_some_iff.mp hlabels
    obtain ⟨-, hpatterns, hasserted⟩ := hall s hs
    have hvalue : .regex ⟨"", ⟨false, false, false⟩, .empty⟩ ∈
        (Source.ofParts patternBlock).values.map Anchored.value := by
      rw [values_ofParts]
      exact List.mem_cons_self
    obtain ⟨a, ha, hr⟩ := List.mem_map.mp hvalue
    exact ⟨compiled, rfl, (hasserted _ (hpatterns a ha _ hr)).mpr (by simp [hnames])⟩

/-- Expectations without a label are accepted, and their HTML is asserted by no step. -/
theorem html_without_label : ∃ compiled s,
    compileValue (.text "****\n<p>hello</p>\n") false none = .ok compiled ∧
    (Outline.of "****\n<p>hello</p>\n".toList false).toOption.bind Outline.expectations = some s ∧
    Fragment ⟨"****\n<p>hello</p>\n".toList, []⟩ s (.literal "<p>hello</p>\n") ∧
    ¬ Asserted compiled.expects (.literal "<p>hello</p>\n") := by
  have hkeys : (compileValue (.text "****\n<p>hello</p>\n") false none).toOption.map
      (·.expects.keys) = some [] := by
    decide +kernel
  cases hcompile : compileValue (.text "****\n<p>hello</p>\n") false none with
  | error fault =>
    rw [hcompile] at hkeys
    cases hkeys
  | ok compiled =>
    rw [hcompile] at hkeys
    have hexpects : compiled.expects = [] := List.map_eq_nil_iff.mp (Option.some.inj hkeys)
    refine ⟨compiled, ⟨[⟨none, "<p>hello</p>\n".toList, 5, 18, false, none⟩], []⟩, rfl, by decide +kernel,
      ⟨_, List.mem_singleton_self _, ?_⟩, ?_⟩
    · have hvisible : blank "<p>hello</p>\n".toList = false := by decide +kernel
      rw [Part.share, List.filter_nil, weave, readingsOf_cons, Piece.reading?, hvisible]
      exact List.mem_cons_self
    · rintro ⟨label, e, html, hget, -⟩
      rw [hexpects] at hget
      cases hget

end Spec

end HotSpec
