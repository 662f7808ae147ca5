import HotSpec.Proofs.Spec.Fragments
import HotSpec.Proofs.Spec.Refusals

/-!
# Blocks with values

A label may have any number of blocks of text, but values in one of them only.  Its draft holds what
its parts ask of a page: those in front of that block and those behind it on its lines, in order, and
the block in its steps.

Main definitions:

- `Part.tokens`, `tokensFor`: what a part, and all parts of a label, ask of a page.
- `Part.valued`: a block in which a value was written.
- `Draft.Reads`: a draft that asks for what its parts ask for.

Main results:

- Theorem `reads_read`: a draft asks for what the parts that it was made of ask for.
- Theorem `Draft.Reads.finish_error_iff`: the drafts that are no expectation.
- Theorem `Draft.Reads.finish_of_plain`: a label without callables expects what its parts ask for.
-/

namespace HotSpec.Spec

open HotSpec.Text
open Html (Token Expected)

/-! ## What parts ask for -/

/-- Whether a part is for a label: it belongs to it or to all labels. -/
def Part.isFor (label : String) (p : Part) : Bool := p.label.all (· == label)

/-- What a part asks of a page: its text, divided by the patterns that were written inside it.  Blank
text asks for nothing, unless it is the whole of a part that has a label and no values. -/
def Part.tokens (values : List Anchored) (p : Part) : List Token :=
  if p.label.isSome && (p.share values).isEmpty then [.literal (String.ofList p.text)]
  else (applyRegexes p.start p.text (p.share values)).1

/-- What the parts of a label and those without a label ask of a page, in order. -/
def tokensFor (label : String) (values : List Anchored) (parts : List Part) : List Token :=
  (parts.filter (Part.isFor label)).flatMap (Part.tokens values)

/-- Whether a part is a block of a label in which a value was written. -/
def Part.valued (label : String) (values : List Anchored) (p : Part) : Bool :=
  p.block && p.label == some label && !(p.share values).isEmpty

theorem tokensFor_append (label : String) (values : List Anchored) (first rest : List Part) :
    tokensFor label values (first ++ rest) =
      tokensFor label values first ++ tokensFor label values rest := by
  simp [tokensFor]

theorem tokensFor_single (label : String) (values : List Anchored) (p : Part) :
    tokensFor label values [p] = if p.isFor label then p.tokens values else [] := by
  unfold tokensFor
  split <;> simp_all

theorem Part.valued_iff {label : String} {values : List Anchored} {p : Part} :
    p.valued label values = true ↔
      p.block = true ∧ p.label = some label ∧ p.share values ≠ [] := by
  simp [Part.valued, and_assoc]

/-- HTML is made of the tokens of its lines, however they are divided into lines. -/
theorem ofLines_congr {lines lines' : List (List Token)} (h : lines.flatten = lines'.flatten) :
    Expected.ofLines lines = Expected.ofLines lines' := by
  simp only [Expected.ofLines, h]

/-! ## Tokens of a text -/

/-- A text asks for something if it is not blank or has a pattern. -/
theorem applyRegexes_eq_nil_iff {start : Nat} {text : List Char} {values : List Anchored} :
    (applyRegexes start text values).1 = [] ↔
      blank text = true ∧ ∀ a ∈ values, a.isCallable = true := by
  induction values generalizing start text with
  | nil => simp [applyRegexes, literalToken?]
  | cons a values ih =>
    cases hcall : a.isCallable with
    | true => simp [applyRegexes_cons_of_callable _ _ hcall, ih, hcall]
    | false =>
      obtain ⟨r, hr⟩ := exists_regex hcall
      simp [applyRegexes_cons_of_regex _ _ hr, hcall]

/-- A weave has a token exactly if its text is not blank or one of its values is a pattern. -/
theorem exists_token_weave_iff {start : Nat} {text : List Char} {values : List Anchored} :
    (∃ t, .token t ∈ readingsOf (weave start text values)) ↔
      ¬ (blank text = true ∧ ∀ a ∈ values, a.isCallable = true) := by
  have htext (text : List Char) :
      (∃ t, Reading.token t ∈ (Piece.text text).reading?.toList) ↔ blank text = false := by
    rw [reading?_text, literalToken?]
    split <;> simp_all
  induction values generalizing start text with
  | nil =>
    rw [weave, readingsOf_cons]
    simpa [readingsOf] using htext text
  | cons a values ih =>
    have hsplit : blank text =
        (blank (text.take (a.index - start)) && blank (text.drop (a.index - start))) := by
      rw [blank, blank, blank, ← List.all_append, List.take_append_drop]
    simp only [weave, readingsOf_cons, List.mem_append, exists_or, htext, ih, hsplit]
    cases hcall : a.isCallable with
    | true =>
      rw [reading?_callable hcall]
      cases blank (text.take (a.index - start)) <;> simp [hcall]
    | false =>
      obtain ⟨r, hr⟩ := exists_regex hcall
      simp [hr, Piece.reading?, hcall]

/-- A block has a step of HTML exactly if it asks for something. -/
theorem any_isHtml_iff {p : Part} {values : List Anchored} {steps : List BlockStep}
    (hlength : p.text.length = p.stop - p.start) (hle : p.start ≤ p.stop) (hsorted : Sorted values)
    (hholds : ∀ a ∈ values, p.holds a = true) (h : blockSteps p values = .ok steps) :
    steps.any BlockStep.isHtml = true ↔ (applyRegexes p.start p.text values).1 ≠ [] := by
  obtain ⟨hreadings, hdivided⟩ := blockSteps_spec hlength hle hsorted hholds h
  have hmem (a : Anchored) : a ∈ values.insertionSort Anchored.InFront ↔ a ∈ values :=
    (List.perm_insertionSort _ values).mem_iff
  have hweave := @exists_token_weave_iff p.start p.text (values.insertionSort Anchored.InFront)
  rw [← merged_eq_insertionSort hsorted, ← hreadings, merged_eq_insertionSort hsorted] at hweave
  simp only [hmem] at hweave
  rw [ne_eq, applyRegexes_eq_nil_iff, ← hweave, List.any_eq_true]
  constructor
  · rintro ⟨step, hstep, hhtml⟩
    cases step with
    | sub v => cases hhtml
    | html tokens =>
      obtain ⟨t, ht⟩ := List.exists_mem_of_ne_nil _ (hdivided _ hstep).1
      exact ⟨t, List.mem_flatMap.mpr ⟨_, hstep, List.mem_map_of_mem ht⟩⟩
  · rintro ⟨t, ht⟩
    obtain ⟨step, hstep, ht⟩ := List.mem_flatMap.mp ht
    cases step with
    | html tokens => exact ⟨_, hstep, rfl⟩
    | sub v => simp [BlockStep.readings] at ht

/-- A block without callables is one step of HTML. -/
theorem blockSteps_of_patterns {p : Part} {values : List Anchored}
    (hlength : p.text.length = p.stop - p.start) (hne : values ≠ [])
    (hholds : ∀ a ∈ values, p.holds a = true) (hpattern : ∀ a ∈ values, a.isCallable = false) :
    blockSteps p values = .ok [.html (applyRegexes p.start p.text values).1] := by
  have hsubs : values.filter Anchored.isCallable = [] :=
    List.filter_eq_nil_iff.mpr fun a ha => by simp [hpattern a ha]
  have hregexes : (values.filter fun value => !value.isCallable) = values :=
    List.filter_eq_self.mpr fun a ha => by simp [hpattern a ha]
  obtain ⟨a, ha⟩ := List.exists_mem_of_ne_nil _ hne
  have hrange := Part.holds_iff.mp (hholds a ha)
  have hshift := shift_of_within fun a ha => Part.holds_iff.mp (hholds a ha)
  have hsome : (applyRegexes p.start p.text values).1 ≠ [] := by
    rw [ne_eq, applyRegexes_eq_nil_iff]
    rintro ⟨-, hall⟩
    exact absurd (hall a ha) (by simp [hpattern a ha])
  have hend : p.start + p.text.length = p.stop := by omega
  simp only [blockSteps, hsubs, hregexes, splitSteps, Nat.sub_self, List.drop_zero, textStep, hend,
    hshift]
  rw [if_pos (by omega), if_neg (by simpa using hsome)]
  rfl

/-! ## Drafts -/

namespace Draft

variable {d d' : Draft} {label : String} {values : List Anchored} {parts : List Part} {p : Part}

/-- Hooks have nothing to do with lines and steps. -/
theorem addHooks_eq_ok {hooks : List Anchored} (h : d.addHooks hooks = .ok d') :
    d'.lines = d.lines ∧ d'.steps = d.steps := by
  induction hooks generalizing d with
  | nil =>
    cases h
    exact ⟨rfl, rfl⟩
  | cons a hooks ih =>
    rw [addHooks] at h
    split at h
    · next d₁ hhook =>
      have hsame : d₁.lines = d.lines ∧ d₁.steps = d.steps := by
        unfold addHook? at hhook
        split at hhook <;> cases hhook <;> exact ⟨rfl, rfl⟩
      obtain ⟨hlines, hsteps⟩ := ih h
      exact ⟨hlines.trans hsame.1, hsteps.trans hsame.2⟩
    · cases h

/-- A part is a line, or, if it is a block with values, the block of its label. -/
theorem addPart_eq_ok {share : List Anchored} (h : d.addPart p share = .ok d') :
    (¬ (p.block = true ∧ share ≠ []) ∧ d'.steps = d.steps ∧
      ∃ more, d'.lines = d.lines ++ more ∧ more.flatten =
        if share.isEmpty then [.literal (String.ofList p.text)]
        else (applyRegexes p.start p.text share).1) ∨
    (p.block = true ∧ share ≠ [] ∧ d.steps = none ∧ d'.lines = d.lines ∧
      ∃ steps, blockSteps p share = .ok steps ∧ d'.steps = some (steps, d.lines.length)) := by
  obtain ⟨d₀, hd₀, hsteps₀, hlines₀⟩ : ∃ d₀ : Draft,
      (if p.title.isSome then { d with title := p.title } else d) = d₀ ∧ d₀.steps = d.steps ∧
        d₀.lines = d.lines := by
    refine ⟨_, rfl, ?_⟩
    split <;> exact ⟨rfl, rfl⟩
  unfold addPart at h
  simp only [hd₀] at h
  by_cases hempty : share = []
  · subst hempty
    cases h
    exact .inl ⟨by simp, hsteps₀, _, congrArg (· ++ _) hlines₀, by simp⟩
  · have hisEmpty : share.isEmpty = false := by simpa using hempty
    rw [hisEmpty, if_neg Bool.false_ne_true] at h ⊢
    by_cases hblock : p.block = true
    · rw [if_pos hblock] at h
      split at h
      · cases h
      · next hnone =>
        obtain ⟨steps, hsteps, heq⟩ := ok_of_bind h
        cases heq
        exact .inr ⟨hblock, hempty, by rw [← hsteps₀]; simpa using hnone, hlines₀, steps, hsteps,
          by rw [hlines₀]⟩
    · rw [if_neg hblock] at h
      obtain ⟨hlines, hsteps⟩ := addHooks_eq_ok h
      refine .inl ⟨fun hboth => hblock hboth.1, ?_⟩
      by_cases hnil : (applyRegexes p.start p.text share).1 = []
      · rw [if_pos (by simpa using hnil)] at hlines hsteps
        exact ⟨hsteps.trans hsteps₀, [], by rw [hlines, hlines₀, List.append_nil], by simp [hnil]⟩
      · rw [if_neg (by simpa using hnil)] at hlines hsteps
        exact ⟨hsteps.trans hsteps₀, _, hlines.trans (congrArg (· ++ _) hlines₀), by simp⟩

/-- A draft asks for what the parts of its label ask for: with its lines, or with its block and the lines
in front of it and behind it. -/
structure Reads (label : String) (values : List Anchored) (parts : List Part) (d : Draft) : Prop where
  noBlock : d.steps = none →
    parts.filter (Part.valued label values) = [] ∧ d.lines.flatten = tokensFor label values parts
  block : ∀ steps index, d.steps = some (steps, index) → ∃ front p rest,
    parts = front ++ p :: rest ∧ parts.filter (Part.valued label values) = [p] ∧
      index ≤ d.lines.length ∧ blockSteps p (p.share values) = .ok steps ∧
      (d.lines.take index).flatten = tokensFor label values front ∧
      (d.lines.drop index).flatten = tokensFor label values rest

theorem reads_empty (label : String) (values : List Anchored) : empty.Reads label values [] where
  noBlock _ := ⟨rfl, rfl⟩
  block _ _ h := nomatch h

/-- A part that is no block with values puts what it asks for behind all lines. -/
theorem Reads.line (h : d.Reads label values parts) (hplain : p.valued label values = false)
    (hsteps : d'.steps = d.steps) {more : List (List Token)} (hlines : d'.lines = d.lines ++ more)
    (hmore : more.flatten = tokensFor label values [p]) :
    d'.Reads label values (parts ++ [p]) where
  noBlock hnone := by
    obtain ⟨hvalued, hflat⟩ := h.noBlock (hsteps ▸ hnone)
    rw [List.filter_append, hvalued, hlines, List.flatten_append, hflat, hmore, tokensFor_append]
    exact ⟨by simp [hplain], rfl⟩
  block steps index hsome := by
    obtain ⟨front, q, rest, rfl, hvalued, hle, hblock, htake, hdrop⟩ :=
      h.block steps index (hsteps ▸ hsome)
    refine ⟨front, q, rest ++ [p], by simp, ?_, ?_, hblock, ?_, ?_⟩
    · rw [List.filter_append, hvalued]
      simp [hplain]
    · rw [hlines, List.length_append]
      omega
    · rw [hlines, List.take_append_of_le_length hle, htake]
    · rw [hlines, List.drop_append_of_le_length hle, List.flatten_append, hdrop, hmore,
        tokensFor_append]

/-- One more part is asked for. -/
theorem Reads.readPart (h : d.Reads label values parts)
    (hplain : p.label = none → p.block = false)
    (hread : d.readPart label values p = .ok d') : d'.Reads label values (parts ++ [p]) := by
  unfold Draft.readPart at hread
  split at hread
  · next hnone =>
    cases hread
    exact h.line (by simp [Part.valued, hplain hnone]) rfl rfl
      (by simp [tokensFor_single, Part.isFor, Part.tokens, hnone])
  · next l hl =>
    split at hread
    · next hsame =>
      subst hsame
      have hfor : tokensFor l values [p] = if (p.share values).isEmpty then
          [.literal (String.ofList p.text)]
          else (applyRegexes p.start p.text (p.share values)).1 := by
        simp [tokensFor_single, Part.isFor, Part.tokens, hl]
      rcases addPart_eq_ok hread with ⟨hnot, hsteps, more, hlines, hmore⟩ |
        ⟨hblock, hne, hnone, hlines, steps, hsteps, hsome⟩
      · refine h.line ?_ hsteps hlines (hmore.trans hfor.symm)
        rw [← Bool.not_eq_true, Part.valued_iff]
        exact fun hall => hnot ⟨hall.1, hall.2.2⟩
      · have hvalued : p.valued l values = true := Part.valued_iff.mpr ⟨hblock, hl, hne⟩
        obtain ⟨hfirst, hflat⟩ := h.noBlock hnone
        refine ⟨fun hnone' => absurd (hsome.symm.trans hnone') (by simp), fun steps' index heq => ?_⟩
        cases hsome.symm.trans heq
        refine ⟨parts, p, [], rfl, ?_, by rw [hlines], hsteps, ?_, ?_⟩
        · rw [List.filter_append, hfirst]
          simp [hvalued]
        · rw [hlines, List.take_length, hflat]
        · rw [hlines, List.drop_length]
          rfl
    · next hother =>
      cases hread
      have hne : p.label ≠ some label := fun heq => hother (Option.some.inj (hl.symm.trans heq))
      have hfor : [].flatten = tokensFor label values [p] := by
        simp [tokensFor_single, Part.isFor, hl, hother]
      refine h.line ?_ rfl (List.append_nil _).symm hfor
      rw [← Bool.not_eq_true, Part.valued_iff]
      exact fun hall => hne hall.2.1

/-- A draft asks for what the parts that it was made of ask for. -/
theorem reads_read (hplain : ∀ p ∈ parts, p.label = none → p.block = false)
    (hread : empty.read label values parts = .ok d) : d.Reads label values parts := by
  induction parts using List.reverseRecOn generalizing d with
  | nil =>
    cases hread
    exact reads_empty label values
  | append_singleton parts p ih =>
    rw [read_append] at hread
    obtain ⟨d₁, hfirst, hlast⟩ := ok_of_bind hread
    obtain ⟨d₂, hpart, heq⟩ := ok_of_bind hlast
    cases heq
    exact (ih (fun q hq => hplain q (List.mem_append_left _ hq)) hfirst).readPart
      (hplain p (by simp)) hpart

/-- The block of a draft is the only block with values that its label has. -/
theorem Reads.others (h : d.Reads label values parts) {steps : List BlockStep} {index : Nat}
    (hsome : d.steps = some (steps, index)) : ∃ front p rest, parts = front ++ p :: rest ∧
      p.valued label values = true ∧ (∀ q ∈ front ++ rest, q.valued label values = false) ∧
      blockSteps p (p.share values) = .ok steps ∧
      (d.lines.take index).flatten = tokensFor label values front ∧
      (d.lines.drop index).flatten = tokensFor label values rest := by
  obtain ⟨front, p, rest, rfl, hvalued, -, hblock, htake, hdrop⟩ := h.block steps index hsome
  have hp : p.valued label values = true :=
    List.of_mem_filter (hvalued ▸ List.mem_singleton_self p)
  rw [List.filter_append, List.filter_cons_of_pos hp] at hvalued
  have hlength := congrArg List.length hvalued
  simp only [List.length_append, List.length_cons, List.length_nil] at hlength
  have hfront : front.filter (Part.valued label values) = [] :=
    List.length_eq_zero_iff.mp (by omega)
  have hrest : rest.filter (Part.valued label values) = [] :=
    List.length_eq_zero_iff.mp (by omega)
  refine ⟨front, p, rest, rfl, hp, fun q hq => ?_, hblock, htake, hdrop⟩
  rcases List.mem_append.mp hq with hq | hq
  · simpa using List.filter_eq_nil_iff.mp hfront q hq
  · simpa using List.filter_eq_nil_iff.mp hrest q hq

/-- An expectation is refused exactly if its block asks for nothing, but one of its lines does. -/
theorem Reads.finish_error_iff {source : List Char} (h : d.Reads label values parts)
    (hlaid : ∀ p ∈ parts, p.Laid source) (hsorted : Sorted values) :
    (∃ fault, d.finish label = .error fault) ↔
      ∃ p ∈ parts, p.valued label values = true ∧ p.tokens values = [] ∧
        ∃ q ∈ parts, q.isFor label = true ∧ q.valued label values = false ∧
          q.tokens values ≠ [] := by
  cases hsteps : d.steps with
  | none =>
    obtain ⟨hnone, -⟩ := h.noBlock hsteps
    rw [finish_of_none hsteps]
    constructor
    · rintro ⟨fault, hfault⟩
      cases hfault
    · rintro ⟨p, hp, hvalued, -⟩
      exact absurd hvalued (List.filter_eq_nil_iff.mp hnone p hp)
  | some block =>
    obtain ⟨steps, index⟩ := block
    obtain ⟨front, p, rest, rfl, hp, hothers, hblock, htake, hdrop⟩ := h.others hsteps
    have hmem : p ∈ front ++ p :: rest := List.mem_append_right _ List.mem_cons_self
    have hshare := (Part.valued_iff.mp hp).2.2
    have htokens : p.tokens values = (applyRegexes p.start p.text (p.share values)).1 := by
      simp [Part.tokens, hshare]
    have hhtml : steps.any BlockStep.isHtml = true ↔ p.tokens values ≠ [] := htokens ▸
      any_isHtml_iff (hlaid p hmem).length (hlaid p hmem).le
        (List.Pairwise.sublist List.filter_sublist hsorted)
        (fun a ha => (List.mem_filter.mp ha).2) hblock
    have hlines : d.hasHtml = true ↔ ∃ q ∈ front ++ rest, q.isFor label = true ∧
        q.tokens values ≠ [] := by
      have hflat : d.lines.flatten = tokensFor label values (front ++ rest) := by
        rw [tokensFor_append, ← htake, ← hdrop, ← List.flatten_append, List.take_append_drop]
      have hhas : d.hasHtml = true ↔ d.lines.flatten ≠ [] := by simp [hasHtml]
      rw [hhas, hflat, tokensFor, ne_eq, List.flatMap_eq_nil_iff]
      simp only [List.mem_filter, not_forall, exists_prop, and_assoc]
    have hpieces (q : Part) : q ∈ front ++ p :: rest ↔ q = p ∨ q ∈ front ++ rest := by
      simp only [List.mem_append, List.mem_cons]
      tauto
    have hrefused : (∃ fault, d.finish label = .error fault) ↔
        d.hasHtml = true ∧ ¬ steps.any BlockStep.isHtml = true := by
      rw [finish_of_some hsteps]
      cases d.hasHtml <;> cases steps.any BlockStep.isHtml <;> simp
    rw [hrefused, hhtml, hlines, not_not]
    constructor
    · rintro ⟨⟨q, hq, hfor, hne⟩, hnil⟩
      exact ⟨p, hmem, hp, hnil, q, (hpieces q).mpr (.inr hq), hfor, hothers q hq, hne⟩
    · rintro ⟨p', hp', hvalued, hnil, q, hq, hfor, hplain, hne⟩
      have hsame : p' = p := ((hpieces p').mp hp').resolve_right fun hother => by
        rw [hothers p' hother] at hvalued
        cases hvalued
      have hother : q ∈ front ++ rest := ((hpieces q).mp hq).resolve_left fun heq => by
        rw [heq, hp] at hplain
        cases hplain
      exact ⟨⟨q, hother, hfor, hne⟩, hsame ▸ hnil⟩

/-- A label without callables expects what its parts ask for, in one step. -/
theorem Reads.finish_of_plain {source : List Char} {e : Expectation}
    (h : d.Reads label values parts) (hlaid : ∀ p ∈ parts, p.Laid source)
    (hsubs : subsOf label values parts = []) (hfinish : d.finish label = .ok e) :
    e.before = d.before ∧ e.after = d.after ∧
      e.steps = [.html (Expected.ofLines ((parts.filter (Part.isFor label)).map
        (Part.tokens values)))] := by
  have hall : ((parts.filter (Part.isFor label)).map (Part.tokens values)).flatten =
      tokensFor label values parts := List.flatMap_def.symm
  cases hsteps : d.steps with
  | none =>
    obtain ⟨-, hflat⟩ := h.noBlock hsteps
    rw [finish_of_none hsteps] at hfinish
    cases hfinish
    exact ⟨rfl, rfl, by rw [ofLines_congr (hflat.trans hall.symm)]⟩
  | some block =>
    obtain ⟨steps, index⟩ := block
    obtain ⟨front, p, rest, rfl, hp, -, hblock, htake, hdrop⟩ := h.others hsteps
    obtain ⟨hisBlock, hlabel, hshare⟩ := Part.valued_iff.mp hp
    have hmem : p ∈ front ++ p :: rest := List.mem_append_right _ List.mem_cons_self
    have hpatterns : ∀ a ∈ p.share values, a.isCallable = false := by
      have hnone := List.flatMap_eq_nil_iff.mp hsubs p hmem
      rw [if_pos ⟨hlabel, hisBlock⟩, callablesOf, List.map_eq_nil_iff] at hnone
      exact fun a ha => by simpa using List.filter_eq_nil_iff.mp hnone a ha
    have hone := blockSteps_of_patterns (hlaid p hmem).length hshare
      (fun a ha => (List.mem_filter.mp ha).2) hpatterns
    obtain rfl := Except.ok.inj (hblock.symm.trans hone)
    rw [finish_of_some hsteps] at hfinish
    split at hfinish
    · cases hfinish
    · cases hfinish
      refine ⟨rfl, rfl, ?_⟩
      have htokens : p.tokens values = (applyRegexes p.start p.text (p.share values)).1 := by
        simp [Part.tokens, hshare]
      have hfor : tokensFor label values (front ++ p :: rest) = tokensFor label values front ++
          (p.tokens values ++ tokensFor label values rest) := by
        rw [tokensFor_append, List.append_cancel_left_eq, ← List.singleton_append, tokensFor_append,
          tokensFor_single, if_pos (by simp [Part.isFor, hlabel])]
      rw [List.map_singleton, BlockStep.finish, ofLines_congr]
      rw [hall, hfor, htokens, List.flatten_append, List.flatten_cons, htake, hdrop]

end Draft

end HotSpec.Spec
