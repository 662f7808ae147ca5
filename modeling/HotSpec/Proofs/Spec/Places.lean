import HotSpec.Proofs.Html.Visible
import HotSpec.Proofs.Spec.Blocks
import HotSpec.Proofs.Spec.Labels

/-!
# Where the values of a block go

A block of a label that has no other lines: its steps, read in order, are the block as it was written,
with its texts in normal form and its blank texts left out.  The one exception are a pattern and a sub
that were written at the same offset, the pattern in front: there the sub comes first.

Main definitions:

- `Reading.normal`: a reading with its text in normal form.
- `readingsOfStep`: what a step of an expectation asserts or does.
- `OwnBlock`: a block of a label that has no other lines.

Main results:

- Theorem `readings_finish`: the steps of a block stay what they are when its expectation is made.
- Theorem `steps_of_block`: the steps of a block, and when they are the block as it was written.
- Theorem `tied_pattern_behind_sub`: a pattern directly in front of a sub is asserted behind it.
-/

namespace HotSpec.Spec

open HotSpec.Text
open Html (Token Expected)

/-! ## Readings of steps -/

/-- A reading with its text in normal form. -/
def Reading.normal : Reading → Reading
  | .token (.literal text) => .token (.literal (Html.normal text))
  | r => r

/-- What a step of an expectation asserts or does, in order.  To assert that there is nothing is to
assert no token. -/
def readingsOfStep : Step → List Reading
  | .html (.exact text) => if text = "" then [] else [.token (.literal text)]
  | .html (.tokens tokens) => tokens.map .token
  | .sub v => [.sub v]
  | .function v => [.sub v]

/-- A reading whose text is not blank. -/
def Reading.Visible (r : Reading) : Prop :=
  ∀ text, r = .token (.literal text) → blank text.toList = false

theorem visible_readingsOf {pieces : List Piece} : ∀ r ∈ readingsOf pieces, r.Visible := by
  intro r hr text htext
  subst htext
  obtain ⟨piece, -, hpiece⟩ := List.mem_filterMap.mp hr
  cases piece with
  | text chars =>
    simp only [Piece.reading?] at hpiece
    split at hpiece
    · cases hpiece
    · next hblank =>
      cases hpiece
      simpa using hblank
  | value v =>
    cases v <;> cases hpiece

/-- Tokens with visible texts all have normal forms. -/
theorem map_normal? {tokens : List Token} (h : ∀ t ∈ tokens, (Reading.token t).Visible) :
    (tokens.filterMap Token.normal?).map Reading.token =
      (tokens.map Reading.token).map Reading.normal := by
  induction tokens with
  | nil => rfl
  | cons t tokens ih =>
    have hrest := ih fun t ht => h t (List.mem_cons_of_mem _ ht)
    cases t with
    | pattern r => simpa [Token.normal?, Reading.normal] using hrest
    | literal text =>
      have hvisible := Html.normal_ne_empty (h _ List.mem_cons_self text rfl)
      rw [String.ofList_toList] at hvisible
      simpa [Token.normal?, hvisible, Reading.normal] using hrest

/-- A step of a block that stands alone, as a step of an expectation. -/
theorem readings_ofLines {tokens : List Token} (hdivided : (BlockStep.html tokens).Divided)
    (hvisible : ∀ t ∈ tokens, (Reading.token t).Visible) :
    readingsOfStep (.html (Expected.ofLines [tokens])) =
      (tokens.map Reading.token).map Reading.normal := by
  unfold Expected.ofLines
  simp only [List.flatten_cons, List.flatten_nil, List.append_nil]
  by_cases hall : tokens.all Token.isLiteral = true
  · rw [if_pos hall]
    obtain ⟨t, rfl⟩ := List.length_eq_one_iff.mp (hdivided.2 hall)
    cases t with
    | pattern r => simp [Token.isLiteral] at hall
    | literal text =>
      have hne := Html.normal_ne_empty (hvisible _ List.mem_cons_self text rfl)
      rw [String.ofList_toList] at hne
      simp [readingsOfStep, Token.text, Reading.normal, String.join, hne]
  · rw [if_neg hall]
    exact map_normal? hvisible

/-! ## A block of its own -/

namespace Draft

/-- Parts of other labels are skipped. -/
theorem read_skip {label : String} {values : List Anchored} {d : Draft} {parts : List Part}
    (h : ∀ p ∈ parts, p.label ≠ none ∧ p.label ≠ some label) :
    d.read label values parts = .ok d := by
  induction parts with
  | nil => rfl
  | cons p parts ih =>
    obtain ⟨hnone, hsome⟩ := h p List.mem_cons_self
    obtain ⟨other, hother⟩ := Option.ne_none_iff_exists'.mp hnone
    have hne : other ≠ label := fun heq => hsome (heq ▸ hother)
    have hpart : d.readPart label values p = .ok d := by simp [readPart, hother, hne]
    rw [read, hpart]
    exact ih fun q hq => h q (List.mem_cons_of_mem _ hq)

theorem read_append {label : String} {values : List Anchored} {d : Draft} (first rest : List Part) :
    d.read label values (first ++ rest) =
      (d.read label values first >>= fun d => d.read label values rest) := by
  induction first generalizing d with
  | nil => rfl
  | cons p first ih =>
    simp only [List.cons_append, read]
    cases d.readPart label values p with
    | error refusal => rfl
    | ok d₁ => exact ih

/-- A label that has one part only is read off it. -/
theorem read_single {label : String} {values : List Anchored} {p : Part} {before after : List Part}
    (hlabel : p.label = some label)
    (hothers : ∀ q ∈ before ++ after, q.label ≠ none ∧ q.label ≠ some label) :
    empty.read label values (before ++ p :: after) = empty.addPart p (p.share values) := by
  have hpart (d : Draft) : d.readPart label values p = d.addPart p (p.share values) := by
    simp [readPart, hlabel]
  rw [read_append, read_skip fun q hq => hothers q (List.mem_append_left _ hq)]
  change empty.read label values (p :: after) = _
  rw [read, hpart]
  cases empty.addPart p (p.share values) with
  | error refusal => rfl
  | ok d => exact read_skip fun q hq => hothers q (List.mem_append_right _ hq)

/-- The expectation of a label that is one block. -/
theorem readings_finish {label : String} {p : Part} {values : List Anchored} {d : Draft}
    {e : Expectation} (hlength : p.text.length = p.stop - p.start) (hle : p.start ≤ p.stop)
    (hblock : p.block = true) (hsorted : Sorted values) (hholds : ∀ a ∈ values, p.holds a = true)
    (hadd : empty.addPart p values = .ok d) (hfinish : d.finish label = .ok e) :
    e.before = none ∧ e.after = none ∧
      e.steps.flatMap readingsOfStep =
        (readingsOf (weave p.start p.text (values.insertionSort Anchored.InFront))).map
          Reading.normal := by
  obtain ⟨d₀, htitled, hlines, hnosteps, hnobefore, hnoafter⟩ : ∃ d₀ : Draft,
      (if p.title.isSome then { empty with title := p.title } else empty) = d₀ ∧ d₀.lines = [] ∧
        d₀.steps = none ∧ d₀.before = none ∧ d₀.after = none := by
    refine ⟨_, rfl, ?_⟩
    split <;> exact ⟨rfl, rfl, rfl, rfl⟩
  unfold addPart at hadd
  simp only [htitled] at hadd
  by_cases hempty : values = []
  · subst hempty
    obtain rfl := Except.ok.inj hadd
    simp only [finish, addLine, hnosteps, hlines, hnobefore, hnoafter, List.nil_append] at hfinish
    obtain rfl := Except.ok.inj hfinish
    refine ⟨rfl, rfl, ?_⟩
    rw [List.flatMap_singleton, List.insertionSort_nil, weave, readingsOf_cons, reading?_text,
      literalToken?]
    by_cases hblank : blank p.text = true
    · have hnormal : Html.normal (String.ofList p.text) = "" := by
        simp [Html.normal, Html.normalChars_of_blank hblank]
      simp [hblank, Expected.ofLines, Token.isLiteral, Token.text, readingsOfStep, String.join,
        hnormal, readingsOf]
    · have hreadings := @readings_ofLines [.literal (String.ofList p.text)]
        ⟨by simp, fun _ => rfl⟩ (by
          intro t ht text heq
          obtain rfl := List.mem_singleton.mp ht
          cases heq
          simpa using hblank)
      simpa [hblank, readingsOf] using hreadings
  · rw [if_neg (by simpa using hempty), if_pos hblock, hnosteps] at hadd
    obtain ⟨steps, hsteps, heq⟩ := ok_of_bind hadd
    cases heq
    obtain ⟨hreadings, hdivided⟩ := blockSteps_spec hlength hle hsorted hholds hsteps
    simp only [finish, hasHtml, hlines, hnobefore, hnoafter, List.any_nil, Bool.false_and] at hfinish
    obtain rfl := Except.ok.inj hfinish
    refine ⟨rfl, rfl, ?_⟩
    rw [← merged_eq_insertionSort hsorted, ← hreadings, List.flatMap_map, List.map_flatMap]
    apply List.flatMap_congr
    intro step hstep
    cases step with
    | sub v => rfl
    | html tokens =>
      apply readings_ofLines (hdivided _ hstep)
      intro t ht
      apply visible_readingsOf
      rw [← hreadings]
      exact List.mem_flatMap.mpr ⟨_, hstep, List.mem_map_of_mem ht⟩

end Draft

/-- What is known of a part of a spec that compiles: it is the one part of its label, as a block, and
no line of the expectations is without a label. -/
structure OwnBlock (parts : List Value) (full : Bool) (label : String) (p : Part) : Prop where
  isBlock : p.block = true
  ofLabel : p.label = some label
  alone : ∃ outline s before after, Outline.of (Source.ofParts parts).text full = .ok outline ∧
    outline.expectations = some s ∧ s.parts = before ++ p :: after ∧
    ∀ q ∈ before ++ after, q.label ≠ none ∧ q.label ≠ some label

/-- A source is the list that it was made of, cut at its values.  For a block of a label that has no
other lines, the steps of the compiled label, read in order, are its texts in normal form, without the
blank ones, and its values, sorted by offset and at one offset with the subs in front.  So they are the
block as it was written wherever no pattern stands directly in front of a sub. -/
theorem steps_of_block {parts : List Value} {full : Bool} {file : Option String}
    {compiled : CompiledSpec} {label : String} {p : Part}
    (h : compileValue (.list parts) full file = .ok compiled) (hp : OwnBlock parts full label p) :
    weave 0 (Source.ofParts parts).text (Source.ofParts parts).values = written [] parts ∧
    p.Laid (Source.ofParts parts).text ∧
    ∃ e, compiled.expects.get? label = some e ∧ e.before = none ∧ e.after = none ∧
      e.steps.flatMap readingsOfStep =
        (readingsOf (weave p.start p.text
          ((p.share (Source.ofParts parts).values).insertionSort Anchored.InFront))).map
            Reading.normal ∧
      ((p.share (Source.ofParts parts).values).Pairwise Anchored.InFront →
        e.steps.flatMap readingsOfStep =
          (readingsOf (weave p.start p.text (p.share (Source.ofParts parts).values))).map
            Reading.normal) := by
  obtain ⟨outline, s, before, after, houtline, hs, hparts, hothers⟩ := hp.alone
  have hsorted : Sorted (Source.ofParts parts).values := sorted_ofParts parts
  have hcompile : compile (Source.ofParts parts) full file = .ok compiled := h
  obtain ⟨outline', houtline', -, hrouted⟩ := routed_compile hsorted hcompile
  obtain rfl : outline' = outline := Except.ok.inj (houtline'.symm.trans houtline)
  have hrouted := hrouted s hs
  have hmem : p ∈ s.parts := by
    rw [hparts]
    exact List.mem_append_right _ List.mem_cons_self
  obtain ⟨d, e, hread, hfinish, hget⟩ :=
    hrouted.label label (hrouted.laid.mem_labels.mpr ⟨p, hmem, hp.ofLabel⟩)
  rw [hparts, Draft.read_single hp.ofLabel hothers] at hread
  have hlaid := hrouted.laid.parts p hmem
  have hshare : Sorted (p.share (Source.ofParts parts).values) :=
    List.Pairwise.sublist List.filter_sublist hsorted
  obtain ⟨hbefore, hafter, hreadings⟩ := Draft.readings_finish hlaid.length hlaid.le hp.isBlock
    hshare (fun a ha => (List.mem_filter.mp ha).2) hread hfinish
  refine ⟨weave_ofParts parts, hlaid, e, hget, hbefore, hafter, hreadings, fun hfront => ?_⟩
  rw [hreadings, List.Pairwise.insertionSort_eq hfront]

/-- A block with a sub, and a pattern directly in front of it or else directly behind it. -/
def tiedBlock (inFront : Bool) : List Value :=
  let pattern : Value := .regex ⟨"", ⟨false, false, false⟩, .empty⟩
  let sub : Value := .routine ⟨"s", [], .nothing⟩
  [.text "****\n::1::\n<p>"] ++ (if inFront then [pattern, sub] else [sub, pattern]) ++
    [.text "</p>\n::\n"]

/-- The part that is the block. -/
def tiedPart : Part := ⟨some "1", "<p></p>\n".toList, 11, 19, true, none⟩

theorem ownBlock_tiedBlock (inFront : Bool) : OwnBlock (tiedBlock inFront) false "1" tiedPart := by
  have hcheck : (match Outline.of (Source.ofParts (tiedBlock inFront)).text false with
      | .ok outline => outline.expectations == some ⟨[tiedPart], ["1"]⟩
      | .error _ => false) = true := by
    cases inFront <;> decide +kernel
  refine ⟨rfl, rfl, ?_⟩
  split at hcheck
  · next outline houtline =>
    exact ⟨outline, _, [], [], houtline, beq_iff_eq.mp hcheck, rfl, by simp⟩
  · cases hcheck

/-- A pattern directly behind a sub is asserted where it was written. -/
theorem steps_of_block_behind : OwnBlock (tiedBlock false) false "1" tiedPart ∧ ∃ compiled e,
    compileValue (.list (tiedBlock false)) false none = .ok compiled ∧
    compiled.expects.get? "1" = some e ∧
    e.steps.flatMap readingsOfStep = (readingsOf (weave tiedPart.start tiedPart.text
      (tiedPart.share (Source.ofParts (tiedBlock false)).values))).map Reading.normal := by
  have hok : (compileValue (.list (tiedBlock false)) false none).isOk = true := by
    decide +kernel
  cases hcompile : compileValue (.list (tiedBlock false)) false none with
  | error fault =>
    rw [hcompile] at hok
    cases hok
  | ok compiled =>
    have hfront : (tiedPart.share (Source.ofParts (tiedBlock false)).values).Pairwise
        Anchored.InFront := by
      decide +kernel
    obtain ⟨-, -, e, hget, -, -, -, hwritten⟩ :=
      steps_of_block hcompile (ownBlock_tiedBlock false)
    exact ⟨ownBlock_tiedBlock false, compiled, e, rfl, hget, hwritten hfront⟩

/-- Whether a reading is a sub. -/
def Reading.isSub : Reading → Bool
  | .token _ => false
  | .sub _ => true

/-- A pattern directly in front of a sub is asserted behind it. -/
theorem tied_pattern_behind_sub : OwnBlock (tiedBlock true) false "1" tiedPart ∧ ∃ compiled e,
    compileValue (.list (tiedBlock true)) false none = .ok compiled ∧
    compiled.expects.get? "1" = some e ∧
    e.steps.flatMap readingsOfStep ≠ (readingsOf (weave tiedPart.start tiedPart.text
      (tiedPart.share (Source.ofParts (tiedBlock true)).values))).map Reading.normal := by
  have hcheck : (match compileValue (.list (tiedBlock true)) false none with
      | .ok compiled => (compiled.expects.get? "1").any fun e =>
          (e.steps.flatMap readingsOfStep).map Reading.isSub == [false, true, false, false]
      | .error _ => false) = true := by
    decide +kernel
  have hwritten : ((readingsOf (weave tiedPart.start tiedPart.text
      (tiedPart.share (Source.ofParts (tiedBlock true)).values))).map Reading.normal).map
        Reading.isSub = [false, false, true, false] := by
    decide +kernel
  refine ⟨ownBlock_tiedBlock true, ?_⟩
  split at hcheck
  · next compiled hcompile =>
    cases hget : compiled.expects.get? "1" with
    | none =>
      rw [hget] at hcheck
      cases hcheck
    | some e =>
      rw [hget] at hcheck
      refine ⟨compiled, e, hcompile, hget, fun heq => ?_⟩
      rw [Option.any_some, heq, hwritten] at hcheck
      cases hcheck
  · cases hcheck

end HotSpec.Spec
