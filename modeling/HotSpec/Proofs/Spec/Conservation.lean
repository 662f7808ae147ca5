import HotSpec.Proofs.Spec.Blocks
import HotSpec.Proofs.Spec.Labels
import Mathlib

/-!
# No value is lost or doubled

The values of a spec that compiles come back in its expectations, each of them in the places that it
was written for: callables of condition lines as hooks, callables of a block as its subs, patterns of a
block in one step of HTML, and patterns of lines once in each step of HTML.

Main definitions:

- `callablesOf`, `regexesOf`: the callables and the patterns among values.
- `hooksOf`, `subsOf`, `lineRegexes`, `blockRegexes`: what the parts of a label were written with.
- `Draft.Keeps`: a draft that holds what the parts read so far were written with.
- `Conserved`: an expectation that holds what the parts of its label were written with.

Main results:

- Theorem `keeps_addPart`: one more part is kept.
- Theorem `keeps_read`: all parts of a label are kept.
- Theorem `conserved_finish`: the expectation of a draft holds what the draft holds.
- Theorem `values_conserved`: the values of a spec come back where they were written.
-/

namespace HotSpec.Spec

open Html (Token Expected)

/-! ## Callables and patterns -/

/-- The pattern that an anchored value is. -/
def Anchored.regex? (a : Anchored) : Option Regex :=
  match a.value with
  | .regex r => some r
  | _ => none

/-- The callables among values, in order. -/
def callablesOf (values : List Anchored) : List Value :=
  (values.filter Anchored.isCallable).map Anchored.value

/-- The patterns among values, in order. -/
def regexesOf (values : List Anchored) : List Regex := values.filterMap Anchored.regex?

/-- The pattern that a token is. -/
def tokenRegex? : Token → Option Regex
  | .literal _ => none
  | .pattern r => some r

/-- The patterns among tokens, in order. -/
def tokenRegexes (tokens : List Token) : List Regex := tokens.filterMap tokenRegex?

/-- The patterns of expected HTML, in order. -/
def expectedRegexes : Expected → List Regex
  | .exact _ => []
  | .tokens tokens => tokenRegexes tokens

/-- The HTML that a step expects. -/
def stepHtml? : Step → Option Expected
  | .html expected => some expected
  | _ => none

/-- The callable that a step runs or calls. -/
def stepCallable? : Step → Option Value
  | .html _ => none
  | .sub v => some v
  | .function v => some v

/-- The pattern of a reading. -/
def Reading.regex? : Reading → Option Regex
  | .token t => tokenRegex? t
  | .sub _ => none

/-- The sub of a reading. -/
def Reading.sub? : Reading → Option Value
  | .token _ => none
  | .sub v => some v

theorem tokenRegexes_append (first second : List Token) :
    tokenRegexes (first ++ second) = tokenRegexes first ++ tokenRegexes second :=
  List.filterMap_append

theorem regex?_of_callable {a : Anchored} (h : a.isCallable = true) : a.regex? = none := by
  obtain ⟨index, value⟩ := a
  cases value with
  | regex r => cases h
  | _ => rfl

theorem regexesOf_filter (values : List Anchored) :
    regexesOf (values.filter (!·.isCallable)) = regexesOf values := by
  induction values with
  | nil => rfl
  | cons a values ih =>
    unfold regexesOf at *
    cases hcall : a.isCallable with
    | true =>
      rw [List.filter_cons_of_neg (by simp [hcall]), ih,
        List.filterMap_cons_none (regex?_of_callable hcall)]
    | false =>
      rw [List.filter_cons_of_pos (by simp [hcall])]
      cases hregex : a.regex? with
      | none => rw [List.filterMap_cons_none hregex, List.filterMap_cons_none hregex, ih]
      | some r => rw [List.filterMap_cons_some hregex, List.filterMap_cons_some hregex, ih]

/-- A divided text has the patterns that it was divided by. -/
theorem regexes_applyRegexes (start : Nat) (text : List Char) (values : List Anchored) :
    tokenRegexes (applyRegexes start text values).1 = regexesOf values := by
  have hliteral (text : List Char) : tokenRegexes (literalToken? text) = [] := by
    unfold literalToken?
    split <;> rfl
  induction values generalizing start text with
  | nil => exact hliteral text
  | cons a values ih =>
    unfold regexesOf at *
    cases hcall : a.isCallable with
    | true =>
      rw [applyRegexes_cons_of_callable _ _ hcall, List.filterMap_cons_none (regex?_of_callable hcall), ih]
    | false =>
      obtain ⟨r, hr⟩ := exists_regex hcall
      have hregex : a.regex? = some r := by simp [Anchored.regex?, hr]
      have hpattern : tokenRegex? (.pattern r) = some r := rfl
      rw [applyRegexes_cons_of_regex _ _ hr, tokenRegexes_append, hliteral, List.nil_append, tokenRegexes,
        List.filterMap_cons_some hpattern, List.filterMap_cons_some hregex, ← ih]
      rfl

/-- A text cut at values has the patterns and the callables among them. -/
theorem weave_values (start : Nat) (text : List Char) (values : List Anchored) :
    (readingsOf (weave start text values)).filterMap Reading.regex? = regexesOf values ∧
      (readingsOf (weave start text values)).filterMap Reading.sub? = callablesOf values := by
  have htext (text : List Char) : (Piece.text text).reading?.toList.filterMap Reading.regex? = [] ∧
      (Piece.text text).reading?.toList.filterMap Reading.sub? = [] := by
    rw [reading?_text]
    unfold literalToken?
    split <;> exact ⟨rfl, rfl⟩
  induction values generalizing start text with
  | nil =>
    rw [weave, readingsOf_cons, List.filterMap_append, List.filterMap_append, (htext text).1,
      (htext text).2]
    exact ⟨rfl, rfl⟩
  | cons a values ih =>
    obtain ⟨ihregexes, ihsubs⟩ := ih a.index (text.drop (a.index - start))
    rw [weave, readingsOf_cons, readingsOf_cons]
    simp only [List.filterMap_append, (htext _).1, (htext _).2, List.nil_append, ihregexes, ihsubs]
    unfold regexesOf callablesOf
    cases hcall : a.isCallable with
    | true =>
      rw [reading?_callable hcall, List.filterMap_cons_none (regex?_of_callable hcall),
        List.filter_cons_of_pos hcall]
      exact ⟨rfl, rfl⟩
    | false =>
      obtain ⟨r, hr⟩ := exists_regex hcall
      have hregex : a.regex? = some r := by simp [Anchored.regex?, hr]
      rw [hr, List.filterMap_cons_some hregex, List.filter_cons_of_neg (by simp [hcall])]
      exact ⟨rfl, rfl⟩

/-! ## What a label was written with -/

/-- The callables on the condition lines of a label. -/
def hooksOf (label : String) (values : List Anchored) (parts : List Part) : List Value :=
  parts.flatMap fun p =>
    if p.label = some label ∧ p.block = false then callablesOf (p.share values) else []

/-- The callables in the blocks of a label. -/
def subsOf (label : String) (values : List Anchored) (parts : List Part) : List Value :=
  parts.flatMap fun p =>
    if p.label = some label ∧ p.block = true then callablesOf (p.share values) else []

/-- The patterns on the condition lines of a label and on the lines without a label. -/
def lineRegexes (label : String) (values : List Anchored) (parts : List Part) : List Regex :=
  parts.flatMap fun p =>
    if p.label = none ∨ p.label = some label ∧ p.block = false then regexesOf (p.share values)
    else []

/-- The patterns in the blocks of a label. -/
def blockRegexes (label : String) (values : List Anchored) (parts : List Part) : List Regex :=
  parts.flatMap fun p =>
    if p.label = some label ∧ p.block = true then regexesOf (p.share values) else []

/-! ## What a draft holds -/

/-- A draft that holds what it was written with, on its lines and in its block.  The first hook is in
front of the second one. -/
structure Draft.Keeps (hooks subs : List Value) (lines block : List Regex) (d : Draft) : Prop where
  hooks : d.before.toList ++ d.after.toList = hooks
  order : d.before = none → d.after = none
  lines : tokenRegexes d.lines.flatten = lines
  noBlock : d.steps = none → subs = [] ∧ block = []
  block : ∀ steps index, d.steps = some (steps, index) →
    (steps.flatMap BlockStep.readings).filterMap Reading.sub? = subs ∧
      (steps.flatMap BlockStep.readings).filterMap Reading.regex? = block

namespace Draft

variable {d d' : Draft} {hooks subs : List Value} {lines block : List Regex}

theorem keeps_empty : empty.Keeps [] [] [] [] where
  hooks := rfl
  order _ := rfl
  lines := rfl
  noBlock _ := ⟨rfl, rfl⟩
  block _ _ h := nomatch h

theorem keeps_addLine (h : d.Keeps hooks subs lines block) (tokens : List Token) :
    (d.addLine tokens).Keeps hooks subs (lines ++ tokenRegexes tokens) block where
  hooks := h.hooks
  order := h.order
  lines := by
    rw [← h.lines, ← tokenRegexes_append]
    simp [addLine]
  noBlock := h.noBlock
  block := h.block

/-- The callables of a condition line become hooks, in their order. -/
theorem keeps_addHooks {values : List Anchored} (h : d.Keeps hooks subs lines block)
    (hadd : d.addHooks values = .ok d') :
    d'.Keeps (hooks ++ values.map Anchored.value) subs lines block := by
  induction values generalizing d hooks with
  | nil =>
    cases hadd
    simpa using h
  | cons a values ih =>
    rw [addHooks] at hadd
    split at hadd
    · next d₁ hhook =>
      have hkeeps : d₁.Keeps (hooks ++ [a.value]) subs lines block := by
        have hhooks := h.hooks
        unfold addHook? at hhook
        split at hhook
        · next hbefore =>
          cases hhook
          rw [hbefore, h.order hbefore] at hhooks
          exact ⟨by simp [← hhooks, h.order hbefore], nofun, h.lines, h.noBlock, h.block⟩
        · next first hbefore hafter =>
          cases hhook
          rw [hbefore, hafter] at hhooks
          refine ⟨by simp [← hhooks, hbefore], fun hnone => ?_, h.lines, h.noBlock, h.block⟩
          exact absurd (hbefore.symm.trans hnone) (by simp)
        · cases hhook
      have hrest := ih hkeeps hadd
      simpa using hrest
    · cases hadd

theorem keeps_title (h : d.Keeps hooks subs lines block) (title : Option String) :
    ({ d with title := title } : Draft).Keeps hooks subs lines block :=
  ⟨h.hooks, h.order, h.lines, h.noBlock, h.block⟩

/-- A block with values is kept where there was none before. -/
theorem keeps_block {p : Part} {values : List Anchored} {steps : List BlockStep} {index : Nat}
    (h : d.Keeps hooks subs lines block) (hnone : d.steps = none)
    (hlength : p.text.length = p.stop - p.start) (hle : p.start ≤ p.stop) (hsorted : Sorted values)
    (hholds : ∀ a ∈ values, p.holds a = true) (hsteps : blockSteps p values = .ok steps) :
    ({ d with steps := some (steps, index) } : Draft).Keeps hooks (subs ++ callablesOf values) lines
      (block ++ regexesOf values) := by
  obtain ⟨rfl, rfl⟩ := h.noBlock hnone
  obtain ⟨hreadings, -⟩ := blockSteps_spec hlength hle hsorted hholds hsteps
  obtain ⟨hsubs, hregexes⟩ := filter_merged
    (fun a (ha : a ∈ values.filter Anchored.isCallable) => (List.mem_filter.mp ha).2)
    (fun a (ha : a ∈ values.filter (!·.isCallable)) => by simpa using (List.mem_filter.mp ha).2)
  obtain ⟨hweaveRegexes, hweaveSubs⟩ := weave_values p.start p.text
    (merged (values.filter Anchored.isCallable) (values.filter (!·.isCallable)))
  refine ⟨h.hooks, h.order, h.lines, nofun, fun steps' index' heq => ?_⟩
  cases heq
  rw [hreadings, hweaveRegexes, hweaveSubs, ← regexesOf_filter, hregexes, regexesOf_filter,
    callablesOf, hsubs]
  exact ⟨rfl, rfl⟩

/-- One more part of a label is kept. -/
theorem keeps_addPart {p : Part} {values : List Anchored} (h : d.Keeps hooks subs lines block)
    (hlength : p.text.length = p.stop - p.start) (hle : p.start ≤ p.stop) (hsorted : Sorted values)
    (hholds : ∀ a ∈ values, p.holds a = true) (hadd : d.addPart p values = .ok d') :
    if p.block then
      d'.Keeps hooks (subs ++ callablesOf values) lines (block ++ regexesOf values)
    else d'.Keeps (hooks ++ callablesOf values) subs (lines ++ regexesOf values) block := by
  obtain ⟨d₀, htitled, hkeeps⟩ : ∃ d₀ : Draft,
      (if p.title.isSome then { d with title := p.title } else d) = d₀ ∧
        d₀.Keeps hooks subs lines block := by
    refine ⟨_, rfl, ?_⟩
    split
    · exact keeps_title h _
    · exact h
  unfold addPart at hadd
  simp only [htitled] at hadd
  by_cases hempty : values = []
  · subst hempty
    obtain rfl := Except.ok.inj hadd
    have hline := keeps_addLine hkeeps [.literal (String.ofList p.text)]
    have hnone : tokenRegexes [.literal (String.ofList p.text)] = [] := rfl
    rw [hnone, List.append_nil] at hline
    simpa [callablesOf, regexesOf] using hline
  · rw [if_neg (by simpa using hempty)] at hadd
    by_cases hblock : p.block = true
    · rw [if_pos hblock] at hadd ⊢
      split at hadd
      · cases hadd
      · next hsteps =>
        obtain ⟨steps, hsteps', heq⟩ := ok_of_bind hadd
        cases heq
        exact keeps_block hkeeps (by simpa using hsteps) hlength hle hsorted hholds hsteps'
    · rw [if_neg hblock] at hadd ⊢
      have hregexes := regexes_applyRegexes p.start p.text values
      have hlines : (if (applyRegexes p.start p.text values).1.isEmpty = true then d₀
          else d₀.addLine (applyRegexes p.start p.text values).1).Keeps hooks subs
            (lines ++ regexesOf values) block := by
        split
        · next hnil =>
          rw [List.isEmpty_iff.mp hnil] at hregexes
          rw [← hregexes]
          simpa [tokenRegexes] using hkeeps
        · rw [← hregexes]
          exact keeps_addLine hkeeps _
      rw [applyRegexes_snd] at hadd
      exact keeps_addHooks hlines hadd

/-- All parts of a label are kept. -/
theorem keeps_read {label : String} {values : List Anchored} {source : List Char}
    {parts : List Part} (h : d.Keeps hooks subs lines block) (hsorted : Sorted values)
    (hlaid : ∀ p ∈ parts, p.Laid source) (hread : d.read label values parts = .ok d') :
    d'.Keeps (hooks ++ hooksOf label values parts) (subs ++ subsOf label values parts)
      (lines ++ lineRegexes label values parts) (block ++ blockRegexes label values parts) := by
  induction parts generalizing d hooks subs lines block with
  | nil =>
    cases hread
    simpa [hooksOf, subsOf, lineRegexes, blockRegexes] using h
  | cons p parts ih =>
    obtain ⟨d₁, hpart, hrest⟩ := ok_of_bind hread
    have hp := hlaid p List.mem_cons_self
    have hlater := fun q hq => hlaid q (List.mem_cons_of_mem p hq)
    have hshare : Sorted (p.share values) := List.Pairwise.sublist List.filter_sublist hsorted
    unfold readPart at hpart
    split at hpart
    · next hnone =>
      cases hpart
      have hline := keeps_addLine h (applyRegexes p.start p.text (p.share values)).1
      rw [regexes_applyRegexes] at hline
      simpa [hooksOf, subsOf, lineRegexes, blockRegexes, hnone] using ih hline hlater hrest
    · next l hlabel =>
      by_cases hsame : l = label
      · subst hsame
        rw [if_pos rfl] at hpart
        have hkept := keeps_addPart h hp.length hp.le hshare
          (fun a ha => (List.mem_filter.mp ha).2) hpart
        cases hblock : p.block with
        | true =>
          rw [if_pos hblock] at hkept
          simpa [hooksOf, subsOf, lineRegexes, blockRegexes, hlabel, hblock] using
            ih hkept hlater hrest
        | false =>
          rw [if_neg (by simp [hblock])] at hkept
          simpa [hooksOf, subsOf, lineRegexes, blockRegexes, hlabel, hblock] using
            ih hkept hlater hrest
      · rw [if_neg hsame] at hpart
        cases hpart
        simpa [hooksOf, subsOf, lineRegexes, blockRegexes, hlabel, hsame] using ih h hlater hrest

end Draft

/-! ## Expectations -/

/-- The patterns of expected HTML are those of its lines. -/
theorem expectedRegexes_ofLines (lines : List (List Token)) :
    expectedRegexes (Expected.ofLines lines) = tokenRegexes lines.flatten := by
  unfold Expected.ofLines
  generalize lines.flatten = tokens
  simp only
  split
  · next hall =>
    symm
    rw [expectedRegexes, tokenRegexes, List.filterMap_eq_nil_iff]
    intro t ht
    cases t with
    | literal text => rfl
    | pattern r => simpa [Token.isLiteral] using List.all_eq_true.mp hall _ ht
  · change tokenRegexes (tokens.filterMap Token.normal?) = _
    rw [tokenRegexes, tokenRegexes, List.filterMap_filterMap]
    apply List.filterMap_congr
    intro t _
    cases t with
    | pattern r => rfl
    | literal text =>
      simp only [Token.normal?]
      split <;> rfl

/-- An expectation that holds what the parts of its label were written with: the callables of its
lines as hooks, the callables of its block as its other steps, and in each step of HTML the patterns
of all its lines around some of its block; each pattern of the block is in one step. -/
structure Conserved (label : String) (values : List Anchored) (parts : List Part)
    (e : Expectation) : Prop where
  hooks : e.before.toList ++ e.after.toList = hooksOf label values parts
  subs : e.steps.filterMap stepCallable? = subsOf label values parts
  regexes : ∃ (front back : List Regex) (groups : List (List Regex)),
    front ++ back = lineRegexes label values parts ∧
    groups.flatten = blockRegexes label values parts ∧
    (e.steps.filterMap stepHtml?).map expectedRegexes = groups.map (front ++ · ++ back) ∧
    (groups = [] → front ++ back = [])

/-- The tokens of a step of a block that holds HTML. -/
def BlockStep.tokens? : BlockStep → Option (List Token)
  | .html tokens => some tokens
  | .sub _ => none

/-- The steps of a block, each as a step of an expectation: which of them are callables, which hold
HTML, and which patterns they have. -/
theorem steps_of_readings (above below : List (List Token)) (steps : List BlockStep) :
    (steps.map (BlockStep.finish above below)).filterMap stepCallable? =
        (steps.flatMap BlockStep.readings).filterMap Reading.sub? ∧
      (steps.map (BlockStep.finish above below)).filterMap stepHtml? =
        (steps.filterMap BlockStep.tokens?).map
          (fun tokens => Expected.ofLines (above ++ tokens :: below)) ∧
      ((steps.filterMap BlockStep.tokens?).map tokenRegexes).flatten =
        (steps.flatMap BlockStep.readings).filterMap Reading.regex? := by
  have htokens (tokens : List Token) :
      (tokens.map Reading.token).filterMap Reading.sub? = [] ∧
        (tokens.map Reading.token).filterMap Reading.regex? = tokenRegexes tokens := by
    rw [List.filterMap_map, List.filterMap_map]
    exact ⟨List.filterMap_eq_nil_iff.mpr fun _ _ => rfl, rfl⟩
  induction steps with
  | nil => exact ⟨rfl, rfl, rfl⟩
  | cons step steps ih =>
    obtain ⟨ihsubs, ihhtml, ihregexes⟩ := ih
    cases step with
    | html tokens =>
      have hreadings : (BlockStep.html tokens).readings = tokens.map Reading.token := rfl
      rw [List.flatMap_cons, List.filterMap_append, List.filterMap_append, hreadings,
        (htokens tokens).1, (htokens tokens).2, List.map_cons, ← ihsubs, ← ihregexes]
      have hstep : stepHtml? ((BlockStep.html tokens).finish above below) =
          some (Expected.ofLines (above ++ tokens :: below)) := rfl
      refine ⟨rfl, ?_, rfl⟩
      rw [List.filterMap_cons_some hstep, ihhtml]
      rfl
    | sub v =>
      rw [List.flatMap_cons, List.filterMap_append, List.filterMap_append, List.map_cons, ← ihsubs,
        ← ihregexes]
      exact ⟨rfl, ihhtml, rfl⟩

/-- The expectation of a draft holds what the draft holds. -/
theorem conserved_finish {label : String} {values : List Anchored} {parts : List Part} {d : Draft}
    {e : Expectation}
    (h : d.Keeps (hooksOf label values parts) (subsOf label values parts)
      (lineRegexes label values parts) (blockRegexes label values parts))
    (hfinish : d.finish label = .ok e) : Conserved label values parts e := by
  cases hsteps : d.steps with
  | none =>
    rw [Draft.finish_of_none hsteps] at hfinish
    cases hfinish
    obtain ⟨hsubs, hblock⟩ := h.noBlock hsteps
    refine ⟨h.hooks, hsubs.symm, lineRegexes label values parts, [], [[]], by simp, by simp [hblock],
      ?_, nofun⟩
    rw [← h.lines, ← expectedRegexes_ofLines]
    simp [stepHtml?]
  | some block =>
    obtain ⟨steps, index⟩ := block
    obtain ⟨hsubs, hblock⟩ := h.block steps index hsteps
    rw [Draft.finish_of_some hsteps] at hfinish
    split at hfinish
    · cases hfinish
    · next hshown =>
      cases hfinish
      obtain ⟨hcallables, hhtml, hregexes⟩ :=
        steps_of_readings (d.lines.take index) (d.lines.drop index) steps
      have hlines : tokenRegexes (d.lines.take index).flatten ++
          tokenRegexes (d.lines.drop index).flatten = lineRegexes label values parts := by
        rw [← tokenRegexes_append, ← List.flatten_append, List.take_append_drop]
        exact h.lines
      refine ⟨h.hooks, hcallables.trans hsubs, tokenRegexes (d.lines.take index).flatten,
        tokenRegexes (d.lines.drop index).flatten,
        (steps.filterMap BlockStep.tokens?).map tokenRegexes, hlines, hregexes.trans hblock, ?_,
        fun hnil => ?_⟩
      · refine (congrArg (List.map expectedRegexes) hhtml).trans ?_
        rw [List.map_map, List.map_map]
        apply List.map_congr_left
        intro tokens _
        simp [expectedRegexes_ofLines, tokenRegexes_append]
      · -- without a step of HTML, the lines hold nothing
        have hnone : steps.any BlockStep.isHtml = false := by
          rw [List.map_eq_nil_iff, List.filterMap_eq_nil_iff] at hnil
          rw [List.any_eq_false]
          intro step hstep
          cases step with
          | html tokens => exact absurd (hnil _ hstep) (by simp [BlockStep.tokens?])
          | sub v => simp [BlockStep.isHtml]
        have hempty : d.lines.flatten = [] := by
          rw [List.flatten_eq_nil_iff]
          intro line hline
          simp only [hnone, Bool.not_false, Bool.and_true, Draft.hasHtml, Bool.not_eq_true,
            List.any_eq_false] at hshown
          simpa using hshown line hline
        rw [hlines, ← h.lines, hempty]
        rfl

/-! ## Faults -/

/-- A fault that a spec is refused with. -/
def IsSpecFault (fault : Fault) : Prop := ∃ cause place, fault = .spec cause place

/-- A result that fails only in that a spec is refused. -/
def Refusing {α : Type} (r : Except Fault α) : Prop := ∀ fault, r = .error fault → IsSpecFault fault

theorem Refusing.bind {α β : Type} {x : Except Fault α} {f : α → Except Fault β} (hx : Refusing x)
    (hf : ∀ a, Refusing (f a)) : Refusing (x >>= f) := by
  cases x with
  | error fault =>
    rintro _ ⟨⟩
    exact hx fault rfl
  | ok a => exact hf a

theorem refusing_ok {α : Type} (a : α) : Refusing (.ok a) := by
  intro fault h
  cases h

theorem refusing_locate {α : Type} (source : List Char) (file : Option String)
    (r : Except Refusal α) : Refusing (locate source file r) := by
  cases r with
  | ok a => exact refusing_ok a
  | error refusal =>
    rintro _ ⟨⟩
    exact ⟨_, _, rfl⟩

theorem refusing_finish (label : String) (d : Draft) : Refusing (d.finish label) := by
  unfold Draft.finish
  split
  · exact refusing_ok _
  · split
    · rintro _ ⟨⟩
      exact ⟨_, _, rfl⟩
    · exact refusing_ok _

theorem refusing_finishDrafts (drafts : Drafts) : Refusing (finishDrafts drafts) := by
  induction drafts with
  | nil => exact refusing_ok _
  | cons row drafts ih =>
    obtain ⟨label, draft⟩ := row
    exact (refusing_finish label draft).bind fun _ => ih.bind fun _ => refusing_ok _

/-- A source that does not compile is refused as a spec. -/
theorem refusing_compile (source : Source) (full : Bool) (file : Option String) :
    Refusing (compile source full file) := by
  have houtline (outline : Outline) : Refusing (compileOutline source file outline) := by
    unfold compileOutline
    dsimp only
    split
    · refine ((refusing_locate _ _ _).bind fun _ =>
        (refusing_finishDrafts _).bind fun _ => refusing_ok _).bind fun row => ?_
      split
      · rintro _ ⟨⟩
        exact ⟨_, _, rfl⟩
      · exact refusing_ok _
    · refine (refusing_ok _).bind fun row => ?_
      split
      · rintro _ ⟨⟩
        exact ⟨_, _, rfl⟩
      · exact refusing_ok _
  refine (refusing_locate _ _ _).bind fun outline => (houtline outline).bind fun compiled => ?_
  split
  · rintro _ ⟨⟩
    exact ⟨_, _, rfl⟩
  · exact refusing_ok _

/-! ## Specs -/

/-- Where the values of a spec are once it is compiled: each is inside one part of the expectations,
callables in parts with a label, and each label holds what its parts were written with. -/
structure Placed (source : Source) (s : Section) (expects : Table Expectation) : Prop where
  laid : s.Laid source.text
  keys : expects.keys = s.labels
  value : ∀ a ∈ source.values, ∃ p ∈ s.parts, p.holds a = true ∧
    (a.isCallable = true → p.label ≠ none) ∧ ∀ q ∈ s.parts, q.holds a = true → q = p
  label : ∀ label ∈ s.labels, ∃ e, expects.get? label = some e ∧
    Conserved label source.values s.parts e

/-- No two parts hold the same value. -/
theorem Section.Laid.eq_of_holds {source : List Char} {s : Section} (h : s.Laid source)
    {p q : Part} {a : Anchored} (hp : p ∈ s.parts) (hq : q ∈ s.parts) (hpa : p.holds a = true)
    (hqa : q.holds a = true) : p = q :=
  eq_of_covers h.apart hq hp (Part.holds_iff.mp hqa) (Part.holds_iff.mp hpa)

theorem Routed.placed {source : Source} {s : Section} {expects : Table Expectation}
    (h : Routed source s expects) (hsorted : Sorted source.values) :
    Placed source s expects where
  laid := h.laid
  keys := h.keys
  value a ha := by
    obtain ⟨p, hp, hholds, hlabel⟩ := h.value a ha
    exact ⟨p, hp, hholds, hlabel, fun q hq hqa => h.laid.eq_of_holds hq hp hqa hholds⟩
  label label hlabel := by
    obtain ⟨d, e, hread, hfinish, hget⟩ := h.label label hlabel
    have hkeeps := Draft.keeps_read Draft.keeps_empty hsorted h.laid.parts hread
    exact ⟨e, hget, conserved_finish hkeeps hfinish⟩

/-- The values of a mixed list are anchored in its source in their order.  Where it compiles, each of
them is in the places of its part and in no others; and where a callable was written anywhere but on a
condition line or in a block, it is refused. -/
theorem values_conserved (parts : List Value) (full : Bool) (file : Option String) :
    (Source.ofParts parts).values.map Anchored.value = parts.filter isAnchoring ∧
    (∀ compiled, compileValue (.list parts) full file = .ok compiled →
      ∃ outline, Outline.of (Source.ofParts parts).text full = .ok outline ∧
        (outline.expectations = none →
          (Source.ofParts parts).values = [] ∧ compiled.expects = []) ∧
        ∀ s, outline.expectations = some s → Placed (Source.ofParts parts) s compiled.expects) ∧
    ((∃ a ∈ (Source.ofParts parts).values, a.isCallable = true ∧ ∀ outline s,
        Outline.of (Source.ofParts parts).text full = .ok outline →
        outline.expectations = some s → ∀ p ∈ s.parts, p.holds a = true → p.label = none) →
      ∃ cause place, compileValue (.list parts) full file = .error (.spec cause place)) := by
  have hsorted : Sorted (Source.ofParts parts).values := sorted_ofParts parts
  have hcompile : compileValue (.list parts) full file =
      compile (Source.ofParts parts) full file := rfl
  refine ⟨values_ofParts parts, fun compiled h => ?_, fun ⟨a, ha, hcallable, helsewhere⟩ => ?_⟩
  · obtain ⟨outline, houtline, hnone, hrouted⟩ := routed_compile hsorted (hcompile ▸ h)
    exact ⟨outline, houtline, hnone, fun s hs => (hrouted s hs).placed hsorted⟩
  · rw [hcompile]
    cases hresult : compile (Source.ofParts parts) full file with
    | error fault =>
      obtain ⟨cause, place, rfl⟩ := refusing_compile _ _ _ fault hresult
      exact ⟨cause, place, rfl⟩
    | ok compiled =>
      obtain ⟨outline, houtline, hnone, hrouted⟩ := routed_compile hsorted hresult
      cases hs : outline.expectations with
      | none =>
        rw [(hnone hs).1] at ha
        cases ha
      | some s =>
        obtain ⟨p, hp, hholds, hlabel⟩ := (hrouted s hs).value a ha
        exact absurd (helsewhere outline s houtline hs p hp hholds) (hlabel hcallable)

/-- A condition line with a pattern and a callable. -/
def hookedLine : List Value :=
  [.text "****\n::1 <p>", .regex ⟨"", ⟨false, false, false⟩, .empty⟩, .text "</p>",
    .routine ⟨"s", [], .nothing⟩, .text "\n"]

/-- The callable of the line is the hook of its label, and the pattern is in its step of HTML. -/
theorem values_conserved_line : ∃ compiled e,
    compileValue (.list hookedLine) false none = .ok compiled ∧
    compiled.expects.get? "1" = some e ∧
    e.before.toList ++ e.after.toList = [.routine ⟨"s", [], .nothing⟩] ∧
    ∀ expected ∈ e.steps.filterMap stepHtml?,
      expectedRegexes expected = [⟨"", ⟨false, false, false⟩, .empty⟩] := by
  have hok : (compileValue (.list hookedLine) false none).isOk = true := by
    decide +kernel
  have hcheck : (match Outline.of (Source.ofParts hookedLine).text false with
      | .ok outline => outline.expectations ==
          some ⟨[⟨some "1", "<p></p>\n".toList, 9, 17, false, none⟩], ["1"]⟩
      | .error _ => false) = true := by
    decide +kernel
  cases hcompile : compileValue (.list hookedLine) false none with
  | error fault =>
    rw [hcompile] at hok
    cases hok
  | ok compiled =>
    obtain ⟨outline, houtline, -, hplaced⟩ :=
      (values_conserved hookedLine false none).2.1 compiled hcompile
    rw [houtline] at hcheck
    obtain ⟨e, hget, hconserved⟩ := (hplaced _ (beq_iff_eq.mp hcheck)).label "1" (by simp)
    obtain ⟨front, back, groups, hlines, hblock, hregexes, hnone⟩ := hconserved.regexes
    have hfront : front ++ back = [⟨"", ⟨false, false, false⟩, .empty⟩] := hlines
    have hgroups : groups.flatten = [] := hblock
    refine ⟨compiled, e, rfl, hget, hconserved.hooks, fun expected hexpected => ?_⟩
    have hmem := List.mem_map_of_mem (f := expectedRegexes) hexpected
    rw [hregexes] at hmem
    obtain ⟨group, hgroup, heq⟩ := List.mem_map.mp hmem
    rw [← heq, List.flatten_eq_nil_iff.mp hgroups group hgroup, List.append_nil, hfront]

end HotSpec.Spec
