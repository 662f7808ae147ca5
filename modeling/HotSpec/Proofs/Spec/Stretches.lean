import HotSpec.Proofs.Spec.Shares
import Mathlib

/-!
# A text divided by its patterns

A text with values is cut at the offsets of its patterns, and nowhere else.  The stretches between the
cuts lie side by side and fill the text; those that are not blank are its literals, with the patterns
between them, and whatever is no pattern is left over in its order.

Main definitions:

- `Stretch`, `stretchesFrom`: what lies between two offsets, and the stretches between cuts.
- `Anchored.pattern?`: a pattern with its offset.
- `interleaved`: texts with patterns between them, less the texts that are blank.

Main results:

- Theorem `fst_applyRegexes_eq_interleaved`: the tokens of a text are its stretches and its patterns.
- Theorem `countP_visible`: a character that is not blank is in exactly one of the stretches kept.
- Theorem `divided_at_patterns`: all of it at once.
-/

namespace HotSpec.Spec

open HotSpec.Text
open Html (Token)

/-! ## Stretches -/

/-- What lies between two offsets. -/
structure Stretch where
  start : Nat
  stop : Nat
  deriving Repr, DecidableEq

namespace Stretch

/-- The characters of a stretch, in a text that starts at an offset. -/
def textIn (s : Stretch) (start : Nat) (text : List Char) : List Char :=
  (text.drop (s.start - start)).take (s.stop - s.start)

/-- Whether an offset lies in a stretch. -/
def contains (s : Stretch) (index : Nat) : Bool := s.start ≤ index && index < s.stop

theorem contains_iff {s : Stretch} {index : Nat} :
    s.contains index = true ↔ s.start ≤ index ∧ index < s.stop := by
  simp [contains]

/-- A stretch of the rest of a text is a stretch of the text. -/
theorem textIn_drop {s : Stretch} {start middle : Nat} (text : List Char) (hstart : start ≤ middle)
    (hmiddle : middle ≤ s.start) :
    s.textIn middle (text.drop (middle - start)) = s.textIn start text := by
  rw [textIn, textIn, List.drop_drop, show middle - start + (s.start - middle) = s.start - start by omega]

/-- A stretch with a visible character is not blank. -/
theorem blank_textIn_of_contains {s : Stretch} {start i : Nat} {text : List Char} {c : Char}
    (hc : text[i]? = some c) (hvisible : isBlank c = false) (hstart : start ≤ s.start)
    (h : s.contains (start + i) = true) : blank (s.textIn start text) = false := by
  obtain ⟨hle, hlt⟩ := contains_iff.mp h
  have hmem : c ∈ s.textIn start text := by
    refine List.mem_of_getElem? (i := start + i - s.start) ?_
    rw [textIn, List.getElem?_take_of_lt (by omega), List.getElem?_drop,
      show s.start - start + (start + i - s.start) = i by omega, hc]
  rw [blank, List.all_eq_false]
  exact ⟨c, hmem, by simp [hvisible]⟩

end Stretch

/-- The stretches between offsets, the first of them from `start` on and the last one up to `stop`. -/
def stretchesFrom (start stop : Nat) : List Nat → List Stretch
  | [] => [⟨start, stop⟩]
  | cut :: cuts => ⟨start, cut⟩ :: stretchesFrom cut stop cuts

section

variable {start stop : Nat} {cuts : List Nat}

/-- Offsets in their order, from `start` up to `stop`. -/
def CutsWithin (start stop : Nat) (cuts : List Nat) : Prop :=
  cuts.Pairwise (· ≤ ·) ∧ ∀ cut ∈ cuts, start ≤ cut ∧ cut ≤ stop

theorem CutsWithin.tail {cut : Nat} (h : CutsWithin start stop (cut :: cuts)) :
    CutsWithin cut stop cuts := by
  obtain ⟨hfirst, hsorted⟩ := List.pairwise_cons.mp h.1
  exact ⟨hsorted, fun c hc => ⟨hfirst c hc, (h.2 c (List.mem_cons_of_mem _ hc)).2⟩⟩

theorem CutsWithin.head {cut : Nat} (h : CutsWithin start stop (cut :: cuts)) :
    start ≤ cut ∧ cut ≤ stop :=
  h.2 cut List.mem_cons_self

/-- All stretches lie between the ends. -/
theorem bounds_stretchesFrom (hle : start ≤ stop) (h : CutsWithin start stop cuts) :
    ∀ s ∈ stretchesFrom start stop cuts, start ≤ s.start ∧ s.start ≤ s.stop ∧ s.stop ≤ stop := by
  induction cuts generalizing start with
  | nil =>
    intro s hs
    obtain rfl := List.mem_singleton.mp hs
    exact ⟨Nat.le_refl _, hle, Nat.le_refl _⟩
  | cons cut cuts ih =>
    obtain ⟨hstart, hstop⟩ := h.head
    intro s hs
    rcases List.mem_cons.mp hs with rfl | hs
    · exact ⟨Nat.le_refl _, hstart, hstop⟩
    · obtain ⟨hfirst, hrest⟩ := ih hstop h.tail s hs
      exact ⟨Nat.le_trans hstart hfirst, hrest⟩

/-- Each stretch starts where the one in front of it stops, or later. -/
theorem pairwise_stretchesFrom (hle : start ≤ stop) (h : CutsWithin start stop cuts) :
    (stretchesFrom start stop cuts).Pairwise fun s t => s.stop ≤ t.start := by
  induction cuts generalizing start with
  | nil => exact List.pairwise_singleton _ _
  | cons cut cuts ih =>
    have hstop := h.head.2
    exact List.pairwise_cons.mpr
      ⟨fun t ht => (bounds_stretchesFrom hstop h.tail t ht).1, ih hstop h.tail⟩

/-- An offset between the ends is in exactly one stretch. -/
theorem countP_stretchesFrom (hle : start ≤ stop) (h : CutsWithin start stop cuts) (index : Nat) :
    (stretchesFrom start stop cuts).countP (·.contains index) =
      if start ≤ index ∧ index < stop then 1 else 0 := by
  induction cuts generalizing start with
  | nil =>
    rw [stretchesFrom, List.countP_singleton]
    simp only [Stretch.contains_iff]
  | cons cut cuts ih =>
    obtain ⟨hstart, hstop⟩ := h.head
    rw [stretchesFrom, List.countP_cons, ih hstop h.tail]
    simp only [Stretch.contains_iff]
    split_ifs <;> omega

/-- The stretches, put one after the other, are the text. -/
theorem flatten_stretchesFrom {text : List Char} (h : CutsWithin start (start + text.length) cuts) :
    ((stretchesFrom start (start + text.length) cuts).map (·.textIn start text)).flatten = text := by
  induction cuts generalizing start text with
  | nil => simp [stretchesFrom, Stretch.textIn]
  | cons cut cuts ih =>
    obtain ⟨hstart, hstop⟩ := h.head
    have hlength : cut + (text.drop (cut - start)).length = start + text.length := by
      rw [List.length_drop]
      omega
    have hwithin : CutsWithin cut (cut + (text.drop (cut - start)).length) cuts := hlength.symm ▸ h.tail
    have hrest := ih hwithin
    rw [hlength] at hrest
    have hmoved : (stretchesFrom cut (start + text.length) cuts).map
          (·.textIn cut (text.drop (cut - start))) =
        (stretchesFrom cut (start + text.length) cuts).map (·.textIn start text) :=
      List.map_congr_left fun s hs =>
        Stretch.textIn_drop text hstart (bounds_stretchesFrom hstop h.tail s hs).1
    rw [hmoved] at hrest
    rw [stretchesFrom, List.map_cons, List.flatten_cons, hrest]
    simp [Stretch.textIn]

end

/-! ## Patterns -/

/-- The pattern that a value is, if it is one, with its offset. -/
def Anchored.pattern? (a : Anchored) : Option (Nat × Regex) :=
  match a.value with
  | .regex r => some (a.index, r)
  | _ => none

theorem Anchored.pattern?_of_regex {a : Anchored} {r : Regex} (h : a.value = .regex r) :
    a.pattern? = some (a.index, r) := by
  simp [pattern?, h]

theorem Anchored.pattern?_of_callable {a : Anchored} (h : a.isCallable = true) :
    a.pattern? = none := by
  obtain ⟨index, value⟩ := a
  cases value with
  | regex r => cases h
  | _ => rfl

/-- The patterns among some values, each with its offset. -/
def patternsAmong (values : List Anchored) : List (Nat × Regex) := values.filterMap Anchored.pattern?

/-- The offsets of the patterns of a text cut it in their order. -/
theorem cutsWithin_patternsAmong {start stop : Nat} {values : List Anchored} (hsorted : Sorted values)
    (hwithin : ∀ a ∈ values, start ≤ a.index ∧ a.index ≤ stop) :
    CutsWithin start stop ((patternsAmong values).map Prod.fst) := by
  induction values with
  | nil => exact ⟨List.Pairwise.nil, by simp [patternsAmong]⟩
  | cons a values ih =>
    obtain ⟨hfirst, hsorted⟩ := List.pairwise_cons.mp hsorted
    have hrest := ih hsorted fun b hb => hwithin b (List.mem_cons_of_mem _ hb)
    cases hcall : a.isCallable with
    | true => rwa [patternsAmong, List.filterMap_cons_none (Anchored.pattern?_of_callable hcall)]
    | false =>
      obtain ⟨r, hr⟩ := exists_regex hcall
      rw [patternsAmong, List.filterMap_cons_some (Anchored.pattern?_of_regex hr), List.map_cons]
      refine ⟨List.pairwise_cons.mpr ⟨?_, hrest.1⟩, List.forall_mem_cons.mpr
        ⟨hwithin a List.mem_cons_self, hrest.2⟩⟩
      intro cut hcut
      obtain ⟨pair, hpair, rfl⟩ := List.mem_map.mp hcut
      obtain ⟨b, hb, hpattern⟩ := List.mem_filterMap.mp hpair
      obtain ⟨s, hs⟩ : ∃ s, b.value = .regex s := by
        refine exists_regex (Bool.eq_false_iff.mpr fun hcallable => ?_)
        rw [Anchored.pattern?_of_callable hcallable] at hpattern
        cases hpattern
      rw [Anchored.pattern?_of_regex hs] at hpattern
      obtain rfl := Option.some.inj hpattern
      exact hfirst b hb

/-! ## Tokens -/

/-- Texts with patterns between them, less the texts that are blank. -/
def interleaved : List (List Char) → List Regex → List Token
  | text :: texts, r :: regexes => literalToken? text ++ .pattern r :: interleaved texts regexes
  | texts, _ => texts.flatMap literalToken?

theorem filter_literalToken? (text : List Char) :
    (literalToken? text).filter Token.isLiteral = literalToken? text := by
  unfold literalToken?
  split <;> rfl

/-- The literals among texts and patterns are the texts that are not blank. -/
theorem filter_interleaved (texts : List (List Char)) (regexes : List Regex) :
    (interleaved texts regexes).filter Token.isLiteral = texts.flatMap literalToken? := by
  fun_induction interleaved texts regexes with
  | case1 text texts r regexes ih =>
    rw [List.filter_append, List.filter_cons_of_neg (by simp [Token.isLiteral]), ih,
      filter_literalToken?, List.flatMap_cons]
  | case2 texts regexes =>
    rw [List.filter_flatMap]
    exact List.flatMap_congr fun text _ => filter_literalToken? text

theorem flatMap_literalToken? (texts : List (List Char)) :
    texts.flatMap literalToken? =
      (texts.filter fun text => !blank text).map fun text => .literal (String.ofList text) := by
  induction texts with
  | nil => rfl
  | cons text texts ih =>
    rw [List.flatMap_cons, ih, literalToken?, List.filter_cons]
    cases blank text <;> rfl

/-- The tokens of a text are its stretches and its patterns. -/
theorem fst_applyRegexes_eq_interleaved {start : Nat} {text : List Char} {values : List Anchored}
    (hsorted : Sorted values)
    (hwithin : ∀ a ∈ values, start ≤ a.index ∧ a.index ≤ start + text.length) :
    (applyRegexes start text values).1 =
      interleaved
        ((stretchesFrom start (start + text.length) ((patternsAmong values).map Prod.fst)).map
          (·.textIn start text))
        ((patternsAmong values).map Prod.snd) := by
  induction values generalizing start text with
  | nil => simp [applyRegexes, patternsAmong, stretchesFrom, interleaved, Stretch.textIn]
  | cons a values ih =>
    have hcuts := cutsWithin_patternsAmong hsorted hwithin
    obtain ⟨hfirst, hsorted⟩ := List.pairwise_cons.mp hsorted
    have hrest := fun b hb => hwithin b (List.mem_cons_of_mem _ hb)
    cases hcall : a.isCallable with
    | true =>
      rw [applyRegexes_cons_of_callable _ _ hcall, ih hsorted hrest, patternsAmong, patternsAmong,
        List.filterMap_cons_none (Anchored.pattern?_of_callable hcall)]
    | false =>
      obtain ⟨r, hr⟩ := exists_regex hcall
      obtain ⟨hstart, hstop⟩ := hwithin a List.mem_cons_self
      have hlength : a.index + (text.drop (a.index - start)).length = start + text.length := by
        rw [List.length_drop]
        omega
      -- what follows the pattern is divided like a text that starts at its offset
      have hwithin' : ∀ b ∈ values, a.index ≤ b.index ∧
          b.index ≤ a.index + (text.drop (a.index - start)).length :=
        fun b hb => ⟨hfirst b hb, hlength.symm ▸ (hrest b hb).2⟩
      have hbehind := ih hsorted hwithin'
      have hpatterns : patternsAmong (a :: values) = (a.index, r) :: patternsAmong values :=
        List.filterMap_cons_some (Anchored.pattern?_of_regex hr)
      rw [hpatterns, List.map_cons] at hcuts
      have hmoved : (stretchesFrom a.index (start + text.length)
            ((patternsAmong values).map Prod.fst)).map
              (·.textIn a.index (text.drop (a.index - start))) =
          (stretchesFrom a.index (start + text.length) ((patternsAmong values).map Prod.fst)).map
            (·.textIn start text) :=
        List.map_congr_left fun s hs =>
          Stretch.textIn_drop text hstart (bounds_stretchesFrom hstop hcuts.tail s hs).1
      have hcut : start + (a.index - start) = a.index := by omega
      rw [hlength, hmoved] at hbehind
      rw [applyRegexes_cons_of_regex _ _ hr, hcut, hbehind, hpatterns, List.map_cons, List.map_cons,
        stretchesFrom, List.map_cons, interleaved]
      simp [Stretch.textIn]

/-! ## The whole text -/

/-- The stretches of a text between its patterns, less those that are blank. -/
def keptStretches (start : Nat) (text : List Char) (values : List Anchored) : List Stretch :=
  (stretchesFrom start (start + text.length) ((patternsAmong values).map Prod.fst)).filter
    fun s => !blank (s.textIn start text)

/-- A character that is not blank is in exactly one of the stretches that are kept. -/
theorem countP_visible {start : Nat} {text : List Char} {values : List Anchored}
    (hsorted : Sorted values)
    (hwithin : ∀ a ∈ values, start ≤ a.index ∧ a.index ≤ start + text.length) {i : Nat} {c : Char}
    (hc : text[i]? = some c) (hvisible : isBlank c = false) :
    (keptStretches start text values).countP (·.contains (start + i)) = 1 := by
  have hcuts := cutsWithin_patternsAmong hsorted hwithin
  have hlt := (List.getElem?_eq_some_iff.mp hc).1
  have hone := countP_stretchesFrom (Nat.le_add_right start text.length) hcuts (start + i)
  rw [if_pos ⟨Nat.le_add_right _ _, by omega⟩] at hone
  rw [keptStretches, List.countP_filter, ← hone]
  refine List.countP_congr fun s hs => ?_
  have hstart := (bounds_stretchesFrom (Nat.le_add_right _ _) hcuts s hs).1
  have hblank := Stretch.blank_textIn_of_contains hc hvisible hstart
  simpa using hblank

/-- A text with values, all in the order of their offsets and inside the text, is cut at its patterns.
Its tokens are the stretches between the cuts, with the patterns between them; the blank ones and no
others are left out.  The stretches put one after the other are the text.  Those that are kept are its
literals: none reaches into the next one, and each visible character is in exactly one of them.  The
values that are no patterns are left over, in their order. -/
theorem divided_at_patterns {start : Nat} {text : List Char} {values : List Anchored}
    (hsorted : Sorted values)
    (hwithin : ∀ a ∈ values, start ≤ a.index ∧ a.index ≤ start + text.length) :
    let stretches :=
      stretchesFrom start (start + text.length) ((patternsAmong values).map Prod.fst)
    (applyRegexes start text values).1 =
        interleaved (stretches.map (·.textIn start text)) ((patternsAmong values).map Prod.snd) ∧
      (stretches.map (·.textIn start text)).flatten = text ∧
      (applyRegexes start text values).1.filter Token.isLiteral =
        (keptStretches start text values).map (.literal <| String.ofList <| ·.textIn start text) ∧
      (keptStretches start text values).Pairwise (fun s t => s.stop ≤ t.start) ∧
      (∀ i c, text[i]? = some c → isBlank c = false →
        (keptStretches start text values).countP (·.contains (start + i)) = 1) ∧
      (applyRegexes start text values).2 = values.filter Anchored.isCallable := by
  have hcuts := cutsWithin_patternsAmong hsorted hwithin
  have htokens := fst_applyRegexes_eq_interleaved hsorted hwithin
  refine ⟨htokens, flatten_stretchesFrom hcuts, ?_, ?_, ?_, applyRegexes_snd start text values⟩
  · rw [htokens, filter_interleaved, flatMap_literalToken?, List.filter_map, List.map_map]
    rfl
  · exact (pairwise_stretchesFrom (Nat.le_add_right _ _) hcuts).filter _
  · exact fun i c => countP_visible hsorted hwithin

/-- Two patterns with a blank between them, and a sub at the offset of the first one. -/
def gapPatterns : List Anchored :=
  let pattern (source : String) : Value := .regex ⟨source, ⟨false, false, false⟩, .empty⟩
  [⟨13, pattern "a"⟩, ⟨13, .routine ⟨"s", [], .nothing⟩⟩, ⟨15, pattern "b"⟩]

/-- A blank between two patterns is left out, and so is nothing at all behind the last one. -/
theorem divided_at_patterns_gap :
    Sorted gapPatterns ∧
    (∀ a ∈ gapPatterns, 10 ≤ a.index ∧ a.index ≤ 10 + "<p>  ".toList.length) ∧
    keptStretches 10 "<p>  ".toList gapPatterns = [⟨10, 13⟩] ∧
    (applyRegexes 10 "<p>  ".toList gapPatterns).1.filter Token.isLiteral = [.literal "<p>"] ∧
    (applyRegexes 10 "<p>  ".toList gapPatterns).2.map Anchored.index = [13] := by
  have hsorted : Sorted gapPatterns := by
    unfold Sorted
    decide
  have hwithin : ∀ a ∈ gapPatterns, 10 ≤ a.index ∧ a.index ≤ 10 + "<p>  ".toList.length := by
    decide
  have hkept : keptStretches 10 "<p>  ".toList gapPatterns = [⟨10, 13⟩] := by decide +kernel
  obtain ⟨-, -, hliterals, -, -, hrest⟩ := divided_at_patterns hsorted hwithin
  rw [hkept] at hliterals
  exact ⟨hsorted, hwithin, hkept, hliterals, congrArg (List.map Anchored.index) hrest⟩

end HotSpec.Spec
