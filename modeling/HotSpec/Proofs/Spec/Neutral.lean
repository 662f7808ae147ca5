import HotSpec.Proofs.Html.Matching
import HotSpec.Proofs.Spec.Demands

/-!
# Breaks among what is asked of a label

The normal form of HTML takes a run of spaces and breaks for one space, so a break counts for nothing
behind a text that is empty or ends in a space or a break.  Such are the texts of the parts of the
expectations, but for those that a callable cuts off in the middle of a line.

Main definitions:

- `Html.EndsSpaced`, `Spaced`: texts and tokens that end in a space or a break.
- `Neutral`: a token that changes nothing behind others.
- `Demand.line`: a token asked for behind what is asked for.
- `Demand.Absorbs`: a demand behind which a token changes nothing.
- `Demand.asserts`: whether some HTML is asked for.

Main results:

- Theorem `Html.normalChars_break`: a break in the middle of a text.
- Theorem `Demand.finish_of_absorbs`: a token that changes nothing leaves the expectation as it is.
- Theorem `Demand.finish_of_ignored`: where no HTML is asked for, a token is refused.
- Theorem `Part.spaced_demand`: what a part asks for ends in a space or a break, if its text does.
-/

namespace HotSpec.Html

open HotSpec.Text

/-- A text that is empty or ends in a space or a break. -/
def EndsSpaced (text : List Char) : Prop := ∀ c ∈ text.getLast?, c = ' ' ∨ c = '\n'

instance (text : List Char) : Decidable (EndsSpaced text) :=
  decidable_of_iff (text.getLast?.all (fun c => c == ' ' || c == '\n') = true)
    (by simp [EndsSpaced, Option.all_eq_true])

theorem EndsSpaced.append {front back : List Char} (hfront : EndsSpaced front)
    (hback : EndsSpaced back) : EndsSpaced (front ++ back) := by
  intro c hc
  rw [List.getLast?_append, Option.mem_def] at hc
  cases hlast : back.getLast? with
  | none =>
    rw [hlast] at hc
    exact hfront c hc
  | some last =>
    rw [hlast] at hc
    cases hc
    exact hback c hlast

theorem EndsSpaced.drop {text : List Char} (h : EndsSpaced text) (k : Nat) :
    EndsSpaced (text.drop k) := by
  intro c hc
  rw [List.getLast?_drop] at hc
  split at hc
  · cases hc
  · exact h c hc

/-- A space or a break is a space behind which no other one follows. -/
theorem joined_cons {c : Char} (hc : c = ' ' ∨ c = '\n') (rest : List Char) :
    joinSpaces (joinLines (c :: rest)) =
      if (joinSpaces (joinLines rest)).head? = some ' ' then joinSpaces (joinLines rest)
      else ' ' :: joinSpaces (joinLines rest) := by
  have hspace (text : List Char) : joinSpaces (' ' :: text) =
      if (joinSpaces text).head? = some ' ' then joinSpaces text else ' ' :: joinSpaces text := by
    rw [head?_joinSpaces, joinSpaces_eq, joinSpaces_eq, joinRuns, if_pos rfl]
  rcases hc with rfl | rfl
  · rw [joinLines_eq, joinLines_eq, joinRuns_of_ne (by decide), hspace]
  · by_cases hmore : rest.head? = some '\n'
    · have hhead : (joinSpaces (joinRuns '\n' ' ' rest)).head? = some ' ' := by
        rw [head?_joinSpaces, head?_joinRuns, hmore]
        rfl
      rw [joinLines_eq, joinLines_eq, joinRuns, if_pos rfl, if_pos hmore, if_pos hhead]
    · rw [joinLines_eq, joinLines_eq, joinRuns_last hmore, hspace]

/-- Behind a space or a break, a break counts for nothing. -/
theorem joined_break {front : List Char} (h : EndsSpaced front) (hne : front ≠ []) (back : List Char) :
    joinSpaces (joinLines (front ++ '\n' :: back)) = joinSpaces (joinLines (front ++ back)) := by
  induction front with
  | nil => exact absurd rfl hne
  | cons c front ih =>
    cases front with
    | nil =>
      have hc : c = ' ' ∨ c = '\n' := h c rfl
      simp only [List.singleton_append, joined_cons hc, joined_cons (.inr rfl) back]
      split <;> simp_all
    | cons d front =>
      have ih := ih (by rwa [EndsSpaced, List.getLast?_cons_cons] at h) (List.cons_ne_nil _ _)
      by_cases hc : c = ' ' ∨ c = '\n'
      · rw [List.cons_append, joined_cons hc, ih, ← joined_cons hc]
        rfl
      · rw [not_or] at hc
        have hkeep (rest : List Char) :
            joinSpaces (joinLines (c :: rest)) = c :: joinSpaces (joinLines rest) := by
          rw [joinLines_eq, joinRuns_of_ne hc.2, joinSpaces_eq, joinRuns_of_ne hc.1, ← joinSpaces_eq,
            ← joinLines_eq]
        rw [List.cons_append, hkeep, ih, ← hkeep]
        rfl

/-- The normal form, with the runs joined first. -/
theorem normalChars_joined (text : List Char) :
    normalChars text = trimTags (trimStart (joinSpaces (joinLines text))) := by
  rw [normalChars_eq, joinSpaces_eq, joinSpaces_eq, joinLines_eq, joinLines_eq,
    trimStart_joinRuns (by decide) (by decide), trimStart_joinRuns (by decide) (by decide),
    trimTags_joinRuns (by decide) (by decide), trimTags_joinRuns (by decide) (by decide)]

/-- A break behind a text that is empty or ends in a space or a break does not change the normal form. -/
theorem normalChars_break {front : List Char} (h : EndsSpaced front) (back : List Char) :
    normalChars (front ++ '\n' :: back) = normalChars (front ++ back) := by
  cases front with
  | nil => exact normalChars_cons_of_blank (by decide) back
  | cons c front =>
    rw [normalChars_joined, normalChars_joined, joined_break h (List.cons_ne_nil _ _)]

end HotSpec.Html

namespace HotSpec.Spec

open HotSpec.Text
open Html (Token Expected EndsSpaced)

/-! ## Tokens -/

/-- Tokens whose text ends in a space or a break, if they are nothing but text. -/
def Spaced (tokens : List Token) : Prop :=
  tokens.all Token.isLiteral = true → EndsSpaced (tokens.flatMap fun token => token.text.toList)

theorem spaced_nil : Spaced [] := fun _ _ hc => by cases hc

theorem Spaced.append {front back : List Token} (hfront : Spaced front) (hback : Spaced back) :
    Spaced (front ++ back) := by
  intro hall
  rw [List.all_append, Bool.and_eq_true] at hall
  rw [List.flatMap_append]
  exact (hfront hall.1).append (hback hall.2)

theorem spaced_literal {text : List Char} (h : EndsSpaced text) :
    Spaced [.literal (String.ofList text)] := by
  intro _
  simpa [Token.text] using h

/-- A text that ends in a space or a break, divided by patterns. -/
theorem spaced_applyRegexes {text : List Char} (h : EndsSpaced text) (start : Nat)
    (values : List Anchored) : Spaced (applyRegexes start text values).1 := by
  induction values generalizing start text with
  | nil =>
    rw [applyRegexes, literalToken?]
    split
    · exact spaced_nil
    · exact spaced_literal h
  | cons a values ih =>
    cases hcall : a.isCallable with
    | true =>
      rw [applyRegexes_cons_of_callable _ _ hcall]
      exact ih h start
    | false =>
      obtain ⟨r, hr⟩ := exists_regex hcall
      rw [applyRegexes_cons_of_regex _ _ hr]
      intro hall
      simp [Token.isLiteral] at hall

/-- A token that changes nothing behind others, whatever follows. -/
def Neutral (front : List Token) (token : Token) : Prop :=
  ∀ back, Expected.ofLines [front ++ token :: back] = Expected.ofLines [front ++ back]

/-- A blank text changes nothing where it leaves the normal form of all texts as it is. -/
theorem neutral_literal {front : List Token} {text : List Char} (hblank : blank text = true)
    (h : front.all Token.isLiteral = true → ∀ back : List Char,
      Html.normalChars ((front.flatMap fun token => token.text.toList) ++ (text ++ back)) =
        Html.normalChars ((front.flatMap fun token => token.text.toList) ++ back)) :
    Neutral front (.literal (String.ofList text)) := by
  intro back
  have hnormal : Token.normal? (.literal (String.ofList text)) = none := by
    simp [Token.normal?, Html.normal, Html.normalChars_of_blank hblank]
  have hjoin (tokens : List Token) : (String.join (tokens.map Token.text)).toList =
      tokens.flatMap fun token => token.text.toList := by
    simp [String.join_eq, List.flatMap_def, Function.comp_def]
  unfold Expected.ofLines
  simp only [List.flatten_singleton, List.all_append, List.all_cons, Token.isLiteral, Bool.true_and]
  split
  · next hall =>
    rw [Bool.and_eq_true] at hall
    have hsame := h hall.1 (back.flatMap fun token => token.text.toList)
    have htext : (Token.literal (String.ofList text)).text.toList = text := String.toList_ofList
    simp only [Html.normal, hjoin, List.flatMap_append, List.flatMap_cons, htext, hsame]
  · simp only [Expected.normal, List.filterMap_append, List.filterMap_cons, hnormal]

theorem neutral_empty (front : List Token) : Neutral front (.literal (String.ofList [])) :=
  neutral_literal rfl fun _ _ => rfl

theorem neutral_break {front : List Token} (h : Spaced front) :
    Neutral front (.literal (String.ofList ['\n'])) :=
  neutral_literal (by decide) fun hall back => Html.normalChars_break (h hall) back

/-! ## Blocks -/

/-- The step of a text that ends in a space or a break. -/
theorem spaced_textStep {p : Part} {left : Nat} {text : List Char} {regexes : List Anchored}
    {result : List BlockStep × List Anchored} (htext : EndsSpaced text)
    (h : textStep p left text regexes = .ok result) {tokens : List Token}
    (htokens : .html tokens ∈ result.1) : Spaced tokens := by
  unfold textStep at h
  split at h
  · cases h
  · cases h
    simp only at htokens
    split at htokens
    · cases htokens
    · cases List.mem_singleton.mp htokens
      exact spaced_applyRegexes htext _ _

/-- The steps of a block whose text ends in a space or a break, also in front of each callable. -/
theorem spaced_splitSteps {p : Part} {left : Nat} {subs regexes : List Anchored}
    {steps : List BlockStep} (htext : EndsSpaced p.text)
    (hsubs : ∀ a ∈ subs, EndsSpaced (p.text.take (a.index - p.start)))
    (h : splitSteps p left subs regexes = .ok steps) :
    ∀ tokens, .html tokens ∈ steps → Spaced tokens := by
  induction subs generalizing left regexes steps with
  | nil =>
    rw [splitSteps] at h
    split at h
    · cases hresult : textStep p left (p.text.drop (left - p.start)) regexes with
      | error refusal =>
        rw [hresult] at h
        cases h
      | ok result =>
        rw [hresult] at h
        cases h
        exact fun tokens htokens => spaced_textStep (htext.drop _) hresult htokens
    · cases h
      intro tokens htokens
      cases htokens
  | cons sub subs ih =>
    have hrest {left : Nat} {regexes : List Anchored} {steps : List BlockStep}
        (h : splitSteps p left subs regexes = .ok steps) :=
      ih (fun a ha => hsubs a (List.mem_cons_of_mem _ ha)) h
    rw [splitSteps] at h
    split at h
    · cases h
    · split at h
      · obtain ⟨⟨front, regexes'⟩, hresult, h⟩ := ok_of_bind h
        obtain ⟨rest, hsplit, heq⟩ := ok_of_bind h
        cases heq
        intro tokens htokens
        rcases List.mem_append.mp htokens with hmem | hmem
        · exact spaced_textStep ((hsubs sub List.mem_cons_self).drop _) hresult hmem
        · rcases List.mem_cons.mp hmem with heq | hmem
          · cases heq
          · exact hrest hsplit tokens hmem
      · obtain ⟨rest, hsplit, heq⟩ := ok_of_bind h
        cases heq
        intro tokens htokens
        rcases List.mem_cons.mp htokens with heq | hmem
        · cases heq
        · exact hrest hsplit tokens hmem

/-! ## Demands -/

namespace Demand

/-- Only a token is asked for. -/
def line (token : Token) : Demand := ⟨none, [], [token], none⟩

/-- A demand whose tokens, and those of its steps, end in a space or a break. -/
structure Spaced (d : Demand) : Prop where
  tokens : Spec.Spaced d.tokens
  steps : ∀ steps behind, d.block = some (steps, behind) →
    (∀ tokens, .html tokens ∈ steps → Spec.Spaced tokens) ∧ Spec.Spaced behind

theorem spaced_nothing : nothing.Spaced := ⟨spaced_nil, fun _ _ h => by cases h⟩

theorem Spaced.behind {d : Demand} (h : d.Spaced) : Spec.Spaced d.behind := by
  unfold Demand.behind
  cases hblock : d.block with
  | none => exact spaced_nil
  | some block => exact (h.steps _ _ hblock).2

theorem Spaced.append {d e : Demand} (hd : d.Spaced) (he : e.Spaced) : (d.append e).Spaced := by
  cases hblock : d.block with
  | none =>
    refine ⟨?_, ?_⟩
    · simpa [Demand.append, hblock] using hd.tokens.append he.tokens
    · simpa [Demand.append, hblock] using he.steps
  | some block =>
    obtain ⟨hsteps, hbehind⟩ := hd.steps _ _ hblock
    refine ⟨?_, fun steps behind heq => ?_⟩
    · simpa [Demand.append, hblock] using hd.tokens
    · simp only [Demand.append, hblock, Option.some.injEq, Prod.mk.injEq] at heq
      obtain ⟨rfl, rfl⟩ := heq
      exact ⟨hsteps, hbehind.append (he.tokens.append he.behind)⟩

/-- A token that changes nothing behind what is asked for. -/
structure Absorbs (d : Demand) (token : Token) : Prop where
  tokens : Neutral d.tokens token
  steps : ∀ steps behind, d.block = some (steps, behind) →
    ∀ tokens, .html tokens ∈ steps → Neutral (d.tokens ++ (tokens ++ behind)) token

theorem absorbs_empty (d : Demand) : d.Absorbs (.literal (String.ofList [])) :=
  ⟨neutral_empty _, fun _ _ _ _ _ => neutral_empty _⟩

theorem Spaced.absorbs {d : Demand} (h : d.Spaced) : d.Absorbs (.literal (String.ofList ['\n'])) := by
  refine ⟨neutral_break h.tokens, fun steps behind hblock tokens htokens => ?_⟩
  obtain ⟨hsteps, hbehind⟩ := h.steps _ _ hblock
  exact neutral_break (h.tokens.append ((hsteps tokens htokens).append hbehind))

/-- Whether some HTML is asked for: outside of any block, or in a step of it. -/
def asserts (d : Demand) : Bool := d.block.all fun block => block.1.any BlockStep.isHtml

variable {d e : Demand} {label : String}

/-- The expectation of a label whose block has a step of HTML. -/
theorem finish_of_block {steps : List BlockStep} {behind : List Token}
    (hblock : d.block = some (steps, behind)) (hany : steps.any BlockStep.isHtml = true)
    (label : String) : d.finish label = .ok ⟨d.title, d.hooks[0]?, d.hooks[1]?,
      steps.map (BlockStep.finish [d.tokens] [behind])⟩ := by
  simp only [finish, hblock, hany, Bool.not_true, Bool.and_false, Bool.false_eq_true, if_false]

/-- Where HTML is asserted, there is an expectation. -/
theorem finish_of_asserts (h : d.asserts = true) (label : String) : ∃ expected : Expectation,
    d.finish label = .ok expected ∧ expected.title = d.title ∧ expected.before = d.hooks[0]? ∧
      expected.after = d.hooks[1]? := by
  cases hblock : d.block with
  | none =>
    refine ⟨⟨d.title, d.hooks[0]?, d.hooks[1]?, [.html (Expected.ofLines [d.tokens])]⟩, ?_, rfl, rfl, rfl⟩
    rw [finish, hblock]
  | some block =>
    have hany : block.1.any BlockStep.isHtml = true := by simpa [asserts, hblock] using h
    exact ⟨_, finish_of_block hblock hany label, rfl, rfl, rfl⟩

/-- An expectation has a step of HTML exactly if HTML is asserted. -/
theorem asserts_iff {expected : Expectation} (h : d.finish label = .ok expected) :
    d.asserts = true ↔ ∃ html, .html html ∈ expected.steps := by
  unfold finish at h
  cases hblock : d.block with
  | none =>
    rw [hblock] at h
    cases h
    simp [asserts, hblock]
  | some block =>
    rw [hblock] at h
    simp only at h
    split at h
    · cases h
    · cases h
      simp only [asserts, hblock, Option.all_some, List.any_eq_true, List.mem_map]
      constructor
      · rintro ⟨step, hstep, hhtml⟩
        cases step with
        | html tokens => exact ⟨_, _, hstep, rfl⟩
        | sub v => cases hhtml
      · rintro ⟨html, step, hstep, heq⟩
        cases step with
        | html tokens => exact ⟨_, hstep, rfl⟩
        | sub v => cases heq

theorem asserts_line (d e : Demand) (token : Token) :
    (d.append ((line token).append e)).asserts = (d.append e).asserts := by
  cases hblock : d.block <;> simp [asserts, append, line, hblock]

theorem title_line (d e : Demand) (token : Token) :
    (d.append ((line token).append e)).title = (d.append e).title := by
  simp [append, line]

theorem hooks_line (d e : Demand) (token : Token) :
    (d.append ((line token).append e)).hooks = (d.append e).hooks := by
  simp [append, line]

/-- Where no HTML is asserted, one more token is one too many. -/
theorem finish_of_ignored (h : (d.append e).asserts = false) (token : Token) (label : String) :
    (d.append ((line token).append e)).finish label = .error (.spec (.ignoredHtml label) none) := by
  have hnone := asserts_line d e token ▸ h
  unfold finish
  cases hblock : (d.append ((line token).append e)).block with
  | none => simp [asserts, hblock] at hnone
  | some block =>
    have hany : block.1.any BlockStep.isHtml = false := by simpa [asserts, hblock] using hnone
    have hsome : ((d.append ((line token).append e)).tokens ++ block.2).isEmpty = false := by
      cases hd : d.block with
      | none => simp [append, line, hd]
      | some own =>
        simp only [append, line, hd, Option.some.injEq] at hblock
        rw [← hblock]
        simp
    simp [hany, hsome]

/-- A token that changes nothing leaves the expectation as it is. -/
theorem finish_of_absorbs (h : (d.append e).asserts = true) {token : Token} (htoken : d.Absorbs token)
    (label : String) :
    (d.append ((line token).append e)).finish label = (d.append e).finish label := by
  have haround (front tokens behind : List Token) : Expected.ofLines ([front] ++ tokens :: [behind]) =
      Expected.ofLines [front ++ (tokens ++ behind)] := ofLines_congr (by simp)
  cases hd : d.block with
  | none =>
    cases he : e.block with
    | none =>
      have hsame := htoken.tokens e.tokens
      simpa [finish, append, line, hd, he] using hsame
    | some block =>
      have hany : block.1.any BlockStep.isHtml = true := by simpa [asserts, append, hd, he] using h
      have hblock : (d.append e).block = some (block.1, block.2) := by simp [append, hd, he]
      have hblock' : (d.append ((line token).append e)).block = some (block.1, block.2) := by
        simp [append, line, hd, he]
      have htokens : (d.append e).tokens = d.tokens ++ e.tokens := by simp [append, hd]
      have htokens' : (d.append ((line token).append e)).tokens = d.tokens ++ token :: e.tokens := by
        simp [append, line, hd]
      rw [finish_of_block hblock hany, finish_of_block hblock' hany, title_line, hooks_line, htokens,
        htokens']
      refine congrArg Except.ok (congrArg (Expectation.mk _ _ _) (List.map_congr_left fun step _ => ?_))
      cases step with
      | html tokens =>
        rw [BlockStep.finish, BlockStep.finish, haround, haround, List.append_assoc, List.cons_append,
          htoken.tokens, List.append_assoc]
      | sub v => rfl
  | some block =>
    have hany : block.1.any BlockStep.isHtml = true := by simpa [asserts, append, hd] using h
    have hblock : (d.append e).block = some (block.1, block.2 ++ (e.tokens ++ e.behind)) := by
      simp [append, hd]
    have hblock' : (d.append ((line token).append e)).block =
        some (block.1, block.2 ++ token :: (e.tokens ++ e.behind)) := by
      simp [append, line, behind, hd]
    have htokens : (d.append e).tokens = d.tokens := by simp [append, hd]
    have htokens' : (d.append ((line token).append e)).tokens = d.tokens := by simp [append, hd]
    rw [finish_of_block hblock hany, finish_of_block hblock' hany, title_line, hooks_line, htokens,
      htokens']
    refine congrArg Except.ok (congrArg (Expectation.mk _ _ _) (List.map_congr_left fun step hstep => ?_))
    cases step with
    | html tokens =>
      have hsame := htoken.steps _ _ hd tokens hstep (e.tokens ++ e.behind)
      rw [BlockStep.finish, BlockStep.finish, haround, haround]
      simpa [List.append_assoc] using hsame
    | sub v => rfl

end Demand

/-! ## Demands of parts whose text ends in a break -/

theorem Part.spaced_demand {p : Part} {label : String} {values : List Anchored}
    (htext : EndsSpaced p.text)
    (hcallables : p.valued label values = true → ∀ a ∈ p.share values, a.isCallable = true →
      EndsSpaced (p.text.take (a.index - p.start))) : (p.demand label values).Spaced := by
  unfold Part.demand
  split
  · split
    · next hvalued =>
      refine ⟨spaced_nil, fun steps behind heq => ?_⟩
      obtain ⟨rfl, rfl⟩ := Prod.mk.inj (Option.some.inj heq)
      refine ⟨fun tokens htokens => ?_, spaced_nil⟩
      cases hsteps : blockSteps p (p.share values) with
      | error refusal =>
        rw [hsteps] at htokens
        cases htokens
      | ok steps =>
        rw [hsteps] at htokens
        refine spaced_splitSteps htext (fun a ha => ?_) hsteps tokens htokens
        obtain ⟨ha, hcall⟩ := List.mem_filter.mp ha
        exact hcallables hvalued a ha hcall
    · refine ⟨?_, fun steps behind heq => by cases heq⟩
      simp only [Part.tokens]
      split
      · exact spaced_literal htext
      · exact spaced_applyRegexes htext _ _
  · exact Demand.spaced_nothing

theorem spaced_demandOf {parts : List Part} {label : String} {values : List Anchored}
    (h : ∀ p ∈ parts, (p.demand label values).Spaced) : (demandOf label values parts).Spaced := by
  induction parts with
  | nil => exact Demand.spaced_nothing
  | cons p parts ih =>
    exact (h p List.mem_cons_self).append (ih fun q hq => h q (List.mem_cons_of_mem _ hq))

end HotSpec.Spec
