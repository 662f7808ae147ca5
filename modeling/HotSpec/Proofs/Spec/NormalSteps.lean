import HotSpec.Proofs.Html.Matching
import HotSpec.Proofs.Spec.Blocks
import HotSpec.Proofs.Spec.Labels
import HotSpec.Spec.Step

/-!
# Steps in normal form

Whoever makes a step brings its HTML into normal form: the compiler where it joins the lines of a
label, and the conversion of a value that is given as a step.  A literal token in normal form has
visible characters at both ends, so that it is met wherever it stands, whatever blanks are in front
of it.

Main definitions:

- `Tight`: a text with visible characters at both ends.
- `Expected.IsSettled`: all that normal form means for matching.
- `Step.IsNormal`: a step whose HTML is in normal form.

Main results:

- Theorem `settled_of_normal`: what is in normal form is settled.
- Theorems `isNormal_ofExpectation`, `isNormal_compile`: given steps and compiled ones are normal.
-/

namespace HotSpec

namespace Html

open HotSpec.Text

/-! ## Texts with visible ends -/

/-- A text that is not empty and has no blank at either end. -/
structure Tight (text : List Char) : Prop where
  ne : text ≠ []
  start : ∀ c, text.head? = some c → isBlank c = false
  last : ∀ c, text.getLast? = some c → isBlank c = false

/-- A normal form that is not empty has visible ends. -/
theorem tight_normalChars {text : List Char} (h : normalChars text ≠ []) :
    Tight (normalChars text) where
  ne := h
  start := trimStart_eq_self_iff.mp (trimStart_normalChars text)
  last c hc := by
    rw [normalChars, getLast?_joinSpaces] at hc
    exact visible_of_getLast?_trimTags hc

/-- A literal with a visible start is met where it stands, whatever blanks are in front of it. -/
theorem meetTokens_literal {text : String} {gap : List Char} (h : Tight text.toList)
    (hgap : blank gap = true) (actual : String) (position : Nat) (tokens : List Token)
    (rest : List Char) :
    meetTokens actual position (.literal text :: tokens) (gap ++ (text.toList ++ rest)) =
      meetTokens actual (position + 1) tokens rest := by
  have hstart : trimStart text.toList = text.toList := trimStart_eq_self_iff.mpr h.start
  rw [meetTokens, trimStart_gap_append hgap hstart h.ne]
  have hlength : text.length = text.toList.length := String.length_toList.symm
  simp only [hlength, List.take_left, List.drop_left, if_pos]

/-! ## Expectations in normal form -/

/-- All that normal form means for matching: nothing changes by bringing it into normal form once
more, and no literal is lost by skipping blanks in front of it. -/
structure Expected.IsSettled (e : Expected) : Prop where
  normal : e.normal = e
  /-- A text is its own normal form. -/
  exact : ∀ text, e = .exact text → Html.normal text = text
  /-- A literal token is not empty and has no blank at either end. -/
  literal : ∀ tokens text, e = .tokens tokens → .literal text ∈ tokens → Tight text.toList
  /-- A literal token is met where it stands. -/
  met : ∀ tokens text, e = .tokens tokens → .literal text ∈ tokens →
    ∀ (actual : String) (position : Nat) (later : List Token) (gap rest : List Char),
      blank gap = true →
        meetTokens actual position (.literal text :: later) (gap ++ (text.toList ++ rest)) =
          meetTokens actual (position + 1) later rest

/-- A literal token among those of a normal form has visible ends. -/
theorem tight_of_mem_normal {tokens : List Token} {text : String}
    (h : .literal text ∈ tokens.filterMap Token.normal?) : Tight text.toList := by
  obtain ⟨token, -, htoken⟩ := List.mem_filterMap.mp h
  cases token with
  | pattern regex => cases htoken
  | literal source =>
    rw [Token.normal?] at htoken
    split at htoken
    · cases htoken
    · next hne =>
      cases htoken
      rw [normal, String.toList_ofList]
      refine tight_normalChars fun hnil => hne ?_
      rw [normal, hnil]

/-- What is in normal form is settled. -/
theorem settled_of_normal {e : Expected} (h : e.normal = e) : e.IsSettled := by
  have hliteral : ∀ tokens text, e = .tokens tokens → .literal text ∈ tokens →
      Tight text.toList := by
    rintro tokens text rfl hmem
    rw [Expected.normal, Expected.tokens.injEq] at h
    exact tight_of_mem_normal (h.symm ▸ hmem)
  refine ⟨h, ?_, hliteral, ?_⟩
  · rintro text rfl
    rw [Expected.normal, Expected.exact.injEq] at h
    exact h
  · intro tokens text he hmem actual position later gap rest hgap
    exact meetTokens_literal (hliteral tokens text he hmem) hgap actual position later rest

/-- Lines are joined into an expectation in normal form. -/
theorem normal_ofLines (lines : List (List Token)) :
    (Expected.ofLines lines).normal = Expected.ofLines lines := by
  unfold Expected.ofLines
  simp only
  split
  · rw [Expected.normal, normal_idem]
  · exact Expected.normal_idem _

end Html

/-! ## Steps -/

/-- Whether the HTML of a step is in normal form. -/
def Step.IsNormal (s : Step) : Prop := s.normal = s

namespace Step

theorem isNormal_normal (s : Step) : s.normal.IsNormal := by
  cases s with
  | html expected => exact congrArg Step.html (Html.Expected.normal_idem expected)
  | _ => rfl

theorem isNormal_ofLines (lines : List (List Html.Token)) :
    (Step.html (.ofLines lines)).IsNormal := congrArg Step.html (Html.normal_ofLines lines)

/-- The HTML of a normal step is settled. -/
theorem IsNormal.settled {expected : Html.Expected} (h : (Step.html expected).IsNormal) :
    expected.IsSettled := Html.settled_of_normal (Step.html.inj h)

/-- A step that is given as a value is brought into normal form, whatever it is given as. -/
theorem isNormal_ofExpectation {v : Value} {s : Step} (h : Step.ofExpectation v = .ok s) :
    s.IsNormal := by
  unfold Step.ofExpectation at h
  cases hgiven : Step.given v with
  | error fault =>
      rw [hgiven] at h
      cases h
  | ok given =>
      rw [hgiven] at h
      cases h
      exact given.isNormal_normal

end Step

/-! ## Compiled specs -/

/-- Whether all steps of an expectation are in normal form. -/
def Expectation.IsNormal (e : Expectation) : Prop := ∀ s ∈ e.steps, s.IsNormal

namespace Spec

/-- The expectation of a label joins lines for each of its steps. -/
theorem isNormal_finish {label : String} {d : Draft} {e : Expectation}
    (h : d.finish label = .ok e) : e.IsNormal := by
  cases hsteps : d.steps with
  | none =>
    rw [Draft.finish_of_none hsteps] at h
    cases h
    intro s hs
    rw [List.mem_singleton.mp hs]
    exact Step.isNormal_ofLines _
  | some block =>
    obtain ⟨steps, index⟩ := block
    rw [Draft.finish_of_some hsteps] at h
    split at h
    · cases h
    · cases h
      intro s hs
      obtain ⟨step, -, rfl⟩ := List.mem_map.mp hs
      cases step with
      | html tokens => exact Step.isNormal_ofLines _
      | sub value => rfl

theorem isNormal_finishDrafts {drafts : Drafts} {expects : Table Expectation}
    (h : finishDrafts drafts = .ok expects) : ∀ row ∈ expects, row.2.IsNormal := by
  induction drafts generalizing expects with
  | nil =>
    cases h
    simp
  | cons row drafts ih =>
    obtain ⟨label, draft⟩ := row
    obtain ⟨e, hfinish, h⟩ := ok_of_bind h
    obtain ⟨rest, hrest, heq⟩ := ok_of_bind h
    cases heq
    intro row hrow
    rcases List.mem_cons.mp hrow with rfl | hrow
    · exact isNormal_finish hfinish
    · exact ih hrest row hrow

/-- A source of any kind compiles to steps in normal form. -/
theorem isNormal_compile {source : Source} {full : Bool} {file : Option String}
    {compiled : CompiledSpec} (h : compile source full file = .ok compiled) :
    ∀ row ∈ compiled.expects, row.2.IsNormal := by
  obtain ⟨outline, -, h⟩ := ok_of_bind h
  obtain ⟨compiled', hcompiled, h⟩ := ok_of_bind h
  obtain rfl : compiled' = compiled := by
    split at h
    · cases h
    · exact Except.ok.inj h
  unfold compileOutline at hcompiled
  cases hs : outline.expectations with
  | none =>
    rw [hs] at hcompiled
    cases hvalues : source.values with
    | nil =>
      rw [hvalues] at hcompiled
      cases hcompiled
      simp
    | cons a values =>
      rw [hvalues] at hcompiled
      cases hcompiled
  | some s =>
    rw [hs] at hcompiled
    obtain ⟨⟨expects, left⟩, hexpects, hleft⟩ := ok_of_bind hcompiled
    have hsame : compiled'.expects = expects := by
      cases left with
      | nil =>
        cases hleft
        rfl
      | cons a left => cases hleft
    obtain ⟨⟨drafts, left'⟩, -, hexpects⟩ := ok_of_bind hexpects
    obtain ⟨expects', hfinish, heq⟩ := ok_of_bind hexpects
    obtain ⟨rfl, -⟩ := Prod.mk.inj (Except.ok.inj heq)
    rw [hsame]
    exact isNormal_finishDrafts hfinish

end Spec

end HotSpec
