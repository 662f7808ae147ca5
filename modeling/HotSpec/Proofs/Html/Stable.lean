import HotSpec.Proofs.Html.Cuts
import HotSpec.Html.Expected

/-!
# The normal form is stable

A text in normal form is its own normal form.  Each pass leaves what it has made, and joining runs
of blanks makes no work for the passes before it.

Main result:

- Theorem `normal_stable`: the normal form of a text, or of an expectation, is its own normal form.
-/

namespace HotSpec.Html

open HotSpec.Text

variable {text : List Char}

theorem trimEnd_eq_self (h : ∀ c, text.getLast? = some c → isBlank c = false) :
    trimEnd text = text := by
  have hstart : trimStart text.reverse = text.reverse :=
    trimStart_eq_self_iff.mpr (by simpa using h)
  rw [trimEnd, ← trimStart, hstart, List.reverse_reverse]

theorem joinSpaces_idem (text : List Char) : joinSpaces (joinSpaces text) = joinSpaces text := by
  simp only [joinSpaces_eq]
  fun_induction joinRuns ' ' ' ' text with
  | case1 => rfl
  | case2 rest hmore ih => exact ih
  | case3 rest hmore ih =>
    rw [joinRuns_last, ih]
    rwa [← joinSpaces_eq, head?_joinSpaces]
  | case4 c rest hc ih => rw [joinRuns_of_ne hc, ih]

theorem trimTags_joinSpaces (text : List Char) :
    trimTags (joinSpaces text) = joinSpaces (trimTags text) := by
  rw [joinSpaces_eq, joinSpaces_eq, trimTags_joinRuns (by decide) (by decide)]

theorem trimStart_normalChars (text : List Char) :
    trimStart (normalChars text) = normalChars text := by
  rw [normalChars_eq, joinSpaces_eq, joinLines_eq, trimStart_joinRuns (by decide) (by decide),
    trimStart_joinRuns (by decide) (by decide), trimStart_trimTags, trimStart_idem]

theorem normalChars_idem (text : List Char) :
    normalChars (normalChars text) = normalChars text := by
  have hstart : trimStart (normalChars text) = normalChars text := trimStart_normalChars text
  have htags : trimTags (normalChars text) = normalChars text := by
    rw [normalChars, trimTags_joinSpaces, trimTags_idem]
  have hbreaks : '\n' ∉ normalChars text := fun h =>
    not_mem_joinLines _ (mem_of_mem_joinSpaces (normalChars_eq text ▸ h))
  calc normalChars (normalChars text)
      = joinSpaces (joinLines (normalChars text)) := by rw [normalChars_eq, hstart, htags]
    _ = joinSpaces (normalChars text) := by rw [joinLines_eq, joinRuns_eq_self hbreaks]
    _ = normalChars text := by rw [normalChars, joinSpaces_idem]

theorem normal_idem (html : String) : normal (normal html) = normal html := by
  rw [normal, normal, String.toList_ofList, normalChars_idem]

/-- The normal form of a token, if it has one, is its own normal form. -/
theorem Token.normal?_idem {token form : Token} (h : token.normal? = some form) :
    form.normal? = some form := by
  cases token with
  | pattern regex =>
    cases h
    rfl
  | literal text =>
    rw [Token.normal?] at h
    split at h
    · cases h
    · next hne =>
      cases h
      rw [Token.normal?, normal_idem, if_neg hne]

theorem Expected.normal_idem (expected : Expected) : expected.normal.normal = expected.normal := by
  cases expected with
  | exact text => rw [Expected.normal, Expected.normal, Html.normal_idem]
  | tokens tokens =>
    have hforms : ∀ form ∈ tokens.filterMap Token.normal?, form.normal? = some form := by
      intro form hform
      obtain ⟨token, -, htoken⟩ := List.mem_filterMap.mp hform
      exact Token.normal?_idem htoken
    rw [Expected.normal, Expected.normal]
    congr 1
    rw [List.filterMap_congr hforms, List.filterMap_some]

/-- The normal form of a text is its own normal form, and so is that of an expectation. -/
theorem normal_stable :
    (∀ html : String, normal (normal html) = normal html) ∧
      ∀ expected : Expected, expected.normal.normal = expected.normal :=
  ⟨normal_idem, Expected.normal_idem⟩

end HotSpec.Html
