import HotSpec.Proofs.Html.Runs

/-!
# What the normal form keeps

The normal form of HTML text drops blanks only: every visible character of a text is still there.

Main results:

- Theorem `append_preformatted?`: a preformatted element is cut off without loss.
- Theorem `mem_normalChars`: visible characters stay.
- Theorems `normalChars_of_blank`, `normal_ne_empty`: the normal form is empty for blank texts only.
-/

namespace HotSpec.Html

open HotSpec.Text

variable {c : Char} {text : List Char}

/-! ## Blanks -/

theorem mem_trimStart (hc : c ∈ text) (hvisible : isBlank c = false) : c ∈ trimStart text := by
  induction text with
  | nil => exact hc
  | cons d rest ih =>
    rw [trimStart, List.dropWhile_cons]
    by_cases hd : isBlank d = true
    · rw [if_pos hd]
      rcases List.mem_cons.mp hc with rfl | hc
      · rw [hvisible] at hd
        cases hd
      · exact ih hc
    · rwa [if_neg hd]

theorem mem_trim (hc : c ∈ text) (hvisible : isBlank c = false) : c ∈ trim text := by
  have hstart := mem_trimStart hc hvisible
  have hback : c ∈ trimStart (trimStart text).reverse :=
    mem_trimStart (List.mem_reverse.mpr hstart) hvisible
  exact List.mem_reverse.mpr hback

theorem mem_joinLines (hc : c ∈ text) (hbreak : c ≠ '\n') : c ∈ joinLines text := by
  rw [joinLines_eq]
  exact mem_joinRuns hc hbreak

theorem mem_joinSpaces (hc : c ∈ text) (hspace : c ≠ ' ') : c ∈ joinSpaces text := by
  rw [joinSpaces_eq]
  exact mem_joinRuns hc hspace

/-! ## Tags -/

theorem append_cutAfter? {mark kept left : List Char}
    (h : cutAfter? mark text = some (kept, left)) : kept ++ left = text := by
  induction text generalizing kept with
  | nil =>
    rw [cutAfter?] at h
    split at h
    · cases h
      rfl
    · cases h
  | cons c text ih =>
    rw [cutAfter?] at h
    split at h
    · next hprefix =>
      obtain ⟨rest, hrest⟩ := List.isPrefixOf_iff_prefix.mp hprefix
      cases h
      rw [← hrest, List.drop_left]
    · obtain ⟨⟨kept', left'⟩, hcut, heq⟩ := Option.map_eq_some_iff.mp h
      obtain ⟨rfl, rfl⟩ := Prod.mk.inj heq
      rw [List.cons_append, ih hcut]

/-- A preformatted element is cut off without loss. -/
theorem append_preformatted? {kept left : List Char} (h : preformatted? text = some (kept, left)) :
    kept ++ left = text := by
  unfold preformatted? at h
  split at h
  · next rest =>
    split at h
    · cases h
    · next name hname =>
      split at h
      · cases h
      · next c body hdrop =>
        obtain ⟨⟨kept', left'⟩, hcut, heq⟩ := Option.map_eq_some_iff.mp h
        obtain ⟨rfl, rfl⟩ := Prod.mk.inj heq
        have hstarts : name.isPrefixOf rest = true := by simpa using List.find?_some hname
        have hprefix : name <+: rest := List.isPrefixOf_iff_prefix.mp hstarts
        have hrest : name ++ rest.drop name.length = rest := List.prefix_iff_eq_append.mp hprefix
        have hbody := append_cutAfter? hcut
        rw [hdrop, ← hbody] at hrest
        simpa using hrest
  · cases h

theorem mem_trimTags (hc : c ∈ text) (hvisible : isBlank c = false) : c ∈ trimTags text := by
  fun_induction trimTags text with
  | case1 => exact hc
  | case2 d rest kept left hcut =>
    next ih =>
    rw [← append_preformatted? hcut] at hc
    rcases List.mem_append.mp hc with hkept | hleft
    · exact List.mem_append_left _ hkept
    · exact List.mem_append_right _ (ih hleft)
  | case3 d rest hcut htag =>
    next ih =>
    rcases List.mem_cons.mp hc with rfl | hc
    · exact List.mem_cons_self
    · exact List.mem_cons_of_mem _ (ih (mem_trimStart hc hvisible))
  | case4 d rest hcut htag hblank =>
    next ih =>
    rcases List.mem_cons.mp hc with rfl | hc
    · simp [hvisible] at hblank
    · exact ih (mem_trimStart hc hvisible)
  | case5 d rest hcut htag hblank =>
    next ih =>
    rcases List.mem_cons.mp hc with rfl | hc
    · exact List.mem_cons_self
    · exact List.mem_cons_of_mem _ (ih hc)

/-! ## The normal form -/

theorem mem_normalChars (hc : c ∈ text) (hvisible : isBlank c = false) :
    c ∈ normalChars text := by
  have hbreak : c ≠ '\n' := by
    rintro rfl
    exact absurd hvisible (by decide)
  have hspace : c ≠ ' ' := by
    rintro rfl
    exact absurd hvisible (by decide)
  exact mem_joinSpaces (mem_trimTags (mem_trim (mem_joinLines hc hbreak) hvisible) hvisible) hspace

theorem blank_joinLines (h : blank text = true) : blank (joinLines text) = true := by
  refine List.all_eq_true.mpr fun c hc => ?_
  rw [joinLines_eq] at hc
  rcases mem_of_mem_joinRuns hc with ⟨hmem, -⟩ | ⟨rfl, -⟩
  · exact List.all_eq_true.mp h c hmem
  · decide

theorem normalChars_of_blank (h : blank text = true) : normalChars text = [] := by
  have htrim : trimStart (joinLines text) = [] :=
    List.dropWhile_eq_nil_iff.mpr (List.all_eq_true.mp (blank_joinLines h))
  rw [normalChars, trim, htrim]
  simp [trimEnd, trimTags, joinSpaces]

/-- The normal form of a text that is not blank is not empty. -/
theorem normal_ne_empty (h : blank text = false) : normal (String.ofList text) ≠ "" := by
  obtain ⟨c, hc, hvisible⟩ := List.all_eq_false.mp h
  have hmem := mem_normalChars hc (by simpa using hvisible)
  intro hempty
  have hnil : normalChars text = [] := by
    simpa [normal] using congrArg String.toList hempty
  rw [hnil] at hmem
  cases hmem

end HotSpec.Html
