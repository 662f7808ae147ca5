import HotSpec.Proofs.Html.Tags

/-!
# Trimming around tags

Trimming works from left to right: it keeps a preformatted element, drops the blanks after a `>` and
those before a `<` or the end, and keeps every other character.  It is done after one time, and it
does not matter whether runs of blanks are joined before it or after it: which blanks stand next to
a tag, and which of them belong to a preformatted element, is the same.

Main results:

- Theorems `trimStart_trimTags`, `visible_of_getLast?_trimTags`: trimming around tags leaves no
  blanks at the ends.
- Theorem `trimTags_idem`: trimming around tags twice is trimming once.
- Theorem `trimTags_joinRuns`: joining runs of blanks and trimming around tags can be exchanged.
-/

namespace HotSpec.Html

open HotSpec.Text

variable {c : Char} {text rest kept left gap : List Char}

/-! ## Leading blanks -/

theorem trimStart_cons_of_blank (hc : isBlank c = true) (rest : List Char) :
    trimStart (c :: rest) = trimStart rest := by
  simp [trimStart, hc]

theorem trimStart_cons_of_visible (hc : isBlank c = false) (rest : List Char) :
    trimStart (c :: rest) = c :: rest := by
  simp [trimStart, hc]

/-- A text is its leading blanks and what is left without them. -/
theorem takeWhile_append_trimStart (text : List Char) :
    text.takeWhile isBlank ++ trimStart text = text :=
  List.takeWhile_append_dropWhile

theorem trimStart_append_of_blank (hgap : blank gap = true) (rest : List Char) :
    trimStart (gap ++ rest) = trimStart rest := by
  rw [trimStart, List.dropWhile_append_of_pos (List.all_eq_true.mp hgap)]
  rfl

theorem blank_takeWhile (text : List Char) : blank (text.takeWhile isBlank) = true :=
  List.all_eq_true.mpr fun _ hc => List.mem_takeWhile_imp hc

/-! ## Equations -/

@[simp]
theorem trimTags_nil : trimTags [] = [] := by
  rw [trimTags]

theorem trimTags_of_preformatted (h : preformatted? text = some (kept, left)) :
    trimTags text = kept ++ trimTags left := by
  cases text with
  | nil => cases h
  | cons c rest =>
    rw [trimTags]
    split
    · next h' =>
      rw [h] at h'
      cases h'
      rfl
    · next h' =>
      rw [h] at h'
      cases h'

theorem trimTags_close (rest : List Char) :
    trimTags ('>' :: rest) = '>' :: trimTags (trimStart rest) := by
  rw [trimTags]
  split
  · next h =>
    rw [preformatted?_of_ne (by decide)] at h
    cases h
  · rw [if_pos (by decide)]

theorem trimTags_blank (hc : isBlank c = true) (htag : atTag (trimStart rest) = true) :
    trimTags (c :: rest) = trimTags (trimStart rest) := by
  rw [trimTags]
  split
  · next h =>
    rw [preformatted?_of_ne (ne_open_of_blank hc)] at h
    cases h
  · have hclose : c ≠ '>' := by
      rintro rfl
      exact absurd hc (by decide)
    rw [if_neg (by simpa using hclose), if_pos (by simp [hc, htag])]

theorem trimTags_keep (hnone : preformatted? (c :: rest) = none) (hclose : c ≠ '>')
    (hkeep : isBlank c = true → atTag (trimStart rest) = false) :
    trimTags (c :: rest) = c :: trimTags rest := by
  rw [trimTags]
  split
  · next h =>
    rw [hnone] at h
    cases h
  · rw [if_neg (by simpa using hclose), if_neg (by simpa using hkeep)]

theorem trimTags_plain (hc : isPlain c = true) (rest : List Char) :
    trimTags (c :: rest) = c :: trimTags rest :=
  trimTags_keep (preformatted?_of_ne (ne_open_of_plain hc) rest) (ne_close_of_plain hc)
    fun hblank => absurd hblank (by simp [visible_of_plain hc])

/-- Blanks in front of a tag, or of the end, go. -/
theorem trimTags_of_atTag (h : atTag (trimStart text) = true) :
    trimTags text = trimTags (trimStart text) := by
  cases text with
  | nil => rfl
  | cons c rest =>
    by_cases hc : isBlank c = true
    · rw [trimStart_cons_of_blank hc] at h ⊢
      exact trimTags_blank hc h
    · rw [trimStart_cons_of_visible (by simpa using hc)]

/-! ## First characters -/

/-- Trimming around tags keeps a visible first character. -/
theorem head?_trimTags (hc : isBlank c = false) (rest : List Char) :
    (trimTags (c :: rest)).head? = some c := by
  by_cases hclose : c = '>'
  · subst hclose
    rw [trimTags_close]
    rfl
  · cases hcut : preformatted? (c :: rest) with
    | none =>
      rw [trimTags_keep hcut hclose (fun h => absurd h (by simp [hc]))]
      rfl
    | some element =>
      obtain ⟨kept, left⟩ := element
      obtain ⟨name, -, d, inner, rfl, htext, -⟩ := preformatted?_eq_some_iff.mp hcut
      rw [trimTags_of_preformatted hcut, (List.cons.inj htext).1]
      rfl

theorem atTag_eq (text : List Char) : atTag text = text.head?.all (· == '<') := by
  cases text <;> rfl

theorem trimStart_eq_self_iff :
    trimStart text = text ↔ ∀ c, text.head? = some c → isBlank c = false := by
  cases text with
  | nil => simp [trimStart]
  | cons c rest =>
    by_cases hc : isBlank c = true
    · have hshort := length_dropWhile_le isBlank rest
      simp only [List.head?_cons, Option.some.injEq, forall_eq', hc, Bool.true_eq_false, iff_false]
      intro h
      rw [trimStart_cons_of_blank hc, trimStart] at h
      rw [h, List.length_cons] at hshort
      omega
    · simp [trimStart_cons_of_visible, hc]

/-- A text without leading blanks has the same first character after trimming around its tags. -/
theorem head?_trimTags_trimStart (text : List Char) :
    (trimTags (trimStart text)).head? = (trimStart text).head? := by
  rcases trimStart_eq_nil_or text with h | ⟨c, rest, h, hc⟩
  · rw [h, trimTags_nil]
  · rw [h, head?_trimTags hc, List.head?_cons]

theorem trimStart_trimTags (text : List Char) :
    trimStart (trimTags text) = trimTags (trimStart text) := by
  have hstart : ∀ text, trimStart (trimTags (trimStart text)) = trimTags (trimStart text) := by
    intro text
    rw [trimStart_eq_self_iff, head?_trimTags_trimStart]
    exact trimStart_eq_self_iff.mp (trimStart_idem text)
  induction text with
  | nil => rw [trimTags_nil, trimStart, List.dropWhile_nil, trimTags_nil]
  | cons c rest ih =>
    by_cases hc : isBlank c = true
    · rw [trimStart_cons_of_blank hc]
      by_cases htag : atTag (trimStart rest) = true
      · rw [trimTags_blank hc htag, hstart]
      · rw [trimTags_keep (preformatted?_of_ne (ne_open_of_blank hc) rest)
          (by rintro rfl; exact absurd hc (by decide)) (fun _ => by simpa using htag),
          trimStart_cons_of_blank hc, ih]
    · have hvisible : isBlank c = false := by simpa using hc
      have h := hstart (c :: rest)
      rwa [trimStart_cons_of_visible hvisible] at h ⊢

/-- Blanks in front of a visible character that opens no tag stay. -/
theorem trimTags_append_of_blank (hgap : blank gap = true) (hc : isBlank c = false)
    (hopen : c ≠ '<') (rest : List Char) :
    trimTags (gap ++ c :: rest) = gap ++ trimTags (c :: rest) := by
  induction gap with
  | nil => rfl
  | cons d gap ih =>
    obtain ⟨hd, hgap⟩ : isBlank d = true ∧ blank gap = true := by simpa [blank] using hgap
    rw [List.cons_append, trimTags_keep (preformatted?_of_ne (ne_open_of_blank hd) _)
      (by rintro rfl; exact absurd hd (by decide)), ih hgap, List.cons_append]
    intro _
    rw [trimStart_append_of_blank hgap, trimStart_cons_of_visible hc]
    simpa [atTag] using hopen

/-! ## Trimming around tags -/

/-- A pass that keeps names and the `<`s that follow them starts no new element. -/
theorem preformatted?_cons_of_pass {pass : List Char → List Char}
    (hsame : ∀ text, SameTags (pass text) text)
    (hplain : ∀ {c}, isPlain c = true → ∀ rest, pass (c :: rest) = c :: pass rest)
    (hopen : ∀ rest, (pass ('<' :: rest)).head? = some '<')
    (hnone : preformatted? (c :: rest) = none) : preformatted? (c :: pass rest) = none := by
  by_cases hc : c = '<'
  · subst hc
    refine SameTags.preformatted?_eq_none (hsame rest).symm ?_ hnone
    rintro name hname ⟨more, rfl⟩
    have hkeep : ∀ front : List Char, (∀ c ∈ front, isPlain c = true) → ∀ more,
        pass (front ++ more) = front ++ pass more := by
      intro front hfront more
      induction front with
      | nil => rfl
      | cons d front ih =>
        rw [List.cons_append, hplain (hfront d List.mem_cons_self),
          ih fun c hc => hfront c (List.mem_cons_of_mem _ hc), List.cons_append]
    obtain ⟨after, hafter⟩ := List.head?_eq_some_iff.mp (hopen more)
    rw [List.append_assoc, hkeep name (plain_of_mem_preformattedNames hname),
      List.prefix_append_right_inj]
    exact ⟨after, hafter.symm⟩
  · exact preformatted?_of_ne hc _

/-- Trimming around tags starts no new element. -/
theorem preformatted?_cons_trimTags (hnone : preformatted? (c :: rest) = none) :
    preformatted? (c :: trimTags rest) = none :=
  preformatted?_cons_of_pass sameTags_trimTags trimTags_plain (head?_trimTags (by decide)) hnone

theorem trimTags_idem (text : List Char) : trimTags (trimTags text) = trimTags text := by
  fun_induction trimTags text with
  | case1 => rw [trimTags_nil]
  | case2 c rest kept left hcut =>
    next ih => rw [trimTags_of_preformatted (preformatted?_append hcut _), ih]
  | case3 c rest hcut hclose =>
    next ih =>
    obtain rfl : c = '>' := by simpa using hclose
    rw [trimTags_close, trimStart_trimTags, trimStart_idem, ih]
  | case4 c rest hcut hclose hblank =>
    next ih => exact ih
  | case5 c rest hcut hclose hblank =>
    next ih =>
    have hkeep : isBlank c = true → atTag (trimStart rest) = false := by simpa using hblank
    rw [trimTags_keep (preformatted?_cons_trimTags hcut) (by simpa using hclose), ih]
    rwa [trimStart_trimTags, atTag_eq, head?_trimTags_trimStart, ← atTag_eq]

/-- Blanks that are not next to a tag stay. -/
theorem head?_trimTags_of_not_atTag (h : atTag (trimStart rest) = false) :
    (trimTags rest).head? = rest.head? := by
  cases rest with
  | nil => rw [trimTags_nil]
  | cons c rest =>
    by_cases hc : isBlank c = true
    · rw [trimStart_cons_of_blank hc] at h
      rw [trimTags_keep (preformatted?_of_ne (ne_open_of_blank hc) rest)
        (by rintro rfl; exact absurd hc (by decide)) (fun _ => h)]
      rfl
    · rw [head?_trimTags (by simpa using hc)]
      rfl

/-! ## Last characters -/

/-- An element ends with its name. -/
theorem getLast?_preformatted (h : preformatted? text = some (kept, left)) :
    ∃ c, kept.getLast? = some c ∧ isPlain c = true := by
  obtain ⟨name, hname, c, inner, rfl, -, -⟩ := preformatted?_eq_some_iff.mp h
  refine ⟨('/' :: name).getLast (by simp), ?_, closer_plain hname _ (List.getLast_mem _)⟩
  simp [closer, List.getLast?_eq_some_getLast]

/-- No blank stays at the end, where trimming around tags ends. -/
theorem visible_of_getLast?_trimTags (h : (trimTags text).getLast? = some c) :
    isBlank c = false := by
  fun_induction trimTags text with
  | case1 => cases h
  | case2 d rest kept left hcut =>
    next ih =>
    rw [List.getLast?_append] at h
    cases hleft : (trimTags left).getLast? with
    | none =>
      obtain ⟨last, hlast, hplain⟩ := getLast?_preformatted hcut
      rw [hleft, Option.none_or, hlast] at h
      cases h
      exact visible_of_plain hplain
    | some last =>
      rw [hleft, Option.some_or] at h
      exact ih (hleft.trans h)
  | case3 d rest hcut hclose =>
    next ih =>
    rw [List.getLast?_cons] at h
    cases hrest : (trimTags (trimStart rest)).getLast? with
    | none =>
      obtain rfl : d = '>' := by simpa using hclose
      obtain rfl : '>' = c := by simpa [hrest] using h
      decide
    | some last =>
      obtain rfl : last = c := by simpa [hrest] using h
      exact ih hrest
  | case4 d rest hcut hclose hblank =>
    next ih => exact ih h
  | case5 d rest hcut hclose hblank =>
    next ih =>
    have hkeep : isBlank d = true → atTag (trimStart rest) = false := by simpa using hblank
    rw [List.getLast?_cons] at h
    cases hrest : (trimTags rest).getLast? with
    | none =>
      obtain rfl : d = c := by simpa [hrest] using h
      by_contra hd
      have hnil : trimTags (trimStart rest) = [] := by
        rw [← trimStart_trimTags, List.getLast?_eq_none_iff.mp hrest]
        rfl
      have htag := hkeep (by simpa using hd)
      rw [atTag_eq, ← head?_trimTags_trimStart, hnil] at htag
      cases htag
    | some last =>
      obtain rfl : last = c := by simpa [hrest] using h
      exact ih hrest

/-! ## Joining runs of blanks -/

section

variable {x y : Char} (hx : isBlank x = true) (hy : isBlank y = true)
include hx

theorem joinRuns_of_visible (hc : isBlank c = false) (rest : List Char) :
    joinRuns x y (c :: rest) = c :: joinRuns x y rest :=
  joinRuns_of_ne (by rintro rfl; rw [hx] at hc; cases hc) rest

/-- A text without blanks has none to join. -/
theorem joinRuns_append_of_visible {front : List Char} (hfront : ∀ c ∈ front, isBlank c = false)
    (rest : List Char) : joinRuns x y (front ++ rest) = front ++ joinRuns x y rest := by
  induction front with
  | nil => rfl
  | cons c front ih =>
    rw [List.cons_append, joinRuns_of_visible hx (hfront c List.mem_cons_self),
      ih fun d hd => hfront d (List.mem_cons_of_mem _ hd), List.cons_append]

/-- An opener or a closer has no blanks to join. -/
theorem joinRuns_mark {mark : List Char} (hplain : ∀ c ∈ mark, isPlain c = true)
    (rest : List Char) :
    joinRuns x y ('<' :: (mark ++ rest)) = '<' :: (mark ++ joinRuns x y rest) := by
  rw [joinRuns_of_visible hx (by decide),
    joinRuns_append_of_visible hx fun c hc => visible_of_plain (hplain c hc)]

/-- A character stays in front of what it stands before, which may lose blanks in front, as one
character. -/
theorem exists_joinRuns_cons (c : Char) (inner : List Char) {after : List Char}
    (hafter : after.head? ≠ some x) :
    ∃ d inner', joinRuns x y (c :: (inner ++ after)) =
        d :: (joinRuns x y inner' ++ joinRuns x y after) ∧
      ∀ more, tagNames (inner' ++ more) = tagNames (inner ++ more) := by
  have happend : ∀ inner, joinRuns x y (inner ++ after) = joinRuns x y inner ++ joinRuns x y after :=
    fun inner => joinRuns_append fun _ => hafter
  by_cases hc : c = x
  · subst hc
    induction inner with
    | nil => exact ⟨y, [], joinRuns_last hafter, fun _ => rfl⟩
    | cons d inner ih =>
      by_cases hd : d = c
      · subst hd
        obtain ⟨first, inner', hjoin, hnames⟩ := ih
        refine ⟨first, inner', (joinRuns_more d y _).trans hjoin, fun more => ?_⟩
        rw [hnames, List.cons_append, tagNames_cons_of_ne (ne_open_of_blank hx)]
      · refine ⟨y, d :: inner, ?_, fun _ => rfl⟩
        rw [joinRuns_last (by simpa using hd), happend]
  · exact ⟨c, inner, by rw [joinRuns_of_ne hc, happend], fun _ => rfl⟩

theorem joinRuns_append_of_preformatted (h : preformatted? text = some (kept, left))
    (rest : List Char) : joinRuns x y (kept ++ rest) = joinRuns x y kept ++ joinRuns x y rest := by
  obtain ⟨last, hlast, hplain⟩ := getLast?_preformatted h
  refine joinRuns_append fun hrun => ?_
  obtain rfl : last = x := by simpa [hlast] using hrun
  rw [not_plain_of_blank hx] at hplain
  cases hplain

include hy

theorem atTag_joinRuns (text : List Char) : atTag (joinRuns x y text) = atTag text := by
  rw [atTag_eq, atTag_eq, head?_joinRuns]
  cases text with
  | nil => rfl
  | cons c rest =>
    by_cases hc : c = x
    · simp [hc, ne_open_of_blank hx, ne_open_of_blank hy]
    · simp [hc]

theorem trimStart_joinRuns (text : List Char) :
    trimStart (joinRuns x y text) = joinRuns x y (trimStart text) := by
  fun_induction joinRuns x y text with
  | case1 => rfl
  | case2 rest hmore ih =>
    rw [ih, trimStart_cons_of_blank hx]
  | case3 rest hmore ih => rw [trimStart_cons_of_blank hx, trimStart_cons_of_blank hy, ih]
  | case4 c rest hne ih =>
    by_cases hc : isBlank c = true
    · rw [trimStart_cons_of_blank hc, trimStart_cons_of_blank hc, ih]
    · have hvisible : isBlank c = false := by simpa using hc
      rw [trimStart_cons_of_visible hvisible, trimStart_cons_of_visible hvisible,
        joinRuns_of_ne hne]

/-- Joining runs of blanks starts no new element. -/
theorem preformatted?_cons_joinRuns (hnone : preformatted? (c :: rest) = none) :
    preformatted? (c :: joinRuns x y rest) = none :=
  preformatted?_cons_of_pass (sameTags_joinRuns hx hy)
    (fun hc => joinRuns_of_visible hx (visible_of_plain hc))
    (fun rest => by rw [joinRuns_of_visible hx (by decide), List.head?_cons]) hnone

/-- Joining runs of blanks keeps an element together. -/
theorem preformatted?_joinRuns (h : preformatted? text = some (kept, left)) :
    preformatted? (joinRuns x y text) = some (joinRuns x y kept, joinRuns x y left) := by
  have hcut : joinRuns x y text = joinRuns x y kept ++ joinRuns x y left := by
    rw [← joinRuns_append_of_preformatted hx h, append_preformatted? h]
  suffices hsome : ∃ kept', preformatted? (joinRuns x y text) = some (kept', joinRuns x y left) by
    obtain ⟨kept', hsome⟩ := hsome
    obtain rfl : kept' = joinRuns x y kept := by
      have happend := append_preformatted? hsome
      rw [hcut] at happend
      exact List.append_cancel_right happend
    exact hsome
  clear hcut
  obtain ⟨name, hname, c, inner, rfl, rfl, hfirst⟩ := preformatted?_eq_some_iff.mp h
  have hopen : '<' ≠ x := (ne_open_of_blank hx).symm
  have hafter : (closer name ++ left).head? ≠ some x := by simpa [closer] using hopen
  obtain ⟨d, inner', hjoin, hnames⟩ := exists_joinRuns_cons (y := y) hx c inner hafter
  have hclose : joinRuns x y (closer name ++ left) = closer name ++ joinRuns x y left :=
    joinRuns_mark hx (closer_plain hname) left
  have htext : joinRuns x y ('<' :: name ++ c :: (inner ++ closer name) ++ left) =
      '<' :: name ++ d :: (joinRuns x y inner' ++ closer name) ++ joinRuns x y left := by
    have hmark := joinRuns_mark (y := y) hx (plain_of_mem_preformattedNames hname)
      (c :: (inner ++ (closer name ++ left)))
    rw [hjoin, hclose] at hmark
    simpa using hmark
  refine ⟨_, preformatted?_eq_some_iff.mpr
    ⟨name, hname, d, joinRuns x y inner', rfl, htext, fun hearly => hfirst ?_⟩⟩
  -- The closer is found by names, and those are the same up to the closer's last character.
  have hlast : joinRuns x y inner' ++ (closer name).dropLast =
      joinRuns x y (inner' ++ (closer name).dropLast) := by
    have hplain : ∀ c ∈ ('/' :: name).dropLast, isPlain c = true := fun c hc =>
      closer_plain hname c (List.dropLast_subset _ hc)
    have hmark := joinRuns_mark (y := y) hx hplain []
    rw [joinRuns_append fun _ => by simpa [closer] using hopen]
    simpa [closer] using hmark.symm
  rw [hlast] at hearly
  obtain ⟨found, hfound, hstarts⟩ := (infix_iff_tagNames (closer_plain hname)).mp hearly
  rw [(sameTags_joinRuns hx hy _).later, hnames] at hfound
  exact (infix_iff_tagNames (closer_plain hname)).mpr ⟨found, hfound, hstarts⟩

/-- Joining runs of blanks and trimming around tags can be exchanged. -/
theorem trimTags_joinRuns (text : List Char) :
    trimTags (joinRuns x y text) = joinRuns x y (trimTags text) := by
  have htag : ∀ rest, atTag (trimStart (joinRuns x y rest)) = atTag (trimStart rest) := fun rest => by
    rw [trimStart_joinRuns hx hy, atTag_joinRuns hx hy]
  fun_induction trimTags text with
  | case1 => rw [joinRuns_nil, trimTags_nil]
  | case2 c rest kept left hcut =>
    next ih =>
    rw [trimTags_of_preformatted (preformatted?_joinRuns hx hy hcut), ih,
      joinRuns_append_of_preformatted hx hcut]
  | case3 c rest hcut hclose =>
    next ih =>
    obtain rfl : c = '>' := by simpa using hclose
    rw [joinRuns_of_visible hx (by decide), joinRuns_of_visible hx (by decide),
      trimTags_close, trimStart_joinRuns hx hy, ih]
  | case4 c rest hcut hclose hblank =>
    next ih =>
    obtain ⟨hc, hrest⟩ : isBlank c = true ∧ atTag (trimStart rest) = true := by
      simpa using hblank
    have hstart : atTag (trimStart (joinRuns x y (c :: rest))) = true := by
      rwa [htag, trimStart_cons_of_blank hc]
    rw [trimTags_of_atTag hstart, trimStart_joinRuns hx hy, trimStart_cons_of_blank hc, ih]
  | case5 c rest hcut hclose hblank =>
    next ih =>
    have hkeep : isBlank c = true → atTag (trimStart rest) = false := by simpa using hblank
    by_cases hc : c = x
    · subst hc
      have hhead := head?_trimTags_of_not_atTag (hkeep hx)
      by_cases hmore : rest.head? = some c
      · obtain ⟨more, hrest⟩ := List.head?_eq_some_iff.mp (hhead.trans hmore)
        obtain ⟨rest', rfl⟩ := List.head?_eq_some_iff.mp hmore
        rw [joinRuns_more, ih, hrest, joinRuns_more]
      · rw [joinRuns_last hmore, joinRuns_last (by rwa [hhead]),
          trimTags_keep (preformatted?_of_ne (ne_open_of_blank hy) _)
            (by rintro rfl; exact absurd hy (by decide)) (fun _ => by rw [htag, hkeep hx]), ih]
    · rw [joinRuns_of_ne hc, joinRuns_of_ne hc,
        trimTags_keep (preformatted?_cons_joinRuns hx hy hcut) (by simpa using hclose), ih]
      rwa [htag]

end

end HotSpec.Html
