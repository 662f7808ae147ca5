import HotSpec.Proofs.Html.Visible

/-!
# What blanks have no say in

A preformatted element is found by its opener and its closer, and neither of them holds a blank.
So the names that stand right after the `<`s of a text decide where such elements begin and end, and
a text keeps its names when blanks are joined or dropped around its tags.

Main definitions:

- `tagName`, `tagNames`: the name in front of a text, and the names after its `<`s.
- `SameTags`: two texts have the same names.
- `OpenerFree`: a text opens no preformatted element.

Main results:

- Theorem `infix_iff_tagNames`: openers and closers are read off the names.
- Theorems `sameTags_joinRuns`, `sameTags_trimTags`: the passes of the normal form keep the names.
- Theorems `preformatted?_eq_some_iff`, `preformatted?_eq_none_iff`: an element is the shortest text
  from its opener to its closer.
-/

namespace HotSpec.Html

open HotSpec.Text

variable {c : Char} {text other rest kept left mark name : List Char}

/-! ## Names of tags -/

/-- Whether a character can stand in a name: blanks and brackets end it. -/
def isPlain (c : Char) : Bool :=
  !(isBlank c || c == '<' || c == '>')

/-- The name in front of a text. -/
def tagName (text : List Char) : List Char :=
  text.takeWhile isPlain

/-- The names after the `<`s of a text. -/
def tagNames : List Char → List (List Char)
  | [] => []
  | c :: rest => if c = '<' then tagName rest :: tagNames rest else tagNames rest

theorem not_plain_of_blank (h : isBlank c = true) : isPlain c = false := by
  simp [isPlain, h]

theorem ne_open_of_plain (h : isPlain c = true) : c ≠ '<' := by
  rintro rfl
  exact absurd h (by decide)

theorem ne_close_of_plain (h : isPlain c = true) : c ≠ '>' := by
  rintro rfl
  exact absurd h (by decide)

theorem visible_of_plain (h : isPlain c = true) : isBlank c = false := by
  simp only [isPlain, Bool.not_eq_true', Bool.or_eq_false_iff] at h
  exact h.1.1

theorem ne_open_of_blank (h : isBlank c = true) : c ≠ '<' := by
  rintro rfl
  exact absurd h (by decide)

@[simp]
theorem tagName_nil : tagName [] = [] :=
  rfl

theorem tagName_cons (c : Char) (rest : List Char) :
    tagName (c :: rest) = if isPlain c then c :: tagName rest else [] :=
  List.takeWhile_cons

@[simp]
theorem tagNames_nil : tagNames [] = [] :=
  rfl

@[simp]
theorem tagNames_open (rest : List Char) : tagNames ('<' :: rest) = tagName rest :: tagNames rest :=
  if_pos rfl

theorem tagNames_cons_of_ne (h : c ≠ '<') (rest : List Char) :
    tagNames (c :: rest) = tagNames rest :=
  if_neg h

/-- A plain text in front of a text is in front of its name. -/
theorem prefix_iff_tagName (hplain : ∀ c ∈ mark, isPlain c = true) :
    mark <+: text ↔ mark <+: tagName text := by
  induction mark generalizing text with
  | nil => simp
  | cons d mark ih =>
    have hd : isPlain d = true := hplain d List.mem_cons_self
    have hmark : ∀ c ∈ mark, isPlain c = true := fun c hc => hplain c (List.mem_cons_of_mem _ hc)
    cases text with
    | nil => simp
    | cons c rest =>
      rw [tagName_cons]
      by_cases hc : isPlain c = true
      · rw [if_pos hc, List.cons_prefix_cons, List.cons_prefix_cons, ih hmark]
      · have hne : d ≠ c := fun heq => hc (heq ▸ hd)
        simp [hc, hne]

/-- A `<` with a plain text after it stands somewhere in a text when the plain text is in front of
one of the names. -/
theorem infix_iff_tagNames (hplain : ∀ c ∈ mark, isPlain c = true) :
    '<' :: mark <:+: text ↔ ∃ name ∈ tagNames text, mark <+: name := by
  induction text with
  | nil => simp
  | cons c rest ih =>
    rw [List.infix_cons_iff, ih, List.cons_prefix_cons, prefix_iff_tagName hplain]
    by_cases hc : c = '<'
    · subst hc
      simp
    · rw [tagNames_cons_of_ne hc]
      simp [Ne.symm hc]

theorem tagNames_append_of_plain (hplain : ∀ c ∈ mark, isPlain c = true) (text : List Char) :
    tagNames (mark ++ text) = tagNames text := by
  induction mark with
  | nil => rfl
  | cons d mark ih =>
    rw [List.cons_append, tagNames_cons_of_ne (ne_open_of_plain (hplain d List.mem_cons_self))]
    exact ih fun c hc => hplain c (List.mem_cons_of_mem _ hc)

theorem tagName_append (h : tagName rest = []) (text : List Char) :
    tagName (text ++ rest) = tagName text := by
  induction text with
  | nil => simpa using h
  | cons c text ih => rw [List.cons_append, tagName_cons, tagName_cons, ih]

/-- A cut in front of a tag cuts the names. -/
theorem tagNames_append (h : tagName rest = []) (text : List Char) :
    tagNames (text ++ rest) = tagNames text ++ tagNames rest := by
  induction text with
  | nil => rfl
  | cons c text ih =>
    rw [List.cons_append, tagNames, tagNames, tagName_append h, ih]
    split <;> rfl

/-! ## Texts with the same names -/

/-- Two texts with the same name in front and the same names after their `<`s. -/
structure SameTags (text other : List Char) : Prop where
  first : tagName text = tagName other
  later : tagNames text = tagNames other

theorem SameTags.refl (text : List Char) : SameTags text text :=
  ⟨rfl, rfl⟩

theorem SameTags.symm (h : SameTags text other) : SameTags other text :=
  ⟨h.first.symm, h.later.symm⟩

theorem SameTags.cons (h : SameTags text other) (c : Char) : SameTags (c :: text) (c :: other) where
  first := by rw [tagName_cons, tagName_cons, h.first]
  later := by rw [tagNames, tagNames, h.first, h.later]

theorem SameTags.append (h : SameTags text other) (front : List Char) :
    SameTags (front ++ text) (front ++ other) := by
  induction front with
  | nil => exact h
  | cons c front ih => exact ih.cons c

theorem tagName_of_blank (hc : isBlank c = true) (rest : List Char) : tagName (c :: rest) = [] := by
  rw [tagName_cons, if_neg (by simp [not_plain_of_blank hc])]

theorem tagName_of_atTag (h : atTag text = true) : tagName text = [] := by
  cases text with
  | nil => rfl
  | cons c rest =>
    obtain rfl : c = '<' := by simpa [atTag] using h
    rfl

theorem tagNames_trimStart (text : List Char) : tagNames (trimStart text) = tagNames text := by
  induction text with
  | nil => rfl
  | cons c rest ih =>
    rw [trimStart, List.dropWhile_cons]
    by_cases hc : isBlank c = true
    · rw [if_pos hc, tagNames_cons_of_ne (ne_open_of_blank hc)]
      exact ih
    · rw [if_neg hc]

/-- Joining a run of blanks into a blank keeps the names. -/
theorem sameTags_joinRuns {x y : Char} (hx : isBlank x = true) (hy : isBlank y = true)
    (text : List Char) : SameTags (joinRuns x y text) text := by
  fun_induction joinRuns x y text with
  | case1 => exact .refl _
  | case2 rest hmore ih =>
    obtain ⟨more, rfl⟩ := List.head?_eq_some_iff.mp hmore
    refine ⟨?_, ?_⟩
    · rw [ih.first, tagName_of_blank hx, tagName_of_blank hx]
    · rw [ih.later, tagNames_cons_of_ne (ne_open_of_blank hx) (x :: more)]
  | case3 rest hmore ih =>
    refine ⟨?_, ?_⟩
    · rw [tagName_of_blank hx, tagName_of_blank hy]
    · rw [tagNames_cons_of_ne (ne_open_of_blank hx), tagNames_cons_of_ne (ne_open_of_blank hy),
        ih.later]
  | case4 c rest hc ih => exact ih.cons c

theorem sameTags_trimTags (text : List Char) : SameTags (trimTags text) text := by
  fun_induction trimTags text with
  | case1 => exact .refl _
  | case2 c rest kept left hcut =>
    next ih =>
    rw [← append_preformatted? hcut]
    exact ih.append kept
  | case3 c rest hcut hclose =>
    next ih =>
    obtain rfl : c = '>' := by simpa using hclose
    refine ⟨rfl, ?_⟩
    rw [tagNames_cons_of_ne (by decide), tagNames_cons_of_ne (by decide), ih.later,
      tagNames_trimStart]
  | case4 c rest hcut hclose hblank =>
    next ih =>
    obtain ⟨hc, htag⟩ : isBlank c = true ∧ atTag (trimStart rest) = true := by
      simpa using hblank
    refine ⟨?_, ?_⟩
    · rw [ih.first, tagName_of_atTag htag, tagName_of_blank hc]
    · rw [ih.later, tagNames_trimStart, tagNames_cons_of_ne (ne_open_of_blank hc)]
  | case5 c rest hcut hclose hblank =>
    next ih => exact ih.cons c

/-! ## Preformatted elements -/

/-- The text that closes a preformatted element. -/
def closer (name : List Char) : List Char :=
  '<' :: '/' :: name

theorem plain_of_mem_preformattedNames (h : name ∈ preformattedNames) :
    ∀ c ∈ name, isPlain c = true := by
  simp only [preformattedNames, List.mem_cons, List.not_mem_nil, or_false] at h
  rcases h with rfl | rfl | rfl | rfl <;> simp [isPlain, isBlank]

theorem closer_plain (h : name ∈ preformattedNames) : ∀ c ∈ '/' :: name, isPlain c = true := by
  intro c hc
  rcases List.mem_cons.mp hc with rfl | hc
  · decide
  · exact plain_of_mem_preformattedNames h c hc

/-- No name of a preformatted element is the start of another one. -/
theorem find?_preformattedNames (h : name ∈ preformattedNames) (rest : List Char) :
    preformattedNames.find? (·.isPrefixOf (name ++ rest)) = some name := by
  simp only [preformattedNames, List.mem_cons, List.not_mem_nil, or_false] at h
  rcases h with rfl | rfl | rfl | rfl <;> rfl

/-- A text is cut after the first occurrence of a mark. -/
theorem cutAfter?_eq_some_iff (hmark : mark ≠ []) :
    cutAfter? mark text = some (kept, left) ↔
      ∃ front, kept = front ++ mark ∧ text = kept ++ left ∧ ¬ mark <:+: front ++ mark.dropLast := by
  have hshort : ¬ mark <:+: mark.dropLast := by
    intro h
    have hlength := h.length_le
    have hpos := List.length_pos_iff.mpr hmark
    rw [List.length_dropLast] at hlength
    omega
  have hlast : mark.dropLast <+: mark ++ left :=
    (List.dropLast_prefix mark).trans (List.prefix_append _ _)
  induction text generalizing kept with
  | nil =>
    constructor
    · simp [cutAfter?, hmark]
    · rintro ⟨front, rfl, htext, -⟩
      simp [hmark] at htext
  | cons c rest ih =>
    rw [cutAfter?]
    by_cases hearlier : mark <+: c :: rest
    · rw [if_pos (List.isPrefixOf_iff_prefix.mpr hearlier)]
      constructor
      · intro h
        obtain ⟨left', hleft⟩ := hearlier
        cases h
        exact ⟨[], rfl, by rw [← hleft, List.drop_left], by simpa using hshort⟩
      · rintro ⟨front, rfl, htext, hfirst⟩
        cases front with
        | nil =>
          rw [htext]
          simp
        | cons d front =>
          -- The mark in front of the text would stand before the one the text is cut after.
          have hearly : mark <+: d :: front ++ mark.dropLast := by
            refine List.prefix_of_prefix_length_le hearlier ?_ (by simp; omega)
            rw [htext, List.append_assoc]
            exact (List.prefix_append_right_inj _).mpr hlast
          exact absurd hearly.isInfix hfirst
    · rw [if_neg (by simpa using hearlier), Option.map_eq_some_iff]
      constructor
      · rintro ⟨⟨kept', left'⟩, hcut, heq⟩
        obtain ⟨rfl, rfl⟩ := Prod.mk.inj heq
        obtain ⟨front, rfl, rfl, hfirst⟩ := ih.mp hcut
        refine ⟨c :: front, rfl, rfl, ?_⟩
        rw [List.cons_append, List.infix_cons_iff, not_or]
        refine ⟨fun hearly => hearlier (hearly.trans ?_), hfirst⟩
        rw [List.cons_prefix_cons, List.append_assoc]
        exact ⟨rfl, (List.prefix_append_right_inj _).mpr hlast⟩
      · rintro ⟨front, rfl, htext, hfirst⟩
        cases front with
        | nil => exact absurd ⟨left, by simpa using htext.symm⟩ hearlier
        | cons d front =>
          obtain ⟨rfl, rfl⟩ := List.cons.inj htext
          rw [List.cons_append, List.infix_cons_iff, not_or] at hfirst
          exact ⟨(front ++ mark, left), ih.mpr ⟨front, rfl, rfl, hfirst.2⟩, rfl⟩

/-- A text is not cut when the mark does not stand in it. -/
theorem cutAfter?_eq_none_iff (hmark : mark ≠ []) :
    cutAfter? mark text = none ↔ ¬ mark <:+: text := by
  induction text with
  | nil => simp [cutAfter?, hmark]
  | cons c rest ih =>
    rw [cutAfter?, List.infix_cons_iff]
    by_cases hearlier : mark <+: c :: rest
    · simp [List.isPrefixOf_iff_prefix.mpr hearlier, hearlier]
    · rw [if_neg (by simpa using hearlier), Option.map_eq_none_iff, ih]
      simp [hearlier]

/-- A preformatted element in front of a text: it goes from the opener through at least one
character to the first closer after that. -/
theorem preformatted?_eq_some_iff :
    preformatted? text = some (kept, left) ↔
      ∃ name ∈ preformattedNames, ∃ c inner,
        kept = '<' :: name ++ c :: (inner ++ closer name) ∧ text = kept ++ left ∧
          ¬ closer name <:+: inner ++ (closer name).dropLast := by
  constructor
  · intro h
    have happend := append_preformatted? h
    unfold preformatted? at h
    split at h
    · next rest =>
      split at h
      · cases h
      · next name hname =>
        split at h
        · cases h
        · next c body hdrop =>
          obtain ⟨⟨kept', left'⟩, hcut, heq⟩ := Option.map_eq_some_iff.mp h
          obtain ⟨rfl, rfl⟩ := Prod.mk.inj heq
          obtain ⟨inner, rfl, -, hfirst⟩ := (cutAfter?_eq_some_iff (by simp)).mp hcut
          exact ⟨name, List.mem_of_find?_eq_some hname, c, inner, rfl, happend.symm, hfirst⟩
    · cases h
  · rintro ⟨name, hname, c, inner, rfl, rfl, hfirst⟩
    have hcut : cutAfter? (closer name) (inner ++ closer name ++ left) =
        some (inner ++ closer name, left) :=
      (cutAfter?_eq_some_iff (by simp [closer])).mpr ⟨inner, rfl, rfl, hfirst⟩
    have htext : '<' :: name ++ c :: (inner ++ closer name) ++ left =
        '<' :: (name ++ c :: (inner ++ closer name ++ left)) := by simp
    rw [htext, preformatted?, find?_preformattedNames hname]
    simp only [List.drop_left]
    rw [← closer, hcut]
    rfl

/-- No element starts in front of a text when no opener stands there or no closer follows it. -/
theorem preformatted?_eq_none_iff {rest : List Char} :
    preformatted? ('<' :: rest) = none ↔
      ∀ name ∈ preformattedNames, ∀ c body, rest = name ++ c :: body → ¬ closer name <:+: body := by
  constructor
  · rintro h name hname c body rfl
    rw [preformatted?, find?_preformattedNames hname] at h
    simpa [closer, cutAfter?_eq_none_iff] using h
  · intro h
    rw [preformatted?]
    split
    · rfl
    · next name hfind =>
      have hstarts : name.isPrefixOf rest = true := by simpa using List.find?_some hfind
      obtain ⟨more, rfl⟩ := List.isPrefixOf_iff_prefix.mp hstarts
      rw [List.drop_left]
      cases more with
      | nil => rfl
      | cons c body =>
        have hclose := h name (List.mem_of_find?_eq_some hfind) c body rfl
        have hcut := (cutAfter?_eq_none_iff (by simp [closer])).mpr hclose
        simp only [closer] at hcut
        simp [hcut]

theorem preformatted?_of_ne (hc : c ≠ '<') (rest : List Char) :
    preformatted? (c :: rest) = none := by
  rw [preformatted?]
  simpa using hc

/-- An element ends at its closer, whatever follows. -/
theorem preformatted?_append (h : preformatted? text = some (kept, left)) (after : List Char) :
    preformatted? (kept ++ after) = some (kept, after) := by
  obtain ⟨name, hname, c, inner, hkept, -, hfirst⟩ := preformatted?_eq_some_iff.mp h
  exact preformatted?_eq_some_iff.mpr ⟨name, hname, c, inner, hkept, rfl, hfirst⟩

/-- A text with the same names starts no element either, unless it has lost a `<` right after an
opener. -/
theorem SameTags.preformatted?_eq_none {rest rest' : List Char} (hsame : SameTags rest rest')
    (hopen : ∀ name ∈ preformattedNames, name ++ ['<'] <+: rest → name ++ ['<'] <+: rest')
    (hnone : preformatted? ('<' :: rest) = none) : preformatted? ('<' :: rest') = none := by
  refine preformatted?_eq_none_iff.mpr ?_
  rintro name hname d body rfl hclose
  have hplain := plain_of_mem_preformattedNames hname
  obtain ⟨more, rfl⟩ : name <+: rest := by
    rw [prefix_iff_tagName hplain, hsame.first, ← prefix_iff_tagName hplain]
    exact List.prefix_append _ _
  have hnames : tagNames more = tagNames (d :: body) := by
    have hlater := hsame.later
    rwa [tagNames_append_of_plain hplain, tagNames_append_of_plain hplain] at hlater
  obtain ⟨found, hfound, hstarts⟩ := (infix_iff_tagNames (closer_plain hname)).mp hclose
  cases more with
  | nil =>
    have hmem : found ∈ tagNames (d :: body) := by
      rw [tagNames]
      split
      · exact List.mem_cons_of_mem _ hfound
      · exact hfound
    rw [← hnames] at hmem
    cases hmem
  | cons c inner =>
    have hmem : found ∈ tagNames inner := by
      by_cases hc : c = '<'
      · subst hc
        have hearlier := hopen name hname ⟨inner, by simp⟩
        obtain rfl : '<' = d := by
          rw [List.prefix_append_right_inj, List.cons_prefix_cons] at hearlier
          exact hearlier.1
        rw [tagNames_open, tagNames_open] at hnames
        rwa [(List.cons.inj hnames).2]
      · rw [tagNames_cons_of_ne hc] at hnames
        rw [hnames, tagNames]
        split
        · exact List.mem_cons_of_mem _ hfound
        · exact hfound
    exact preformatted?_eq_none_iff.mp hnone name hname c inner rfl
      ((infix_iff_tagNames (closer_plain hname)).mpr ⟨found, hmem, hstarts⟩)

/-! ## Texts without openers -/

/-- Whether a text opens no preformatted element. -/
def OpenerFree (text : List Char) : Prop :=
  ∀ name ∈ preformattedNames, ¬ '<' :: name <:+: text

theorem OpenerFree.of_infix (h : OpenerFree text) (hinside : rest <:+: text) : OpenerFree rest :=
  fun name hname hopen => h name hname (hopen.trans hinside)

theorem OpenerFree.of_cons (h : OpenerFree (c :: text)) : OpenerFree text :=
  h.of_infix (List.suffix_cons c text).isInfix

/-- No element starts in front of a text without openers, nor in front of what is left of it. -/
theorem OpenerFree.preformatted?_eq_none (h : OpenerFree (c :: text))
    (hstarts : ∀ name ∈ preformattedNames, name <+: rest → name <+: text) :
    preformatted? (c :: rest) = none := by
  by_cases hc : c = '<'
  · subst hc
    refine preformatted?_eq_none_iff.mpr ?_
    rintro name hname d body rfl
    have hname' : name <+: text := hstarts name hname (List.prefix_append _ _)
    exact absurd (List.cons_prefix_cons.mpr ⟨rfl, hname'⟩).isInfix (h name hname)
  · exact preformatted?_of_ne hc _

end HotSpec.Html
