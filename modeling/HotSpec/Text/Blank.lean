/-!
# Blanks and line breaks

The white space of spec sources and of rendered HTML, trimming, and the cutting of a text
into lines.

Main results:

- `trim_idem`: trimming twice is trimming once.
- `splitOn_flatten`: the pieces between separators, joined again, give the text back.
-/

namespace HotSpec.Text

/-! ## Blanks -/

/-- White space in any script: the controls that break or separate text, the spaces and the
line and paragraph separators.  A zero width space is not one. -/
def isBlank (c : Char) : Bool :=
  let code := c.toNat
  (9 ≤ code && code ≤ 13) || (28 ≤ code && code ≤ 32) || code == 0x85 || code == 0xA0 ||
    code == 0x1680 || (0x2000 ≤ code && code ≤ 0x200A) || code == 0x2028 || code == 0x2029 ||
    code == 0x202F || code == 0x205F || code == 0x3000

/-- The six blanks of ASCII: tab, line feed, vertical tab, form feed, carriage return and space. -/
def isAsciiBlank (c : Char) : Bool :=
  c == ' ' || (9 ≤ c.toNat && c.toNat ≤ 13)

/-- A text without its leading blanks. -/
def trimStart (text : List Char) : List Char :=
  text.dropWhile isBlank

/-- A text without its trailing blanks. -/
def trimEnd (text : List Char) : List Char :=
  (text.reverse.dropWhile isBlank).reverse

/-- A text without its leading and trailing blanks. -/
def trim (text : List Char) : List Char :=
  trimEnd (trimStart text)

/-- A text that is empty or holds blanks only. -/
def blank (text : List Char) : Bool :=
  text.all isBlank

theorem trimStart_idem (text : List Char) : trimStart (trimStart text) = trimStart text := by
  induction text with
  | nil => rfl
  | cons c rest ih =>
    by_cases h : isBlank c = true
    · simpa [trimStart, List.dropWhile_cons, h] using ih
    · simp [trimStart, h]

theorem trimEnd_idem (text : List Char) : trimEnd (trimEnd text) = trimEnd text := by
  simpa [trimEnd, trimStart] using congrArg List.reverse (trimStart_idem text.reverse)

/-- The text left by trimming at the start is empty or starts with a visible character. -/
theorem trimStart_eq_nil_or (text : List Char) :
    trimStart text = [] ∨ ∃ c rest, trimStart text = c :: rest ∧ isBlank c = false := by
  induction text with
  | nil => exact .inl rfl
  | cons c rest ih =>
    by_cases h : isBlank c = true
    · simpa [trimStart, List.dropWhile_cons, h] using ih
    · exact .inr ⟨c, rest, by simp [trimStart, h], by simpa using h⟩

/-- A visible first character survives trimming at the end. -/
theorem trimEnd_cons {c : Char} (h : isBlank c = false) (rest : List Char) :
    trimEnd (c :: rest) = c :: trimEnd rest := by
  simp only [trimEnd, List.reverse_cons, List.dropWhile_append]
  split <;> simp_all

theorem trim_idem (text : List Char) : trim (trim text) = trim text := by
  rcases trimStart_eq_nil_or text with h | ⟨c, rest, h, hc⟩
  · rw [trim, trim, h]; rfl
  · have kept : trimStart (trimEnd (c :: rest)) = trimEnd (c :: rest) := by
      simp [trimEnd_cons hc, trimStart, hc]
    rw [trim, trim, h, kept, trimEnd_idem]

/-! ## Lines -/

/-- The pieces of a text between the occurrences of a separator, which they leave out.
There is always a first piece. -/
def splitOn (separator : Char) : List Char → List (List Char)
  | [] => [[]]
  | c :: rest =>
    if c = separator then [] :: splitOn separator rest
    else match splitOn separator rest with
      | [] => [[c]]
      | piece :: pieces => (c :: piece) :: pieces

theorem splitOn_ne_nil (separator : Char) (text : List Char) : splitOn separator text ≠ [] := by
  cases text with
  | nil => simp [splitOn]
  | cons c rest =>
    rw [splitOn]
    split
    · simp
    · split <;> simp

/-- The pieces, joined by the separator, give the text back. -/
theorem splitOn_flatten (separator : Char) (text : List Char) :
    ((splitOn separator text).intersperse [separator]).flatten = text := by
  induction text with
  | nil => rfl
  | cons c rest ih =>
    rw [splitOn]
    have some := splitOn_ne_nil separator rest
    split
    · next h =>
      cases hr : splitOn separator rest with
      | nil => exact absurd hr some
      | cons piece pieces => simpa [hr, h] using ih
    · cases hr : splitOn separator rest with
      | nil => exact absurd hr some
      | cons piece pieces =>
        rw [hr] at ih
        cases pieces with
        | nil => simpa using ih
        | cons next more => simpa using ih

/-- Characters that end a line of printed text, in any script. -/
def isLineBreak (c : Char) : Bool :=
  let code := c.toNat
  (10 ≤ code && code ≤ 13) || (28 ≤ code && code ≤ 30) || code == 0x85 ||
    code == 0x2028 || code == 0x2029

/-- The lines of printed text, without their breaks.  A carriage return and a line feed make one
break, and a break at the very end opens no further line. -/
def lines : List Char → List (List Char)
  | [] => []
  | '\r' :: '\n' :: rest => [] :: lines rest
  | c :: rest =>
    if isLineBreak c then [] :: lines rest
    else match lines rest with
      | [] => [[c]]
      | line :: following => (c :: line) :: following

/-- A text with every kind of line ending written as a line feed. -/
def unifyBreaks : List Char → List Char
  | [] => []
  | '\r' :: '\n' :: rest => '\n' :: unifyBreaks rest
  | '\r' :: rest => '\n' :: unifyBreaks rest
  | c :: rest => c :: unifyBreaks rest

end HotSpec.Text
