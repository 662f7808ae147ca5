import HotSpec.Proofs.Spec.Layout
import Mathlib

/-!
# A section read line by line

The lines of a section are read from the first to the last, with nothing in mind but the block that is
open.  This tells what each line is, and whether the section is well formed: no closer stands outside
of a block, and each opener is followed by a closer.

Main definitions:

- `LineKind`, `readLines`: what a line is to its section, and the lines of a section as they are read.
- `ReadAs`: how lines are read as items.
- `Balanced`: lines whose blocks are all closed, and which close no others.
- `Decides`: a result where a statement holds, and a fault of the grammar where it does not.

Main results:

- Theorem `itemsOf_eq_ok`: the items of lines are the lines as they are read, without the closers.
- Theorem `decides_itemsOf`: lines have items exactly if they are balanced.
- Theorem `balanced_trimLines`: blank lines at both ends change nothing.
-/

namespace HotSpec.Spec

open HotSpec.Text

/-! ## Decisions -/

/-- A result where a statement holds, and a fault of the grammar where it does not. -/
def Decides {α : Type} (r : Except Refusal α) (P : Prop) : Prop :=
  (∃ a, r = .ok a ∧ P) ∨ ∃ refusal, r = .error refusal ∧ refusal.1.isGrammar = true ∧ ¬ P

namespace Decides

variable {α β : Type} {P Q : Prop}

theorem ok (a : α) (h : P) : Decides (.ok a) P := .inl ⟨a, rfl, h⟩

theorem error {cause : SpecCause} {index : Nat} (hcause : cause.isGrammar = true) (h : ¬ P) :
    Decides (.error (cause, index) : Except Refusal α) P := .inr ⟨_, rfl, hcause, h⟩

theorem iff {r : Except Refusal α} (h : Decides r P) (hPQ : P ↔ Q) : Decides r Q := by
  rwa [← propext hPQ]

/-- Two results after each other decide both statements. -/
theorem bind {x : Except Refusal α} {f : α → Except Refusal β} (hx : Decides x P)
    (hf : ∀ a, Decides (f a) Q) : Decides (x >>= f) (P ∧ Q) := by
  rcases hx with ⟨a, rfl, hP⟩ | ⟨refusal, rfl, hcause, hP⟩
  · exact (hf a).iff (and_iff_right hP).symm
  · exact .inr ⟨refusal, rfl, hcause, fun h => hP h.1⟩

/-- What is made of a result decides what the result does. -/
theorem bind_pure {x : Except Refusal α} {f : α → Except Refusal β} (hx : Decides x P)
    (hf : ∀ a, ∃ b, f a = .ok b) : Decides (x >>= f) P := by
  refine (hx.bind (Q := True) fun a => ?_).iff (iff_of_eq (and_true P))
  obtain ⟨b, hb⟩ := hf a
  exact hb ▸ .ok b trivial

end Decides

/-! ## Kinds of lines -/

/-- What a line is to its section. -/
inductive LineKind
  /-- A line without a label. -/
  | plain
  /-- A condition, with its label and the size of its marker. -/
  | condition (label : String) (marker : Nat)
  /-- The line that opens a block. -/
  | opener (label : String)
  /-- A line inside a block. -/
  | inner (label : String)
  /-- The line that closes a block. -/
  | closer
  /-- A closer outside of a block. -/
  | stray
  deriving Repr, DecidableEq

/-- The label that a line brings into its section. -/
def LineKind.label? : LineKind → Option String
  | .condition label _ | .opener label | .inner label => some label
  | .plain | .closer | .stray => none

/-- What a line is outside of a block, where it opens none. -/
def kindOutside (line : Line) : LineKind :=
  if isCloser (trimStart line.text) then .stray
  else match condition? (trimStart line.text) with
    | some (label, marker) => .condition (String.ofList label) marker
    | none => .plain

/-- The lines of a section as they are read, inside a block of the given label or outside of any. -/
def readLines : (block : Option String) → List Line → List (Line × LineKind)
  | _, [] => []
  | some label, line :: lines =>
    if isCloser line.trimmed then (line, .closer) :: readLines none lines
    else (line, .inner label) :: readLines (some label) lines
  | none, line :: lines =>
    match opener? (trimStart line.text) with
    | some (label, _) =>
      (line, .opener (String.ofList label)) :: readLines (some (String.ofList label)) lines
    | none => (line, kindOutside line) :: readLines none lines

theorem readLines_map_fst (block : Option String) (lines : List Line) :
    (readLines block lines).map Prod.fst = lines := by
  induction lines generalizing block with
  | nil => cases block <;> rfl
  | cons line lines ih =>
    cases block with
    | some label =>
      rw [readLines]
      split <;> simp [ih]
    | none =>
      rw [readLines]
      split <;> simp [ih]

/-- A block that is closed is read up to its closer, and then what follows it. -/
theorem readLines_of_cut {label : String} {lines inner rest : List Line}
    (h : cutAtCloser lines = some (inner, rest)) : ∃ closer,
      lines = inner ++ closer :: rest ∧ isCloser closer.trimmed = true ∧
      readLines (some label) lines = inner.map (·, .inner label) ++
        (closer, .closer) :: readLines none rest := by
  induction lines generalizing inner with
  | nil => cases h
  | cons line lines ih =>
    rw [cutAtCloser] at h
    by_cases hcloser : isCloser line.trimmed = true
    · rw [if_pos hcloser] at h
      obtain ⟨rfl, rfl⟩ := Prod.mk.inj (Option.some.inj h)
      exact ⟨line, rfl, hcloser, by rw [readLines, if_pos hcloser]; rfl⟩
    · rw [if_neg hcloser] at h
      obtain ⟨⟨inner', rest'⟩, hcut, heq⟩ := Option.map_eq_some_iff.mp h
      obtain ⟨rfl, rfl⟩ := Prod.mk.inj heq
      obtain ⟨closer, hlines, hcloses, hread⟩ := ih hcut
      exact ⟨closer, by rw [hlines]; rfl, hcloses, by rw [readLines, if_neg hcloser, hread]; rfl⟩

/-- A block that is not closed is read to the end. -/
theorem readLines_of_uncut {label : String} {lines : List Line} (h : cutAtCloser lines = none) :
    readLines (some label) lines = lines.map (·, .inner label) := by
  induction lines with
  | nil => rfl
  | cons line lines ih =>
    rw [cutAtCloser] at h
    by_cases hcloser : isCloser line.trimmed = true
    · rw [if_pos hcloser] at h
      cases h
    · rw [if_neg hcloser, Option.map_eq_none_iff] at h
      rw [readLines, if_neg hcloser, ih h]
      rfl

/-! ## Items -/

/-- The lines of an item as they are read; the closer of a block is not among them. -/
def Item.read : Item → List (Line × LineKind)
  | .plain line => [(line, .plain)]
  | .condition label marker line => [(line, .condition label marker)]
  | .block label _ opener inner => (opener, .opener label) :: inner.map (·, .inner label)

theorem readLines_of_opener {line : Line} {label : List Char} {title : Option (List Char)}
    (h : opener? (trimStart line.text) = some (label, title)) (lines : List Line) :
    readLines none (line :: lines) =
      (line, .opener (String.ofList label)) :: readLines (some (String.ofList label)) lines := by
  rw [readLines, h]

theorem readLines_of_no_opener {line : Line} (h : opener? (trimStart line.text) = none)
    (lines : List Line) :
    readLines none (line :: lines) = (line, kindOutside line) :: readLines none lines := by
  rw [readLines, h]

/-- A block is read as its item and its closer. -/
theorem readLines_of_block {line : Line} {label : List Char} {title : Option (List Char)}
    {lines inner rest : List Line} (h : opener? (trimStart line.text) = some (label, title))
    (hcut : cutAtCloser lines = some (inner, rest)) : ∃ closer, lines = inner ++ closer :: rest ∧
      readLines none (line :: lines) = (Item.block (String.ofList label) (nonEmpty? title) line
        inner).read ++ (closer, .closer) :: readLines none rest := by
  obtain ⟨closer, hlines, -, hread⟩ := @readLines_of_cut (String.ofList label) _ _ _ hcut
  refine ⟨closer, hlines, ?_⟩
  rw [readLines_of_opener h, hread]
  rfl

/-- How lines are read as items: a block up to its closer, or a line that stands alone. -/
inductive ReadAs : List Line → List Item → Prop
  | nil : ReadAs [] []
  | block {line closer : Line} {inner rest : List Line} {label : String} {title : Option String}
      {items : List Item} (hread : readLines none (line :: (inner ++ closer :: rest)) =
        (Item.block label title line inner).read ++ (closer, .closer) :: readLines none rest)
      (h : ReadAs rest items) :
      ReadAs (line :: (inner ++ closer :: rest)) (.block label title line inner :: items)
  | line {line : Line} {lines : List Line} {item : Item} {items : List Item}
      (hline : item.lines = [line]) (hitem : item.read = [(line, kindOutside line)])
      (hread : readLines none (line :: lines) = item.read ++ readLines none lines)
      (h : ReadAs lines items) : ReadAs (line :: lines) (item :: items)

theorem readAs_of_itemsOf {lines : List Line} {items : List Item} (h : itemsOf lines = .ok items) :
    ReadAs lines items := by
  fun_induction itemsOf lines generalizing items with
  | case1 =>
    cases h
    exact .nil
  | case2 => cases h
  | case3 line lines content label title hopener inner rest hcut =>
    next ih =>
    obtain ⟨items, hrest, hitems⟩ := ok_of_bind h
    cases hitems
    obtain ⟨closer, rfl, hread⟩ := readLines_of_block hopener hcut
    exact .block hread (ih hrest)
  | case4 => cases h
  | case5 line lines content hopener hcloser =>
    next ih =>
    obtain ⟨items, hrest, hitems⟩ := ok_of_bind h
    have hread := readLines_of_no_opener hopener lines
    have hkind : kindOutside line = _ := if_neg hcloser
    cases hcondition : condition? (trimStart line.text) with
    | none =>
      simp only [content, hcondition] at hitems hkind
      cases hitems
      have hitem : (Item.plain line).read = [(line, kindOutside line)] := by rw [hkind, Item.read]
      exact .line rfl hitem (by rw [hread, hitem, List.singleton_append]) (ih hrest)
    | some condition =>
      obtain ⟨label, marker⟩ := condition
      simp only [content, hcondition] at hitems hkind
      cases hitems
      have hitem : (Item.condition (String.ofList label) marker line).read =
          [(line, kindOutside line)] := by rw [hkind, Item.read]
      exact .line rfl hitem (by rw [hread, hitem, List.singleton_append]) (ih hrest)

/-- A line that opens no block closes none. -/
theorem kindOutside_ne_closer (line : Line) : kindOutside line ≠ .closer := by
  unfold kindOutside
  split
  · simp
  · split <;> simp

/-- The items of lines are the lines as they are read, without the closers. -/
theorem itemsOf_eq_ok {lines : List Line} {items : List Item} (h : itemsOf lines = .ok items) :
    (readLines none lines).filter (·.2 ≠ .closer) = items.flatMap Item.read := by
  replace h := readAs_of_itemsOf h
  induction h with
  | nil => rfl
  | block hread _ ih =>
    rw [hread, List.filter_append, List.filter_cons_of_neg (by simp), ih, List.flatMap_cons,
      List.filter_eq_self.mpr]
    simp [Item.read]
  | line _ hitem hread _ ih =>
    rw [hread, List.filter_append, ih, List.flatMap_cons, hitem]
    simp [kindOutside_ne_closer]

/-! ## Balanced lines -/

/-- Lines as they are read in which no closer stands outside of a block, and each opener is followed
by a closer. -/
structure Balanced (rows : List (Line × LineKind)) : Prop where
  closers : ∀ row ∈ rows, row.2 ≠ .stray
  openers : ∀ line label after, (line, .opener label) :: after <:+ rows →
    ∃ row ∈ after, row.2 = .closer

theorem balanced_cons {row : Line × LineKind} {rows : List (Line × LineKind)} :
    Balanced (row :: rows) ↔ row.2 ≠ .stray ∧
      (∀ label, row.2 = .opener label → ∃ row ∈ rows, row.2 = .closer) ∧ Balanced rows := by
  constructor
  · intro h
    refine ⟨h.closers row List.mem_cons_self, fun label hopener => ?_, ?_⟩
    · obtain ⟨line, kind⟩ := row
      obtain rfl : kind = .opener label := hopener
      exact h.openers line label rows (List.suffix_refl _)
    · exact ⟨fun row hrow => h.closers row (List.mem_cons_of_mem _ hrow),
        fun line label after hsuffix => h.openers line label after (hsuffix.trans (List.suffix_cons _ _))⟩
  · rintro ⟨hstray, hopener, hrest⟩
    refine ⟨fun row' hrow => ?_, fun line label after hsuffix => ?_⟩
    · rcases List.mem_cons.mp hrow with rfl | hrow
      · exact hstray
      · exact hrest.closers row' hrow
    · rcases List.suffix_cons_iff.mp hsuffix with heq | hsuffix
      · obtain ⟨rfl, rfl⟩ := List.cons.inj heq
        exact hopener label rfl
      · exact hrest.openers line label after hsuffix

/-- Lines that neither open a block nor close one add nothing to be balanced. -/
theorem balanced_append {first rows : List (Line × LineKind)}
    (h : ∀ row ∈ first, row.2 ≠ .stray ∧ ∀ label, row.2 ≠ .opener label) :
    Balanced (first ++ rows) ↔ Balanced rows := by
  induction first with
  | nil => exact Iff.rfl
  | cons row first ih =>
    obtain ⟨hstray, hopener⟩ := h row List.mem_cons_self
    rw [List.cons_append, balanced_cons, ih fun row hrow => h row (List.mem_cons_of_mem _ hrow)]
    exact ⟨fun h => h.2.2, fun h => ⟨hstray, fun label heq => absurd heq (hopener label), h⟩⟩

/-- Lines have items exactly if they are balanced. -/
theorem decides_itemsOf (lines : List Line) :
    Decides (itemsOf lines) (Balanced (readLines none lines)) := by
  fun_induction itemsOf lines with
  | case1 => exact .ok [] ⟨by simp [readLines], by simp [readLines]⟩
  | case2 line lines content label title hopener hcut =>
    refine .error rfl fun hbalanced => ?_
    rw [readLines_of_opener hopener, readLines_of_uncut hcut] at hbalanced
    obtain ⟨row, hrow, hcloser⟩ := (balanced_cons.mp hbalanced).2.1 _ rfl
    obtain ⟨line', -, rfl⟩ := List.mem_map.mp hrow
    cases hcloser
  | case3 line lines content label title hopener inner rest hcut =>
    next ih =>
    obtain ⟨closer, -, hread⟩ := readLines_of_block hopener hcut
    have hinner : ∀ row ∈ inner.map fun l => (l, LineKind.inner (String.ofList label)),
        row.2 ≠ .stray ∧ ∀ label, row.2 ≠ .opener label := by
      simp
    refine (ih.bind_pure fun items => ⟨_, rfl⟩).iff ?_
    rw [hread, Item.read, List.cons_append, balanced_cons, balanced_append hinner, balanced_cons]
    simp
  | case4 line lines content hopener hcloser =>
    refine .error rfl fun hbalanced => ?_
    rw [readLines_of_no_opener hopener] at hbalanced
    exact (balanced_cons.mp hbalanced).1 (if_pos hcloser)
  | case5 line lines content hopener hcloser =>
    next ih =>
    have hkind : kindOutside line ≠ .stray ∧ ∀ label, kindOutside line ≠ .opener label := by
      unfold kindOutside
      rw [if_neg hcloser]
      split <;> simp
    refine (ih.bind_pure fun items => ?_).iff ?_
    · split <;> exact ⟨_, rfl⟩
    · rw [readLines_of_no_opener hopener]
      exact (@balanced_append [(line, kindOutside line)] _ (by simpa using hkind)).symm

/-! ## Blank lines at both ends -/

/-- A line that belongs to a block, if any is open, or else to no label. -/
def LineKind.IsText (kind : LineKind) : Prop := kind = .plain ∨ ∃ label, kind = .inner label

theorem trimStart_of_blank {text : List Char} (h : blank text = true) : trimStart text = [] := by
  rw [trimStart, List.dropWhile_eq_nil_iff]
  simpa [blank] using h

/-- A blank line opens no block, closes none and has no label. -/
theorem readLines_cons_of_blank {line : Line} (h : line.isBlank = true) (block : Option String)
    (lines : List Line) : ∃ kind : LineKind, kind.IsText ∧ (block = none → kind = .plain) ∧
      readLines block (line :: lines) = (line, kind) :: readLines block lines := by
  have hnil : trimStart line.text = [] := trimStart_of_blank h
  cases block with
  | none =>
    refine ⟨.plain, .inl rfl, fun _ => rfl, ?_⟩
    rw [readLines_of_no_opener (by rw [hnil]; rfl), kindOutside, hnil]
    rfl
  | some label =>
    refine ⟨.inner label, .inr ⟨label, rfl⟩, nofun, ?_⟩
    rw [readLines, Line.trimmed, trim, hnil]
    rfl

theorem readLines_of_blank {lines : List Line} (h : ∀ line ∈ lines, line.isBlank = true)
    (block : Option String) : ∀ row ∈ readLines block lines, row.1.isBlank = true ∧ row.2.IsText := by
  induction lines with
  | nil => cases block <;> simp [readLines]
  | cons line lines ih =>
    obtain ⟨kind, htext, -, hread⟩ := readLines_cons_of_blank (h line List.mem_cons_self) block lines
    intro row hrow
    rw [hread] at hrow
    rcases List.mem_cons.mp hrow with rfl | hrow
    · exact ⟨h line List.mem_cons_self, htext⟩
    · exact ih (fun line hline => h line (List.mem_cons_of_mem _ hline)) row hrow

/-- What follows lines does not change how they are read. -/
theorem readLines_append (block : Option String) (lines rest : List Line) :
    ∃ block', readLines block (lines ++ rest) = readLines block lines ++ readLines block' rest := by
  induction lines generalizing block with
  | nil => exact ⟨block, by cases block <;> rfl⟩
  | cons line lines ih =>
    cases block with
    | some label =>
      by_cases hcloser : isCloser line.trimmed = true
      · obtain ⟨block', hread⟩ := ih none
        exact ⟨block', by simp only [List.cons_append, readLines, if_pos hcloser, hread]⟩
      · obtain ⟨block', hread⟩ := ih (some label)
        exact ⟨block', by simp only [List.cons_append, readLines, if_neg hcloser, hread]⟩
    | none =>
      cases hopener : opener? (trimStart line.text) with
      | some opened =>
        obtain ⟨block', hread⟩ := ih (some (String.ofList opened.1))
        exact ⟨block', by simp only [List.cons_append, readLines_of_opener hopener, hread]⟩
      | none =>
        obtain ⟨block', hread⟩ := ih none
        exact ⟨block', by simp only [List.cons_append, readLines_of_no_opener hopener, hread]⟩

theorem append_trimLines (lines : List Line) : ∃ front back,
    lines = front ++ (trimLines lines ++ back) ∧ (∀ line ∈ front, line.isBlank = true) ∧
      ∀ line ∈ back, line.isBlank = true := by
  have hblank (lines : List Line) : ∀ line ∈ lines.takeWhile Line.isBlank, line.isBlank = true :=
    fun line hline => List.mem_takeWhile_imp hline
  refine ⟨lines.takeWhile Line.isBlank,
    ((lines.dropWhile Line.isBlank).reverse.takeWhile Line.isBlank).reverse, ?_, hblank lines,
    fun line hline => hblank _ line (List.mem_reverse.mp hline)⟩
  rw [trimLines, ← List.reverse_append, List.takeWhile_append_dropWhile, List.reverse_reverse,
    List.takeWhile_append_dropWhile]

/-- A section is read as it is without the blank lines at its ends, with those around it. -/
theorem readLines_trimLines (lines : List Line) : ∃ front back,
    readLines none lines = front ++ (readLines none (trimLines lines) ++ back) ∧
      ∀ row ∈ front ++ back, row.1.isBlank = true ∧ row.2.IsText := by
  obtain ⟨front, back, heq, hfront, hback⟩ := append_trimLines lines
  obtain ⟨block, hread⟩ := readLines_append none (trimLines lines) back
  have hstart (rest : List Line) : readLines none (front ++ rest) =
      readLines none front ++ readLines none rest := by
    clear heq
    induction front with
    | nil => rfl
    | cons line front ih =>
      have ih := ih fun line hline => hfront line (List.mem_cons_of_mem _ hline)
      obtain ⟨kind, -, hkind, h⟩ := readLines_cons_of_blank (hfront line List.mem_cons_self) none front
      obtain ⟨kind', -, hkind', h'⟩ :=
        readLines_cons_of_blank (hfront line List.mem_cons_self) none (front ++ rest)
      rw [List.cons_append, h, h', hkind rfl, hkind' rfl, ih]
      rfl
  refine ⟨readLines none front, readLines block back, ?_, fun row hrow => ?_⟩
  · rw [← hread, ← hstart, ← heq]
  · rcases List.mem_append.mp hrow with hrow | hrow
    · exact readLines_of_blank hfront _ row hrow
    · exact readLines_of_blank hback _ row hrow

/-- Blank lines at both ends change nothing. -/
theorem balanced_trimLines (lines : List Line) :
    Balanced (readLines none lines) ↔ Balanced (readLines none (trimLines lines)) := by
  obtain ⟨front, back, hread, htext⟩ := readLines_trimLines lines
  have hkind {row : Line × LineKind} (hrow : row ∈ front ++ back) : row.2 ≠ .closer ∧
      row.2 ≠ .stray ∧ ∀ label, row.2 ≠ .opener label := by
    obtain ⟨-, hplain | ⟨label, hinner⟩⟩ := htext row hrow
    · simp [hplain]
    · simp [hinner]
  have hback (rows : List (Line × LineKind)) : Balanced (rows ++ back) ↔ Balanced rows := by
    induction rows with
    | nil =>
      have hnone := @balanced_append back [] fun row hrow => (hkind (List.mem_append_right _ hrow)).2
      rwa [List.append_nil] at hnone
    | cons row rows ih =>
      have hcloser : (∃ row ∈ rows ++ back, row.2 = .closer) ↔ ∃ row ∈ rows, row.2 = .closer := by
        refine ⟨fun ⟨row, hrow, heq⟩ => ?_, fun ⟨row, hrow, heq⟩ =>
          ⟨row, List.mem_append_left _ hrow, heq⟩⟩
        rcases List.mem_append.mp hrow with hrow | hrow
        · exact ⟨row, hrow, heq⟩
        · exact absurd heq (hkind (List.mem_append_right _ hrow)).1
      rw [List.cons_append, balanced_cons, balanced_cons, ih, hcloser]
  rw [hread, balanced_append fun row hrow => (hkind (List.mem_append_left _ hrow)).2, hback]

end HotSpec.Spec
