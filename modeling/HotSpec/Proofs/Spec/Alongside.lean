import HotSpec.Proofs.Spec.Denotation

/-!
# Two sources read side by side

Two sources whose lines look alike are read alike: line by line they have the same headers, the same
blocks and the same conditions, and where one of them is refused the other is refused for the same
cause, at the line that stands next to it.

Main definitions:

- `Line.ReadsAs`: two lines of one form.
- `Alongside`: lines next to each other, each pair related inside of a block or outside of any.
- `Together`: two results that correspond, be they accepted or refused.
- `Table.Rel`: tables with the same keys, whose values are related.

Main results:

- Theorem `Alongside.sectionLines`: sources side by side have their sections side by side.
- Theorem `Alongside.itemsOf`: so have sections their items.
- Theorem `Alongside.readLines`: the lines of sections side by side are read alike.
- Theorem `contentOf_congr`: what a file says under a label depends on the lines of the label only.
-/

namespace HotSpec

/-! ## Tables side by side -/

namespace Table

variable {α β : Type} {Q : String → α → β → Prop} {t : Table α} {t' : Table β}

/-- Tables with the same keys in the same order, where the values of each key are related. -/
def Rel (Q : String → α → β → Prop) (t : Table α) (t' : Table β) : Prop :=
  List.Forall₂ (fun row row' => row.1 = row'.1 ∧ Q row.1 row.2 row'.2) t t'

theorem rel_refl {Q : String → α → α → Prop} {t : Table α} (h : ∀ row ∈ t, Q row.1 row.2 row.2) :
    Rel Q t t := by
  unfold Rel
  rw [List.forall₂_same]
  intro row hrow
  exact ⟨rfl, h row hrow⟩

theorem rel_eq {t t' : Table α} (h : Rel (fun _ => Eq) t t') : t = t' := by
  unfold Rel at h
  rw [← List.forall₂_eq_eq_eq]
  exact h.imp fun _ _ hrow => Prod.ext hrow.1 hrow.2

theorem Rel.isEmpty (h : Rel Q t t') : t.isEmpty = t'.isEmpty := by
  cases h <;> rfl

theorem Rel.put (h : Rel Q t t') {key : String} {v : α} {v' : β} (hv : Q key v v') :
    Rel Q (t.put key v) (t'.put key v') := by
  induction h with
  | nil => exact .cons ⟨rfl, hv⟩ .nil
  | @cons row row' _ _ hrow hrows ih =>
    obtain ⟨k, a⟩ := row
    obtain ⟨k', a'⟩ := row'
    obtain ⟨rfl, hvalue⟩ := hrow
    simp only [Table.put]
    split
    · exact .cons ⟨rfl, by simp_all⟩ hrows
    · exact .cons ⟨rfl, hvalue⟩ ih

theorem Rel.get? (h : Rel Q t t') (key : String) : Option.Rel (Q key) (t.get? key) (t'.get? key) := by
  induction h with
  | nil => exact .none
  | @cons row row' _ _ hrow _ ih =>
    obtain ⟨k, a⟩ := row
    obtain ⟨k', a'⟩ := row'
    obtain ⟨rfl, hvalue⟩ := hrow
    rw [Table.get?_cons, Table.get?_cons]
    split
    · next heq => exact .some (heq ▸ hvalue)
    · exact ih

theorem Rel.ofRows (h : Rel Q t t') : Rel Q (ofRows t) (ofRows t') := by
  have hmerge {first : Table α} {first' : Table β} (hfirst : Rel Q first first') :
      Rel Q (first.merge t) (first'.merge t') := by
    induction h generalizing first first' with
    | nil => exact hfirst
    | @cons row row' _ _ hrow _ ih =>
      obtain ⟨k, a⟩ := row
      obtain ⟨k', a'⟩ := row'
      obtain ⟨rfl, hvalue⟩ := hrow
      exact ih (hfirst.put hvalue)
  exact hmerge .nil

end Table

end HotSpec

namespace HotSpec.Spec

open HotSpec.Text

/-! ## Lines of one form -/

/-- Two lines of one form, as far as the grammar looks at it. -/
structure Line.ReadsAs (line line' : Line) : Prop where
  isBlank : line.isBlank = line'.isBlank
  indent : line.indent = line'.indent
  header : headerPath? line.trimmed = headerPath? line'.trimmed
  separator : isSeparator line.trimmed = isSeparator line'.trimmed
  title : title? line.trimmed = title? line'.trimmed
  closes : isCloser line.trimmed = isCloser line'.trimmed
  closer : isCloser (trimStart line.text) = isCloser (trimStart line'.text)
  opener : opener? (trimStart line.text) = opener? (trimStart line'.text)
  condition : condition? (trimStart line.text) = condition? (trimStart line'.text)

namespace Line

/-- The form of a line is the form of its text. -/
theorem readsAs_of_text {line line' : Line} (h : line.text = line'.text) : line.ReadsAs line' := by
  constructor <;> simp only [isBlank, indent, trimmed, h]

variable {line line' : Line}

theorem ReadsAs.starts (h : line.ReadsAs line') : line.starts = line'.starts := by
  simp only [Line.starts, isHeader, separates, h.header, h.separator]

theorem ReadsAs.isHeader (h : line.ReadsAs line') : line.isHeader = line'.isHeader := by
  simp only [Line.isHeader, h.header]

theorem ReadsAs.pathIn (h : line.ReadsAs line') : pathIn line = pathIn line' := by
  simp only [Spec.pathIn, h.header]

theorem ReadsAs.isTitle (h : line.ReadsAs line') : line.isTitle = line'.isTitle := by
  simp only [Line.isTitle, h.title]

/-- Whether a block is open behind a line, inside of a block or outside of any. -/
def opensBehind (inside : Bool) (line : Line) : Bool :=
  if line.starts then false
  else if inside then !isCloser line.trimmed
  else (opener? (trimStart line.text)).isSome

theorem trimmed_of_blank (h : line.isBlank = true) : line.trimmed = [] := by
  rw [trimmed, trim, trimStart_of_blank h]
  rfl

/-- A blank line starts no section. -/
theorem starts_of_blank (h : line.isBlank = true) : line.starts = false := by
  rw [Line.starts, isHeader, separates, trimmed_of_blank h]
  rfl

/-- A blank line opens no block. -/
theorem opensBehind_of_blank (h : line.isBlank = true) : line.opensBehind false = false := by
  simp [opensBehind, starts_of_blank h, trimStart_of_blank h, opener?, label?]

end Line

/-! ## Side by side -/

/-- Lists side by side with a third one stand side by side. -/
theorem forall₂_trans {α β γ : Type} {R : α → β → Prop} {S : β → γ → Prop} {T : α → γ → Prop}
    {as : List α} {bs : List β} {cs : List γ} (hT : ∀ a b c, R a b → S b c → T a c)
    (hR : List.Forall₂ R as bs) (hS : List.Forall₂ S bs cs) : List.Forall₂ T as cs := by
  induction hR generalizing cs with
  | nil =>
    obtain rfl := List.forall₂_nil_left_iff.mp hS
    exact .nil
  | cons hab _ ih =>
    obtain ⟨c, cs, hbc, hrest, rfl⟩ := List.forall₂_cons_left_iff.mp hS
    exact .cons (hT _ _ _ hab hbc) (ih hrest)

/-- Elements that stand side by side are those of the two lists. -/
theorem forall₂_mem {α β : Type} {R : α → β → Prop} {as : List α} {bs : List β}
    (h : List.Forall₂ R as bs) : List.Forall₂ (fun a b => a ∈ as ∧ b ∈ bs ∧ R a b) as bs := by
  induction h with
  | nil => exact .nil
  | cons hab _ ih =>
    refine .cons ⟨List.mem_cons_self, List.mem_cons_self, hab⟩ (ih.imp fun a b hrest => ?_)
    exact ⟨List.mem_cons_of_mem _ hrest.1, List.mem_cons_of_mem _ hrest.2.1, hrest.2.2⟩

/-- What is known of all elements of a list is known of those next to them. -/
theorem forall_mem_iff_of_forall₂ {α β : Type} {R : α → β → Prop} {P : α → Prop} {Q : β → Prop}
    {as : List α} {bs : List β} (h : List.Forall₂ R as bs) (hPQ : ∀ a b, R a b → (P a ↔ Q b)) :
    (∀ a ∈ as, P a) ↔ ∀ b ∈ bs, Q b := by
  induction h with
  | nil => simp
  | cons hab _ ih => rw [List.forall_mem_cons, List.forall_mem_cons, ih, hPQ _ _ hab]

/-- The first elements of some kind stand next to each other, if there are any. -/
theorem rel_find?_of_forall₂ {α β : Type} {R : α → β → Prop} {p : α → Bool} {q : β → Bool}
    {as : List α} {bs : List β} (h : List.Forall₂ R as bs) (hpq : ∀ a b, R a b → p a = q b) :
    Option.Rel R (as.find? p) (bs.find? q) := by
  induction h with
  | nil => exact .none
  | @cons a b as bs hab _ ih =>
    rw [List.find?_cons, List.find?_cons, hpq a b hab]
    split
    · exact .some hab
    · exact ih

theorem map_eq_of_forall₂ {α β γ : Type} {R : α → β → Prop} {f : α → γ} {g : β → γ} {as : List α}
    {bs : List β} (h : List.Forall₂ R as bs) (hfg : ∀ a b, R a b → f a = g b) : as.map f = bs.map g := by
  induction h with
  | nil => rfl
  | cons hab _ ih => rw [List.map_cons, List.map_cons, ih, hfg _ _ hab]

theorem filter_map_eq_of_forall₂ {α β γ : Type} {R : α → β → Prop} {p : α → Bool} {q : β → Bool}
    {f : α → γ} {g : β → γ} {as : List α} {bs : List β} (h : List.Forall₂ R as bs)
    (hpq : ∀ a b, R a b → p a = q b) (hfg : ∀ a b, R a b → f a = g b) :
    (as.filter p).map f = (bs.filter q).map g := by
  induction h with
  | nil => rfl
  | cons hab _ ih =>
    rw [List.filter_cons, List.filter_cons, hpq _ _ hab]
    split
    · rw [List.map_cons, List.map_cons, ih, hfg _ _ hab]
    · exact ih

/-- Lines next to each other.  How the lines of a pair are related may depend on whether a block is open
in front of them. -/
inductive Alongside (R : Bool → Line → Line → Prop) : Bool → List Line → List Line → Prop
  | nil (inside : Bool) : Alongside R inside [] []
  | cons {inside : Bool} {line line' : Line} {lines lines' : List Line}
      (hline : R inside line line') (hlines : Alongside R (line.opensBehind inside) lines lines') :
      Alongside R inside (line :: lines) (line' :: lines')

namespace Alongside

variable {R : Bool → Line → Line → Prop} {inside : Bool} {lines lines' : List Line}

theorem of_forall₂ {S : Line → Line → Prop} (h : List.Forall₂ S lines lines') :
    Alongside (fun _ => S) inside lines lines' := by
  induction h generalizing inside with
  | nil => exact .nil inside
  | cons hline _ ih => exact .cons hline ih

theorem forall₂ (h : Alongside R inside lines lines') :
    List.Forall₂ (fun line line' => ∃ inside, R inside line line') lines lines' := by
  induction h with
  | nil => exact .nil
  | cons hline _ ih => exact .cons ⟨_, hline⟩ ih

theorem imp {S : Bool → Line → Line → Prop} (h : Alongside R inside lines lines')
    (hRS : ∀ inside line line', R inside line line' → S inside line line') :
    Alongside S inside lines lines' := by
  induction h with
  | nil => exact .nil _
  | cons hline _ ih => exact .cons (hRS _ _ _ hline) ih

/-- What else is known of the lines of each pair. -/
theorem and {S : Line → Line → Prop} (h : Alongside R inside lines lines')
    (hS : List.Forall₂ S lines lines') :
    Alongside (fun inside line line' => R inside line line' ∧ S line line') inside lines lines' := by
  induction h with
  | nil => exact .nil _
  | cons hline _ ih =>
    obtain ⟨hfirst, hrest⟩ := List.forall₂_cons.mp hS
    exact .cons ⟨hline, hfirst⟩ (ih hrest)

section Forms

variable (hR : ∀ inside line line', R inside line line' → line.ReadsAs line')
include hR

/-- The lines in front of the first section. -/
theorem takeWhile (h : Alongside R inside lines lines') :
    Alongside R inside (lines.takeWhile (!·.starts)) (lines'.takeWhile (!·.starts)) := by
  induction h with
  | nil => exact .nil _
  | @cons inside line line' lines lines' hline _ ih =>
    have hstarts := (hR _ _ _ hline).starts
    by_cases h : line.starts = true
    · rw [List.takeWhile_cons_of_neg (by simp [h]), List.takeWhile_cons_of_neg (by simp [← hstarts, h])]
      exact .nil inside
    · rw [List.takeWhile_cons_of_pos (by simp [h]), List.takeWhile_cons_of_pos (by simp [← hstarts, h])]
      exact .cons hline ih

/-- Sources side by side have their sections side by side. -/
theorem sectionLines (h : Alongside R inside lines lines') :
    List.Forall₂ (fun s s' => (∃ inside, R inside s.1 s'.1) ∧ Alongside R false s.2 s'.2 ∧
      ∀ line ∈ s.2, line.starts = false) (sectionLines lines) (sectionLines lines') := by
  induction h with
  | nil => exact .nil
  | @cons inside line line' lines lines' hline hlines ih =>
    have hstarts := (hR _ _ _ hline).starts
    by_cases h : line.starts = true
    · -- no block is open behind the line that starts a section
      have hopen : line.opensBehind inside = false := by simp [Line.opensBehind, h]
      rw [Spec.sectionLines, Spec.sectionLines, if_pos h, if_pos (hstarts ▸ h)]
      refine .cons ⟨⟨inside, hline⟩, takeWhile hR (hopen ▸ hlines), fun line hline => ?_⟩ ih
      simpa using List.mem_takeWhile_imp hline
    · rw [Spec.sectionLines, Spec.sectionLines, if_neg h, if_neg (hstarts ▸ h)]
      exact ih

/-! ### Blank lines at both ends -/

theorem dropWhile_blank (h : Alongside R inside lines lines') (hinside : inside = false) :
    Alongside R false (lines.dropWhile Line.isBlank) (lines'.dropWhile Line.isBlank) := by
  induction h with
  | nil => exact .nil false
  | @cons inside line line' lines lines' hline hlines ih =>
    subst hinside
    have hblank := (hR _ _ _ hline).isBlank
    by_cases h : line.isBlank = true
    · rw [List.dropWhile_cons_of_pos h, List.dropWhile_cons_of_pos (hblank ▸ h)]
      exact ih (Line.opensBehind_of_blank h)
    · rw [List.dropWhile_cons_of_neg h, List.dropWhile_cons_of_neg (hblank ▸ h)]
      exact .cons hline hlines

omit hR in
/-- A list without what is dropped at its end, from its first element on. -/
theorem rdropWhile_cons {α : Type} (p : α → Bool) (a : α) (l : List α) :
    (a :: l).rdropWhile p = if (a :: l).all p then [] else a :: l.rdropWhile p := by
  induction l using List.reverseRecOn with
  | nil =>
    by_cases h : p a = true <;> simp [List.rdropWhile, h]
  | append_singleton l b ih =>
    rw [← List.cons_append]
    by_cases h : p b = true
    · rw [List.rdropWhile_concat_pos _ _ _ h, List.rdropWhile_concat_pos _ _ _ h, ih]
      simp [h]
    · rw [List.rdropWhile_concat_neg _ _ _ h, List.rdropWhile_concat_neg _ _ _ h]
      simp [h]

theorem all_blank (h : Alongside R inside lines lines') :
    lines.all Line.isBlank = lines'.all Line.isBlank := by
  induction h with
  | nil => rfl
  | cons hline _ ih => rw [List.all_cons, List.all_cons, ih, (hR _ _ _ hline).isBlank]

theorem rdropWhile_blank (h : Alongside R inside lines lines') :
    Alongside R inside (lines.rdropWhile Line.isBlank) (lines'.rdropWhile Line.isBlank) := by
  induction h with
  | nil => exact .nil _
  | @cons inside line line' lines lines' hline hlines ih =>
    have hall : (line :: lines).all Line.isBlank = (line' :: lines').all Line.isBlank :=
      all_blank hR (.cons hline hlines)
    rw [rdropWhile_cons, rdropWhile_cons, hall]
    split
    · exact .nil inside
    · exact .cons hline ih

/-- Sections side by side are so without the blank lines at their ends. -/
theorem trimLines (h : Alongside R false lines lines') :
    Alongside R false (trimLines lines) (trimLines lines') :=
  rdropWhile_blank hR (dropWhile_blank hR h rfl)

theorem commonIndent (h : Alongside R inside lines lines') :
    commonIndent lines = commonIndent lines' := by
  have hindents : (lines.filter fun line => !line.isBlank).map Line.indent =
      (lines'.filter fun line => !line.isBlank).map Line.indent := by
    induction h with
    | nil => rfl
    | @cons inside line line' lines lines' hline _ ih =>
      have hreads := hR _ _ _ hline
      rw [List.filter_cons, List.filter_cons, hreads.isBlank]
      split
      · rw [List.map_cons, List.map_cons, ih, hreads.indent]
      · exact ih
  rw [Spec.commonIndent, Spec.commonIndent, hindents]

end Forms

end Alongside

/-! ## Kinds of lines -/

/-- Whether a line of some kind stands behind an opener of its section, up to its closer. -/
def LineKind.inside : LineKind → Bool
  | .inner _ | .closer => true
  | .plain | .condition .. | .opener _ | .stray => false

theorem inside_kindOutside (line : Line) : (kindOutside line).inside = false := by
  unfold kindOutside
  split
  · rfl
  · split <;> rfl

theorem Line.ReadsAs.kindOutside {line line' : Line} (h : line.ReadsAs line') :
    kindOutside line = kindOutside line' := by
  unfold Spec.kindOutside
  rw [h.closer, h.condition]

/-! ## Results that correspond -/

/-- Two results that correspond: both are accepted, or both are refused for one cause. -/
inductive Together {α β : Type} (At : Nat → Nat → Prop) (P : α → β → Prop) :
    Except Refusal α → Except Refusal β → Prop
  | ok {a : α} {b : β} (h : P a b) : Together At P (.ok a) (.ok b)
  | error {cause : SpecCause} {i j : Nat} (h : At i j) :
      Together At P (.error (cause, i)) (.error (cause, j))

/-- What is made of results that correspond corresponds. -/
theorem Together.bind {α β α' β' : Type} {At : Nat → Nat → Prop} {P : α → β → Prop}
    {Q : α' → β' → Prop} {x : Except Refusal α} {y : Except Refusal β}
    {f : α → Except Refusal α'} {g : β → Except Refusal β'} (h : Together At P x y)
    (hfg : ∀ a b, P a b → Together At Q (f a) (g b)) : Together At Q (x >>= f) (y >>= g) := by
  cases h with
  | ok h => exact hfg _ _ h
  | error h => exact .error h

theorem Together.map {α β α' β' : Type} {At : Nat → Nat → Prop} {P : α → β → Prop}
    {Q : α' → β' → Prop} {x : Except Refusal α} {y : Except Refusal β} {f : α → α'} {g : β → β'}
    (h : Together At P x y) (hfg : ∀ a b, P a b → Q (f a) (g b)) :
    Together At Q (x.map f) (y.map g) := by
  cases h with
  | ok h => exact .ok (hfg _ _ h)
  | error h => exact .error h

/-! ## Items side by side -/

section Items

variable {line : Line} {lines : List Line}

theorem itemsOf_of_uncut {label : List Char} {title : Option (List Char)}
    (hopener : opener? (trimStart line.text) = some (label, title))
    (hcut : cutAtCloser lines = none) :
    itemsOf (line :: lines) = .error (.unclosedBlock (String.ofList label), line.textStart) := by
  rw [itemsOf]
  simp only [hopener]
  split
  · rfl
  · next h =>
    rw [hcut] at h
    cases h

theorem itemsOf_of_block {label : List Char} {title : Option (List Char)} {inner rest : List Line}
    (hopener : opener? (trimStart line.text) = some (label, title))
    (hcut : cutAtCloser lines = some (inner, rest)) :
    itemsOf (line :: lines) = (itemsOf rest).map
      (.block (String.ofList label) (nonEmpty? title) line inner :: ·) := by
  rw [itemsOf]
  simp only [hopener]
  split
  · next h =>
    rw [hcut] at h
    cases h
  · next h =>
    rw [hcut] at h
    cases h
    cases itemsOf rest <;> rfl

theorem itemsOf_of_stray (hopener : opener? (trimStart line.text) = none)
    (hcloser : isCloser (trimStart line.text) = true) :
    itemsOf (line :: lines) = .error (.strayCloser, line.textStart) := by
  rw [itemsOf]
  simp only [hopener, hcloser, if_true]

/-- The item of a line that stands alone. -/
def Item.ofLine (line : Line) : Item :=
  match condition? (trimStart line.text) with
  | some (label, marker) => .condition (String.ofList label) marker line
  | none => .plain line

theorem itemsOf_of_line (hopener : opener? (trimStart line.text) = none)
    (hcloser : isCloser (trimStart line.text) = false) :
    itemsOf (line :: lines) = (itemsOf lines).map (.ofLine line :: ·) := by
  rw [itemsOf]
  simp only [hopener, hcloser, Item.ofLine]
  cases itemsOf lines with
  | error refusal => rfl
  | ok items => cases condition? (trimStart line.text) <;> rfl

end Items

/-- Two items of one form, whose lines are related. -/
inductive Item.Alike (R : Bool → Line → Line → Prop) : Item → Item → Prop
  | plain {line line' : Line} (hline : R false line line')
      (hform : condition? (trimStart line.text) = none) : Alike R (.plain line) (.plain line')
  | condition {label : List Char} {marker : Nat} {line line' : Line} (hline : R false line line')
      (hform : condition? (trimStart line.text) = some (label, marker)) :
      Alike R (.condition (String.ofList label) marker line)
        (.condition (String.ofList label) marker line')
  | block {label : String} {title : Option String} {opener opener' : Line} {inner inner' : List Line}
      (hopener : R false opener opener') (hinner : List.Forall₂ (R true) inner inner') :
      Alike R (.block label title opener inner) (.block label title opener' inner')

/-- Items of one form have the same labels. -/
theorem labels_of_alike {R : Bool → Line → Line → Prop} {items items' : List Item}
    (h : List.Forall₂ (Item.Alike R) items items') :
    items.filterMap Item.label? = items'.filterMap Item.label? := by
  induction h with
  | nil => rfl
  | cons hitem _ ih =>
    rw [List.filterMap_cons, List.filterMap_cons, ih]
    cases hitem <;> rfl

namespace Alongside

variable {R : Bool → Line → Line → Prop} {inside : Bool} {lines lines' : List Line}
variable (hR : ∀ inside line line', R inside line line' → line.ReadsAs line')
include hR

/-- Blocks side by side are closed side by side. -/
theorem cutAtCloser (h : Alongside R inside lines lines') (hinside : inside = true)
    (hstarts : ∀ line ∈ lines, line.starts = false) :
    (cutAtCloser lines = none ∧ cutAtCloser lines' = none) ∨
      ∃ inner rest inner' rest', cutAtCloser lines = some (inner, rest) ∧
        cutAtCloser lines' = some (inner', rest') ∧ List.Forall₂ (R true) inner inner' ∧
        Alongside R false rest rest' ∧ rest <:+ lines := by
  induction h with
  | nil => exact .inl ⟨rfl, rfl⟩
  | @cons inside line line' lines lines' hline hlines ih =>
    subst hinside
    have hstart := hstarts line List.mem_cons_self
    have hcloses := (hR _ _ _ hline).closes
    rw [Spec.cutAtCloser, Spec.cutAtCloser]
    by_cases hcloser : isCloser line.trimmed = true
    · rw [if_pos hcloser, if_pos (hcloses ▸ hcloser)]
      have hopen : line.opensBehind true = false := by simp [Line.opensBehind, hstart, hcloser]
      exact .inr ⟨[], lines, [], lines', rfl, rfl, .nil, hopen ▸ hlines, List.suffix_cons _ _⟩
    · rw [if_neg hcloser, if_neg (hcloses ▸ hcloser)]
      have hopen : line.opensBehind true = true := by simp [Line.opensBehind, hstart, hcloser]
      rcases ih hopen fun line hline => hstarts line (List.mem_cons_of_mem _ hline) with
        ⟨hnone, hnone'⟩ | ⟨inner, rest, inner', rest', hcut, hcut', hinner, hrest, hsuffix⟩
      · exact .inl ⟨by rw [hnone]; rfl, by rw [hnone']; rfl⟩
      · exact .inr ⟨line :: inner, rest, line' :: inner', rest', by rw [hcut]; rfl, by rw [hcut']; rfl,
          .cons hline hinner, hrest, hsuffix.trans (List.suffix_cons _ _)⟩

/-- Sections side by side have their items side by side, or are refused for the same cause at lines that
stand next to each other. -/
theorem itemsOf {At : Nat → Nat → Prop}
    (hAt : ∀ inside line line', R inside line line' → At line.textStart line'.textStart)
    (h : Alongside R false lines lines') (hstarts : ∀ line ∈ lines, line.starts = false) :
    Together At (List.Forall₂ (Item.Alike R)) (itemsOf lines) (itemsOf lines') := by
  -- a block may be of any length, so the induction is on the length of what is left
  induction hn : lines.length using Nat.strongRecOn generalizing lines lines' with
  | ind n ih =>
  subst hn
  cases h with
  | nil =>
    rw [Spec.itemsOf]
    exact .ok .nil
  | @cons _ line line' lines lines' hline hlines =>
    have hreads := hR _ _ _ hline
    have hstart := hstarts line List.mem_cons_self
    have hrest (line : Line) (hline : line ∈ lines) := hstarts line (List.mem_cons_of_mem _ hline)
    cases hopener : opener? (trimStart line.text) with
    | some opened =>
      obtain ⟨label, title⟩ := opened
      have hopener' := hreads.opener ▸ hopener
      have hopen : line.opensBehind false = true := by simp [Line.opensBehind, hstart, hopener]
      rcases cutAtCloser hR hlines hopen hrest with
        ⟨hcut, hcut'⟩ | ⟨inner, rest, inner', rest', hcut, hcut', hinner, hafter, hsuffix⟩
      · rw [itemsOf_of_uncut hopener hcut, itemsOf_of_uncut hopener' hcut']
        exact .error (hAt _ _ _ hline)
      · rw [itemsOf_of_block hopener hcut, itemsOf_of_block hopener' hcut']
        have hshort : rest.length < (line :: lines).length := Nat.lt_succ_of_le hsuffix.length_le
        have hitems := ih _ hshort hafter (fun line hline => hrest line (hsuffix.subset hline)) rfl
        exact hitems.map fun _ _ hitems => .cons (.block hline hinner) hitems
    | none =>
      have hopener' := hreads.opener ▸ hopener
      cases hcloser : isCloser (trimStart line.text) with
      | true =>
        rw [itemsOf_of_stray hopener hcloser, itemsOf_of_stray hopener' (hreads.closer ▸ hcloser)]
        exact .error (hAt _ _ _ hline)
      | false =>
        have hopen : line.opensBehind false = false := by simp [Line.opensBehind, hstart, hopener]
        rw [itemsOf_of_line hopener hcloser, itemsOf_of_line hopener' (hreads.closer ▸ hcloser)]
        have hitems := ih _ (Nat.lt_succ_self _) (hopen ▸ hlines) hrest rfl
        refine hitems.map fun _ _ hitems => .cons ?_ hitems
        unfold Item.ofLine
        rw [← hreads.condition]
        cases hform : condition? (trimStart line.text) with
        | none => exact .plain hline hform
        | some condition => exact .condition hline hform

theorem alike {items items' : List Item} (h : Alongside R false lines lines')
    (hstarts : ∀ line ∈ lines, line.starts = false) (hitems : Spec.itemsOf lines = .ok items)
    (hitems' : Spec.itemsOf lines' = .ok items') : List.Forall₂ (Item.Alike R) items items' := by
  have htogether := @itemsOf _ _ _ hR (fun _ _ => True) (fun _ _ _ _ => trivial) h hstarts
  rw [hitems, hitems'] at htogether
  cases htogether with
  | ok h => exact h

/-! ### Lines as they are read -/

/-- Lines side by side are read alike, in a block or outside of any. -/
theorem readLines_block {block : Option String} (h : Alongside R inside lines lines')
    (hinside : inside = block.isSome) (hstarts : ∀ line ∈ lines, line.starts = false) :
    List.Forall₂ (fun row row' => row.2 = row'.2 ∧ R row.2.inside row.1 row'.1)
      (readLines block lines) (readLines block lines') := by
  induction h generalizing block with
  | nil => cases block <;> exact .nil
  | @cons inside line line' lines lines' hline _ ih =>
    have hreads := hR _ _ _ hline
    have hstart := hstarts line List.mem_cons_self
    have ih {block} hblock := @ih block hblock fun line hline => hstarts line (List.mem_cons_of_mem _ hline)
    cases block with
    | some label =>
      obtain rfl : inside = true := hinside
      rw [Spec.readLines, Spec.readLines, ← hreads.closes]
      by_cases hcloser : isCloser line.trimmed = true
      · rw [if_pos hcloser, if_pos hcloser]
        exact .cons ⟨rfl, hline⟩ (ih (by simp [Line.opensBehind, hstart, hcloser]))
      · rw [if_neg hcloser, if_neg hcloser]
        exact .cons ⟨rfl, hline⟩ (ih (by simp [Line.opensBehind, hstart, hcloser]))
    | none =>
      obtain rfl : inside = false := hinside
      cases hopener : opener? (trimStart line.text) with
      | some opened =>
        obtain ⟨label, title⟩ := opened
        rw [readLines_of_opener hopener, readLines_of_opener (hreads.opener ▸ hopener)]
        exact .cons ⟨rfl, hline⟩ (ih (by simp [Line.opensBehind, hstart, hopener]))
      | none =>
        rw [readLines_of_no_opener hopener, readLines_of_no_opener (hreads.opener ▸ hopener)]
        refine .cons ⟨hreads.kindOutside, ?_⟩ (ih (by simp [Line.opensBehind, hstart, hopener]))
        rwa [inside_kindOutside]

/-- The lines of sections side by side are read alike. -/
theorem readLines (h : Alongside R false lines lines') (hstarts : ∀ line ∈ lines, line.starts = false) :
    List.Forall₂ (fun row row' => row.2 = row'.2 ∧ R row.2.inside row.1 row'.1)
      (readLines none lines) (readLines none lines') := by
  apply readLines_block hR h
  · rfl
  · exact hstarts

end Alongside

/-! ## What is read alike -/

/-- Whether the lines that are read are balanced depends on their kinds only. -/
theorem balanced_congr {rows rows' : List (Line × LineKind)}
    (h : List.Forall₂ (fun row row' => row.2 = row'.2) rows rows') : Balanced rows ↔ Balanced rows' := by
  induction h with
  | nil => exact Iff.rfl
  | @cons row row' rows rows' hkind hrows ih =>
    have hcloser : (∃ row ∈ rows, row.2 = .closer) ↔ ∃ row ∈ rows', row.2 = .closer := by
      clear ih
      induction hrows with
      | nil => simp
      | cons hkind _ ih => simp only [List.exists_mem_cons_iff, hkind, ih]
    rw [balanced_cons, balanced_cons, hkind, hcloser, ih]

/-- The labels that lines bring depend on their kinds only. -/
theorem labelsIn_congr {rows rows' : List (Line × LineKind)}
    (h : List.Forall₂ (fun row row' => row.2 = row'.2) rows rows') : labelsIn rows = labelsIn rows' := by
  have hbrings : rows.filterMap (·.2.brings?) = rows'.filterMap (·.2.brings?) := by
    induction h with
    | nil => rfl
    | cons hkind _ ih => rw [List.filterMap_cons, List.filterMap_cons, hkind, ih]
  rw [labelsIn, labelsIn, hbrings]

/-- Whether lines have any text of their own depends on their kinds only. -/
theorem own?_congr {rows rows' : List (Line × LineKind)}
    (h : List.Forall₂ (fun row row' => row.2 = row'.2) rows rows') :
    (rows.all fun row => (row.2.own? 0 row.1).isNone) =
      rows'.all fun row => (row.2.own? 0 row.1).isNone := by
  induction h with
  | nil => rfl
  | @cons row row' _ _ hkind _ ih =>
    rw [List.all_cons, List.all_cons, ih, hkind]
    cases row'.2 <;> rfl

/-- What a file says under a label depends on the lines that count for the label only. -/
theorem contentOf_congr {indent : Nat} {label : String} {rows rows' : List (Line × LineKind)}
    (h : List.Forall₂ (fun row row' => row.2 = row'.2 ∧ row.1.indent = row'.1.indent ∧
      (row.2.isFor label = true → row.1.text = row'.1.text)) rows rows') :
    contentOf indent label rows = contentOf indent label rows' := by
  induction h with
  | nil => rfl
  | @cons row row' rows rows' hrow hrows ih =>
    obtain ⟨line, kind⟩ := row
    obtain ⟨line', kind'⟩ := row'
    obtain ⟨rfl, hindent, htext⟩ := hrow
    have hempty : rows.isEmpty = rows'.isEmpty := by cases hrows <;> rfl
    rw [contentOf, contentOf, ih, hempty]
    congr 1
    simp only at hindent htext
    unfold LineKind.content
    cases hfor : kind.isFor label with
    | true =>
      have hsame := htext hfor
      cases kind <;> simp [LineKind.own?, hindent, hsame]
    | false => cases kind <;> simp [LineKind.own?]

/-- What is known of the contents of a file depends on how its lines are read, and on what they say under
each label. -/
theorem contentsIn_congr {Q : String → String → String → Prop} {lines lines' : List Line}
    (hkinds : List.Forall₂ (fun row row' => row.2 = row'.2)
      (readLines none (trimLines lines)) (readLines none (trimLines lines')))
    (h : ∀ label, Q label (String.ofList (contentOf (commonIndent (trimLines lines)) label
        (readLines none (trimLines lines))))
      (String.ofList (contentOf (commonIndent (trimLines lines')) label
        (readLines none (trimLines lines'))))) :
    Table.Rel Q (contentsIn lines) (contentsIn lines') := by
  unfold contentsIn Table.Rel
  simp only [own?_congr hkinds, labelsIn_congr hkinds]
  split
  · exact .nil
  · rw [List.forall₂_map_left_iff, List.forall₂_map_right_iff, List.forall₂_same]
    intro label _
    exact ⟨rfl, h label⟩

/-! ## Lines with the same texts -/

/-- Two lines with the same text. -/
def Line.SameText (line line' : Line) : Prop := line.text = line'.text

theorem Line.SameText.readsAs {line line' : Line} (h : line.SameText line') : line.ReadsAs line' :=
  Line.readsAs_of_text h

theorem forall₂_sameText {lines lines' : List Line}
    (h : lines.map Line.text = lines'.map Line.text) : List.Forall₂ Line.SameText lines lines' := by
  rwa [← List.forall₂_eq_eq_eq, List.forall₂_map_left_iff, List.forall₂_map_right_iff] at h

/-- The lines of a section are balanced, and say what they say in a file, by their texts only, without
the blank lines at both ends. -/
theorem reads_trimLines {lines lines' : List Line} (hstarts : ∀ line ∈ lines, line.starts = false)
    (h : List.Forall₂ Line.SameText (trimLines lines) (trimLines lines')) :
    (Balanced (readLines none lines) ↔ Balanced (readLines none lines')) ∧
      contentsIn lines = contentsIn lines' := by
  have hreads (inside : Bool) (line line' : Line) (htext : line.SameText line') :
      line.ReadsAs line' := htext.readsAs
  have halong := @Alongside.of_forall₂ false _ _ _ h
  have hrows := halong.readLines hreads fun line hline =>
    hstarts line ((trimLines_sublist lines).subset hline)
  have hkinds := hrows.imp fun _ _ h => h.1
  constructor
  · rw [balanced_trimLines lines, balanced_trimLines lines']
    exact balanced_congr hkinds
  · apply Table.rel_eq
    apply contentsIn_congr hkinds
    intro label
    rw [halong.commonIndent hreads, contentOf_congr (hrows.imp fun _ _ ⟨hkind, htext⟩ =>
      ⟨hkind, htext.readsAs.indent, fun _ => htext⟩)]

theorem reads_sameText {lines lines' : List Line} (hstarts : ∀ line ∈ lines, line.starts = false)
    (h : List.Forall₂ Line.SameText lines lines') :
    (Balanced (readLines none lines) ↔ Balanced (readLines none lines')) ∧
      contentsIn lines = contentsIn lines' := by
  have halong := (Alongside.of_forall₂ h).trimLines fun _ _ _ htext => htext.readsAs
  exact reads_trimLines hstarts (halong.forall₂.imp fun _ _ ⟨_, htext⟩ => htext)

/-- The title of a spec is the one of its source, where it has to have one. -/
theorem title_outline {source : List Char} {full : Bool} {outline : Outline}
    (h : Outline.of source full = .ok outline) :
    outline.title = if full then (titleOf source).toOption else none := by
  rw [outline_eq_bind] at h
  obtain ⟨title, htitle, h⟩ := ok_of_bind h
  rw [(outlineWith_eq_ok h).1]
  cases full with
  | false => exact (Except.ok.inj htitle).symm
  | true =>
    cases hfound : titleOf source with
    | error refusal => simp [hfound, Except.map] at htitle
    | ok found => simpa [hfound, Except.map, Except.toOption, eq_comm] using htitle

/-- The expectations of a spec are the section of its separator, if it has one. -/
theorem expectations_outline {source : List Char} {full : Bool} {outline : Outline}
    (h : Outline.of source full = .ok outline) :
    ((sectionLines (linesOf source)).find? (·.1.separates) = none ∧ outline.expectations = none) ∨
      ∃ s content, (sectionLines (linesOf source)).find? (·.1.separates) = some s ∧
        s ∈ sectionLines (linesOf source) ∧ outline.expectations = some content ∧
          Section.of source true s.2 = .ok content := by
  have hcontent := (outline_files h).2
  cases hs : (sectionLines (linesOf source)).find? (·.1.separates) with
  | none =>
    rw [hs] at hcontent
    exact .inl ⟨rfl, Option.toList_eq_nil_iff.mp (List.forall₂_nil_left_iff.mp hcontent)⟩
  | some s =>
    rw [hs] at hcontent
    cases hexpected : outline.expectations with
    | none =>
      rw [hexpected] at hcontent
      cases hcontent
    | some content =>
      rw [hexpected] at hcontent
      exact .inr ⟨s, content, rfl, List.mem_of_find?_eq_some hs, rfl, (List.forall₂_cons.mp hcontent).1⟩

/-! ## A blank line at the end -/

/-- A section is what it is without a blank line at its end. -/
theorem trimLines_append_blank {last : Line} (h : last.isBlank = true) (lines : List Line) :
    trimLines (lines ++ [last]) = trimLines lines := by
  change ((lines ++ [last]).dropWhile Line.isBlank).rdropWhile Line.isBlank =
    (lines.dropWhile Line.isBlank).rdropWhile Line.isBlank
  rw [List.dropWhile_append]
  split
  · next hempty =>
    rw [List.isEmpty_iff.mp hempty, List.dropWhile_cons_of_pos h, List.dropWhile_nil]
  · rw [List.rdropWhile_concat_pos _ _ _ h]

theorem contentsIn_append_blank {last : Line} (h : last.isBlank = true) (lines : List Line) :
    contentsIn (lines ++ [last]) = contentsIn lines := by
  simp only [contentsIn, trimLines_append_blank h]

theorem balanced_append_blank {last : Line} (h : last.isBlank = true) (lines : List Line) :
    Balanced (readLines none (lines ++ [last])) ↔ Balanced (readLines none lines) := by
  rw [balanced_trimLines, trimLines_append_blank h, ← balanced_trimLines]

/-- A blank line at the end belongs to the last section, if there is any. -/
theorem sectionLines_append_blank {last : Line} (h : last.isBlank = true) (lines : List Line) :
    List.Forall₂ (fun s s' => s.1 = s'.1 ∧ (s'.2 = s.2 ∨ s'.2 = s.2 ++ [last]))
      (sectionLines lines) (sectionLines (lines ++ [last])) := by
  have hstart := Line.starts_of_blank h
  induction lines with
  | nil => simp [sectionLines, hstart]
  | cons line lines ih =>
    rw [List.cons_append, sectionLines, sectionLines]
    split
    · refine .cons ⟨rfl, ?_⟩ ih
      rw [List.takeWhile_append]
      split
      · next hall =>
        rw [(List.takeWhile_prefix _).eq_of_length hall]
        exact .inr (by simp [hstart])
      · exact .inl rfl
    · exact ih

end HotSpec.Spec
