import HotSpec.Proofs.Spec.Labels
import HotSpec.Session.Basic

/-!
# Specs without values

A spec that was written without any value compiles to expectations of plain HTML: each of its labels
has no hooks and a single step, which asks for some HTML as it is.

Main definitions:

- `Expectation.plain?`: the HTML that an expectation asks for, if it asks for nothing else.

Main results:

- Theorem `plain_compile`: the expectations of a spec without values are plain.
- Theorems `merge_of_nodup`, `install_first`: what a test knows of a spec that is registered first.
-/

namespace HotSpec

/-! ## Tables -/

namespace Table

variable {α : Type}

theorem put_of_notMem {t : Table α} {key : String} (h : key ∉ t.keys) (v : α) :
    t.put key v = t ++ [(key, v)] := by
  induction t with
  | nil => rfl
  | cons row t ih =>
      obtain ⟨k, v'⟩ := row
      rw [keys, List.map_cons, List.mem_cons, not_or] at h
      obtain ⟨hne, hrest⟩ := h
      rw [put, if_neg fun heq => hne heq.symm, ih hrest]
      rfl

theorem get?_of_notMem {t : Table α} {key : String} (h : key ∉ t.keys) : t.get? key = none := by
  induction t with
  | nil => rfl
  | cons row t ih =>
      obtain ⟨k, v⟩ := row
      rw [keys, List.map_cons, List.mem_cons, not_or] at h
      obtain ⟨hne, hrest⟩ := h
      rw [get?_cons, if_neg fun heq => hne heq.symm, ih hrest]

theorem exists_of_mem_keys {t : Table α} {key : String} (h : key ∈ t.keys) :
    ∃ v, t.get? key = some v := by
  induction t with
  | nil => cases h
  | cons row t ih =>
      obtain ⟨k, v⟩ := row
      by_cases hkey : k = key
      · exact ⟨v, by simp [get?_cons, hkey]⟩
      · rw [keys, List.map_cons, List.mem_cons] at h
        obtain ⟨v', hget⟩ := ih (h.resolve_left (Ne.symm hkey))
        exact ⟨v', by simp [get?_cons, hkey, hget]⟩

theorem get?_of_mem {t : Table α} {row : String × α} (h : t.keys.Nodup) (hmem : row ∈ t) :
    t.get? row.1 = some row.2 := by
  induction t with
  | nil => cases hmem
  | cons first t ih =>
      obtain ⟨k, v⟩ := first
      rw [keys, List.map_cons, List.nodup_cons] at h
      rw [get?_cons]
      rcases List.mem_cons.mp hmem with rfl | hrest
      · exact if_pos rfl
      · rw [if_neg, ih h.2 hrest]
        rintro rfl
        exact h.1 (List.mem_map.mpr ⟨row, hrest, rfl⟩)

/-- Rows with new keys are put at the end, in their order. -/
theorem merge_of_nodup {t rows : Table α} (h : (t.keys ++ rows.keys).Nodup) :
    t.merge rows = t ++ rows := by
  induction rows generalizing t with
  | nil => exact (List.append_nil t).symm
  | cons row rows ih =>
      obtain ⟨key, v⟩ := row
      have hnew : key ∉ t.keys := by
        intro hmem
        exact (List.nodup_append.mp h).2.2 key hmem key (List.mem_cons_self ..) rfl
      change (t.put key v).merge rows = _
      rw [put_of_notMem hnew, ih, List.append_assoc]
      · rfl
      · simpa [keys, List.append_assoc] using h

theorem nodup_keys_ofRows (rows : List (String × α)) : (ofRows rows).keys.Nodup := by
  have hmerge (t : Table α) (h : t.keys.Nodup) : (t.merge rows).keys.Nodup := by
    induction rows generalizing t with
    | nil => exact h
    | cons row rows ih => exact ih _ (nodup_keys_put h _ _)
  exact hmerge [] List.nodup_nil

end Table

/-! ## Registered specs -/

namespace Session

/-- A spec that is registered first is known as it is. -/
theorem install_first {s : Session} {spec : CompiledSpec} (hspecs : s.specs = [])
    (hexpects : s.expects = []) (hfiles : spec.files.keys.Nodup) (hkeys : spec.expects.keys.Nodup) :
    s.install spec = { s with specs := spec.files, expects := spec.expects } := by
  have hfold (rows : Table Expectation) (s : Session) (h : (s.expects.keys ++ rows.keys).Nodup) :
      rows.foldl (fun s row => s.mergeExpectation row.1 row.2) s =
        { s with expects := s.expects ++ rows } := by
    induction rows generalizing s with
    | nil => simp
    | cons row rows ih =>
        obtain ⟨label, e⟩ := row
        have hnew : label ∉ s.expects.keys := by
          intro hmem
          exact (List.nodup_append.mp h).2.2 label hmem label (List.mem_cons_self ..) rfl
        have hfirst : s.mergeExpectation label e =
            { s with expects := s.expects ++ [(label, e)] } := by
          simp only [mergeExpectation, Table.get?_of_notMem hnew, Table.put_of_notMem hnew]
        rw [List.foldl_cons, hfirst, ih]
        · simp
        · simpa [Table.keys, List.append_assoc] using h
  unfold install
  rw [hfold]
  · simp only [hspecs, hexpects, List.nil_append, Table.merge_of_nodup (t := []) hfiles]
  · simpa [hexpects, Table.keys] using hkeys

end Session

/-! ## Plain expectations -/

/-- The HTML that an expectation asks for, if it asks for nothing but some HTML as it is. -/
def Expectation.plain? : Expectation → Option String
  | ⟨_, none, none, [.html (.exact html)]⟩ => some html
  | _ => none

namespace Spec

open Html (Token Expected)

/-- Labels are named once. -/
theorem nodup_eraseDups (labels : List String) : labels.eraseDups.Nodup := by
  induction hn : labels.length using Nat.strongRecOn generalizing labels with
  | ind n ih =>
  subst hn
  cases labels with
  | nil => exact List.nodup_nil
  | cons label labels =>
      rw [List.eraseDups_cons, List.nodup_cons]
      refine ⟨?_, ih _ (Nat.lt_succ_of_le (List.length_filter_le _ _)) _ rfl⟩
      rw [List.mem_eraseDups, List.mem_filter]
      simp

namespace Draft

/-- Whether nothing but literal lines is known. -/
structure Literal (d : Draft) : Prop where
  lines : ∀ line ∈ d.lines, ∀ token ∈ line, token.isLiteral = true
  steps : d.steps = none
  before : d.before = none
  after : d.after = none

theorem Literal.addLine {d : Draft} (h : d.Literal) {line : List Token}
    (hline : ∀ token ∈ line, token.isLiteral = true) : (d.addLine line).Literal where
  lines line' hmem := by
    rcases List.mem_append.mp hmem with hmem | hmem
    · exact h.lines line' hmem
    · rw [List.mem_singleton.mp hmem]
      exact hline
  steps := h.steps
  before := h.before
  after := h.after

/-- Parts without values are literal lines. -/
theorem Literal.readPart {label : String} {d d' : Draft} {p : Part} (h : d.Literal)
    (hread : d.readPart label [] p = .ok d') : d'.Literal := by
  unfold Draft.readPart at hread
  split at hread
  · cases hread
    refine h.addLine ?_
    change ∀ token ∈ literalToken? p.text, _
    unfold literalToken?
    split
    · simp
    · simp [Token.isLiteral]
  · have hline : ∀ token ∈ [Token.literal (String.ofList p.text)], token.isLiteral = true := by
      simp [Token.isLiteral]
    split at hread
    · cases hread
      split
      · have htitled : ({ d with title := p.title } : Draft).Literal :=
          ⟨h.lines, h.steps, h.before, h.after⟩
        exact htitled.addLine hline
      · exact h.addLine hline
    · cases hread
      exact h

theorem Literal.read {label : String} {d d' : Draft} {parts : List Part} (h : d.Literal)
    (hread : d.read label [] parts = .ok d') : d'.Literal := by
  induction parts generalizing d with
  | nil =>
      cases hread
      exact h
  | cons p parts ih =>
      obtain ⟨d₁, hpart, hrest⟩ := ok_of_bind hread
      exact ih (h.readPart hpart) hrest

/-- An expectation of literal lines is plain: it asks for their text. -/
theorem Literal.finish {label : String} {d : Draft} {e : Expectation} (h : d.Literal)
    (hfinish : d.finish label = .ok e) :
    e.plain? = some (Html.normal (String.join (d.lines.flatten.map Token.text))) := by
  unfold Draft.finish at hfinish
  rw [h.steps] at hfinish
  cases hfinish
  have hall : d.lines.flatten.all Token.isLiteral = true := by
    rw [List.all_eq_true]
    intro token htoken
    obtain ⟨line, hline, hmem⟩ := List.mem_flatten.mp htoken
    exact h.lines line hline token hmem
  unfold Expected.ofLines
  rw [h.before, h.after, if_pos hall]
  rfl

/-- Nothing known yet is nothing but literal lines. -/
theorem literal_empty : Draft.empty.Literal := ⟨by simp [Draft.empty], rfl, rfl, rfl⟩

end Draft

/-- What a spec without values compiles to: each label is named once and has a plain expectation, and
each file is named once.  A full spec has a label at least. -/
theorem plain_compile {source : Source} {full : Bool} {file : Option String}
    {compiled : CompiledSpec} (hfree : source.values = [])
    (h : compile source full file = .ok compiled) :
    compiled.files.keys.Nodup ∧ compiled.expects.keys.Nodup ∧
      (∀ row ∈ compiled.expects, ∃ html, row.2.plain? = some html) ∧
      (full = true → compiled.expects ≠ []) := by
  obtain ⟨outline, -, hnone, hrouted⟩ := routed_compile (by rw [hfree]; exact .nil) h
  have hfull : full = true → compiled.expects ≠ [] := fun heq => expects_of_full (heq ▸ h)
  obtain ⟨outline', -, h⟩ := ok_of_bind h
  obtain ⟨compiled', hcompiled, h⟩ := ok_of_bind h
  obtain rfl : compiled' = compiled := by
    split at h
    · cases h
    · exact Except.ok.inj h
  have hfiles : ∃ rows, compiled'.files = Table.ofRows rows := by
    unfold compileOutline at hcompiled
    cases hs : outline'.expectations <;> rw [hs] at hcompiled <;>
      obtain ⟨⟨expects, left⟩, -, hleft⟩ := ok_of_bind hcompiled <;>
      cases left <;> cases hleft <;> exact ⟨_, rfl⟩
  obtain ⟨rows, hrows⟩ := hfiles
  have hkeys : compiled'.expects.keys.Nodup := by
    cases hs : outline.expectations with
    | none =>
        rw [(hnone hs).2]
        exact List.nodup_nil
    | some s =>
        rw [(hrouted s hs).keys, (hrouted s hs).laid.labels]
        exact nodup_eraseDups _
  refine ⟨hrows ▸ Table.nodup_keys_ofRows rows, hkeys, fun row hrow => ?_, hfull⟩
  cases hs : outline.expectations with
  | none =>
      rw [(hnone hs).2] at hrow
      cases hrow
  | some s =>
      have hlabel : row.1 ∈ s.labels := (hrouted s hs).keys ▸ List.mem_map_of_mem hrow
      obtain ⟨d, e, hread, hfinish, hget⟩ := (hrouted s hs).label row.1 hlabel
      rw [Table.get?_of_mem hkeys hrow] at hget
      cases hget
      rw [hfree] at hread
      exact ⟨_, (Draft.literal_empty.read hread).finish hfinish⟩

end Spec

end HotSpec
