import HotSpec.Proofs.Spec.Plain
import HotSpec.Proofs.Spec.ValuedBlocks

/-!
# Values in their places

The expectations of a section are made exactly if its values stand where they may stand and no label
has values in two of its blocks.

Main definitions:

- `Section.valuedBlocks`: the blocks of a label in which values were written.
- `Section.WellPlaced`: values that stand where they may stand, in any number of blocks.
- `Section.Dealt`: values that can be dealt out to the parts of a section.

Main results:

- Theorem `draftsOf_of_dealt`: the drafts of values that can be dealt out, for each label in one block.
- Theorem `compileExpectations_ok_iff`: the sections whose expectations are made.
- Theorem `tooManyBlocks_iff`: when a label has too many blocks, and what it expects otherwise.
-/

namespace HotSpec.Spec

open Html (Token Expected)

/-- The blocks of a label in which values were written. -/
def Section.valuedBlocks (s : Section) (label : String) (values : List Anchored) : List Part :=
  s.parts.filter (Part.valued label values)

/-- Values that stand where they may stand, in any number of blocks. -/
structure Section.WellPlaced (s : Section) (values : List Anchored) : Prop where
  /-- No value stands in front of a part, but in none. -/
  inside : ∀ a ∈ values, ∀ p ∈ s.parts, a.index < p.start → ∃ q ∈ s.parts, q.holds a = true
  /-- A callable belongs to a label. -/
  labelled : ∀ p ∈ s.parts, p.label = none → ∀ a ∈ p.share values, a.isCallable = false
  /-- A callable in a block is a sub. -/
  subs : ∀ p ∈ s.parts, p.block = true → ∀ a ∈ p.share values, a.role ≠ .function
  /-- A label has two callables on its condition lines at most. -/
  hooks : ∀ label, (hooksOf label values s.parts).length ≤ 2
  /-- Where the block with the values of a label asks for nothing, its other parts do not either. -/
  asserted : ∀ label, ∀ p ∈ s.parts, p.valued label values = true → p.tokens values = [] →
    ∀ q ∈ s.parts, q.isFor label = true → q.valued label values = false → q.tokens values = []

/-- Values that can be dealt out to the parts of a section, whatever these come to. -/
structure Section.Dealt (s : Section) (values : List Anchored) : Prop where
  inside : ∀ a ∈ values, ∀ p ∈ s.parts, a.index < p.start → ∃ q ∈ s.parts, q.holds a = true
  labelled : ∀ p ∈ s.parts, p.label = none → ∀ a ∈ p.share values, a.isCallable = false
  subs : ∀ p ∈ s.parts, p.block = true → ∀ a ∈ p.share values, a.role ≠ .function
  hooks : ∀ label, (hooksOf label values s.parts).length ≤ 2

theorem Section.WellPlaced.dealt {s : Section} {values : List Anchored} (h : s.WellPlaced values) :
    s.Dealt values := ⟨h.inside, h.labelled, h.subs, h.hooks⟩

/-! ## What is left of the values -/

/-- A part has its share among the values that are left when the parts in front of it are read. -/
theorem share_of_left {front : List Part} {p : Part} {taken left : List Anchored}
    (hfront : ∀ q ∈ front, q.stop ≤ p.start)
    (htaken : ∀ a ∈ taken, ∃ q ∈ front, q.holds a = true) :
    p.share (taken ++ left) = p.share left := by
  have hnone : taken.filter p.holds = [] := List.filter_eq_nil_iff.mpr fun a ha hholds => by
    obtain ⟨q, hq, hqa⟩ := htaken a ha
    have hstop := hfront q hq
    have hlt := (Part.holds_iff.mp hqa).2
    have hle := (Part.holds_iff.mp hholds).1
    omega
  rw [Part.share, List.filter_append, hnone, List.nil_append, Part.share]

variable {source : List Char} {s : Section} {values : List Anchored}

theorem two_le_valuedBlocks {label : String} {front rest : List Part} {p q : Part}
    (hparts : s.parts = front ++ p :: rest) (hp : p.valued label values = true) (hmem : q ∈ front)
    (hq : q.valued label values = true) : 2 ≤ (s.valuedBlocks label values).length := by
  have hpos : 0 < (front.filter (Part.valued label values)).length :=
    List.length_pos_of_mem (List.mem_filter.mpr ⟨hmem, hq⟩)
  rw [Section.valuedBlocks, hparts, List.filter_append, List.filter_cons_of_pos hp,
    List.length_append, List.length_cons]
  omega

theorem keys_start (labels : List String) :
    Table.keys (labels.map fun label => (label, Draft.empty)) = labels := by
  simp [Table.keys, Function.comp_def]

/-- Where values can be dealt out, none of those that are left stands in front of the next part. -/
theorem start_le_of_left {front rest : List Part} {p : Part} {drafts : Drafts} {queue : List Anchored}
    (hlaid : s.Laid source) (hsorted : Sorted values) (hdealt : s.Dealt values)
    (hparts : s.parts = front ++ p :: rest)
    (hfront : draftsOf (s.labels.map fun label => (label, Draft.empty)) front values =
      .ok (drafts, queue)) {a : Anchored} (ha : a ∈ queue) : p.start ≤ a.index := by
  by_contra hlt
  have hmem : p ∈ s.parts := hparts ▸ List.mem_append_right _ List.mem_cons_self
  obtain ⟨taken, heq, -, hleft⟩ := draftsOf_left hsorted hfront
  obtain ⟨q, hq, hholds⟩ :=
    hdealt.inside a (heq ▸ List.mem_append_right _ ha) p hmem (Nat.lt_of_not_le hlt)
  obtain ⟨hle, hstop⟩ := Part.holds_iff.mp hholds
  have hapart := hlaid.apart
  rw [hparts] at hapart hq
  have hbehind := (List.pairwise_cons.mp (List.pairwise_append.mp hapart).2.1).1
  rcases List.mem_append.mp hq with hq | hq
  · have hafter := hleft a ha q hq
    omega
  · rcases List.mem_cons.mp hq with rfl | hq
    · omega
    · have hpq := hbehind q hq
      have hpp := (hlaid.parts p hmem).le
      omega

/-- Where values can be dealt out, a part is refused only as the second block with values of its label. -/
theorem refused_of_dealt {front rest : List Part} {p : Part} {drafts : Drafts}
    {queue : List Anchored} {refusal : Refusal} (hlaid : s.Laid source) (hsorted : Sorted values)
    (hdealt : s.Dealt values) (hparts : s.parts = front ++ p :: rest)
    (hfront : draftsOf (s.labels.map fun label => (label, Draft.empty)) front values =
      .ok (drafts, queue)) (h : addToDrafts drafts p queue = .error refusal) :
    refusal = (.tooManyBlocks, p.start) ∧
      ∃ label, p.valued label values = true ∧ ∃ q ∈ front, q.valued label values = true := by
  have hmem : p ∈ s.parts := hparts ▸ List.mem_append_right _ List.mem_cons_self
  have hsub : ∀ q ∈ front, q ∈ s.parts := fun q hq => hparts ▸ List.mem_append_left _ hq
  have hapart := hlaid.apart
  rw [hparts] at hapart
  obtain ⟨hapartFront, -, hcross⟩ := List.pairwise_append.mp hapart
  obtain ⟨-, hread, -⟩ := draftsOf_spec hsorted hapartFront
    (fun q hq label hlabel => by
      rw [keys_start]
      exact hlaid.mem_labels.mpr ⟨q, hsub q hq, hlabel⟩) hfront
  obtain ⟨taken, rfl, htaken, -⟩ := draftsOf_left hsorted hfront
  have hqueue : Sorted queue := (List.pairwise_append.mp hsorted).2.1
  have hshare : p.share (taken ++ queue) = p.share queue :=
    share_of_left (fun q hq => hcross q hq p List.mem_cons_self) htaken
  unfold addToDrafts at h
  split at h
  · next index left hshift =>
    obtain ⟨a, ha, hlt⟩ := shift_error hshift
    have hle := start_le_of_left hlaid hsorted hdealt hparts hfront ha
    omega
  · next taken' left hshift =>
    obtain ⟨heq, hrange, hafter⟩ := shift_eq_ok hqueue hshift
    have htaken' : p.share (taken ++ queue) = taken' := by
      rw [hshare, heq]
      exact share_append (fun a ha => Part.holds_iff.mpr (hrange a ha)) hafter
    split at h
    · next hnone =>
      have hcallables : (applyRegexes p.start p.text taken').2 = [] := by
        rw [applyRegexes_snd, List.filter_eq_nil_iff]
        intro a ha
        simpa using hdealt.labelled p hmem hnone a (htaken' ▸ ha)
      simp [hcallables] at h
    · next label hlabel =>
      obtain ⟨d, hd, hget⟩ := hread label .empty
        (get?_start (hlaid.mem_labels.mpr ⟨p, hmem, hlabel⟩))
      have hkeeps := Draft.keeps_read Draft.keeps_empty hsorted
        (fun q hq => hlaid.parts q (hsub q hq)) hd
      have hreads := Draft.reads_read (fun q hq => hlaid.plain q (hsub q hq)) hd
      rw [hget, Option.getD_some] at h
      rcases Draft.addPart_error hkeeps.order
          (fun a ha => Part.holds_iff.mpr (hrange a ha)) (bind_pure_eq_error_iff.mp h) with
        ⟨hblock, hne, hsome, heq⟩ | ⟨hblock, a, ha, hrole⟩ | ⟨hblock, hmany⟩
      · refine ⟨heq, label, Part.valued_iff.mpr ⟨hblock, hlabel, htaken' ▸ hne⟩, ?_⟩
        obtain ⟨block, hblock⟩ := Option.ne_none_iff_exists'.mp hsome
        obtain ⟨first, q, others, rfl, hvalued, -⟩ := hreads.others hblock
        exact ⟨q, List.mem_append_right _ List.mem_cons_self, hvalued⟩
      · exact absurd hrole (hdealt.subs p hmem hblock a (htaken' ▸ ha))
      · have htwo := hdealt.hooks label
        have hhooks : d.hooks = hooksOf label (taken ++ queue) front := hkeeps.hooks
        rw [hhooks] at hmany
        rw [hparts, hooksOf, List.flatMap_append, List.flatMap_cons, if_pos ⟨hlabel, hblock⟩,
          htaken', ← hooksOf] at htwo
        simp only [List.length_append] at htwo
        omega

/-- Values that can be dealt out are, unless a label has two blocks with values. -/
theorem draftsOf_of_dealt (hlaid : s.Laid source) (hsorted : Sorted values) (hdealt : s.Dealt values)
    (hone : ∀ label, (s.valuedBlocks label values).length ≤ 1) :
    ∃ result, draftsOf (s.labels.map fun label => (label, Draft.empty)) s.parts values = .ok result := by
  cases hdrafts : draftsOf (s.labels.map fun label => (label, Draft.empty)) s.parts values with
  | ok result => exact ⟨result, rfl⟩
  | error refusal =>
    obtain ⟨front, p, rest, drafts, queue, hparts, hfront, hp⟩ := draftsOf_error hdrafts
    obtain ⟨-, label, hvalued, q, hq, hqvalued⟩ :=
      refused_of_dealt hlaid hsorted hdealt hparts hfront hp
    have hone := hone label
    have htwo := two_le_valuedBlocks hparts hvalued hq hqvalued
    omega

/-! ## The expectations of a section -/

/-- Drafts are refused for one of them. -/
theorem finishDrafts_error {drafts : Drafts} {fault : Fault}
    (h : finishDrafts drafts = .error fault) :
    ∃ row ∈ drafts, row.2.finish row.1 = .error fault := by
  induction drafts with
  | nil => cases h
  | cons row drafts ih =>
    obtain ⟨label, draft⟩ := row
    cases hfinish : draft.finish label with
    | error fault' =>
      rw [finishDrafts, hfinish] at h
      cases h
      exact ⟨_, List.mem_cons_self, hfinish⟩
    | ok e =>
      rw [finishDrafts, hfinish] at h
      obtain ⟨row, hrow, herror⟩ := ih (bind_pure_eq_error_iff.mp h)
      exact ⟨row, List.mem_cons_of_mem _ hrow, herror⟩

/-- What a section whose values stand where they may stand comes to. -/
theorem compileExpectations_of_wellPlaced (file : Option String) (hlaid : s.Laid source)
    (hsorted : Sorted values) (hplaced : s.WellPlaced values) :
    (∃ result, compileExpectations source file values s = .ok result) ∨
      ∃ front p rest label, s.parts = front ++ p :: rest ∧ p.valued label values = true ∧
        (∃ q ∈ front, q.valued label values = true) ∧
        compileExpectations source file values s =
          .error (Refusal.fault source file (.tooManyBlocks, p.start)) := by
  cases hdrafts : draftsOf (s.labels.map fun label => (label, Draft.empty)) s.parts values with
  | error refusal =>
    obtain ⟨front, p, rest, drafts, queue, hparts, hfront, hp⟩ := draftsOf_error hdrafts
    obtain ⟨rfl, label, hvalued, hbefore⟩ :=
      refused_of_dealt hlaid hsorted hplaced.dealt hparts hfront hp
    refine .inr ⟨front, p, rest, label, hparts, hvalued, hbefore, ?_⟩
    simp only [compileExpectations, hdrafts, locate]
    rfl
  | ok result =>
    obtain ⟨drafts, left⟩ := result
    obtain ⟨hkeys, hread, -⟩ := draftsOf_start hlaid hsorted hdrafts
    left
    cases hfinish : finishDrafts drafts with
    | ok expects =>
      refine ⟨(expects, left), ?_⟩
      simp only [compileExpectations, hdrafts, locate]
      exact congrArg (· >>= fun expects => .ok (expects, left)) hfinish
    | error fault =>
      obtain ⟨row, hrow, herror⟩ := finishDrafts_error hfinish
      have hnodup : drafts.keys.Nodup := by
        rw [hkeys, hlaid.labels]
        exact nodup_eraseDups _
      obtain ⟨d, hd, hget⟩ := hread row.1 (hkeys ▸ List.mem_map_of_mem hrow)
      obtain rfl := Option.some.inj ((Table.get?_of_mem hnodup hrow).symm.trans hget)
      obtain ⟨p, hp, hvalued, hnil, q, hq, hfor, hplain, hne⟩ :=
        ((Draft.reads_read hlaid.plain hd).finish_error_iff hlaid.parts hsorted).mp ⟨fault, herror⟩
      exact absurd (hplaced.asserted row.1 p hp hvalued hnil q hq hfor hplain) hne

section Drafts

variable {drafts : Drafts} {left : List Anchored} (hlaid : s.Laid source) (hsorted : Sorted values)
  (h : draftsOf (s.labels.map fun label => (label, Draft.empty)) s.parts values = .ok (drafts, left))
include hlaid hsorted h

/-- The draft of a label that has a block with values. -/
theorem draft_of_valued {label : String} {p : Part} (hp : p ∈ s.parts)
    (hvalued : p.valued label values = true) :
    ∃ d steps index, d.Reads label values s.parts ∧ d.steps = some (steps, index) ∧
      drafts.get? label = some d := by
  obtain ⟨-, hread, -⟩ := draftsOf_start hlaid hsorted h
  obtain ⟨d, hd, hget⟩ :=
    hread label (hlaid.mem_labels.mpr ⟨p, hp, (Part.valued_iff.mp hvalued).2.1⟩)
  have hreads := Draft.reads_read hlaid.plain hd
  cases hsteps : d.steps with
  | none =>
    have hnone := (hreads.noBlock hsteps).1
    exact absurd hvalued (List.filter_eq_nil_iff.mp hnone p hp)
  | some block => exact ⟨d, block.1, block.2, hreads, hsteps, hget⟩

/-- Only one block of a label has values where the drafts are made. -/
theorem valuedBlocks_of_drafts (label : String) : (s.valuedBlocks label values).length ≤ 1 := by
  unfold Section.valuedBlocks
  by_cases hnil : s.parts.filter (Part.valued label values) = []
  · simp [hnil]
  · obtain ⟨p, hp⟩ := List.exists_mem_of_ne_nil _ hnil
    obtain ⟨hp, hvalued⟩ := List.mem_filter.mp hp
    obtain ⟨d, steps, index, hreads, hsome, -⟩ := draft_of_valued hlaid hsorted h hp hvalued
    obtain ⟨front, q, rest, -, hone, -⟩ := hreads.block steps index hsome
    rw [hone]
    exact Nat.le_refl _

/-- The values of a block for which a draft is made are subs and patterns. -/
theorem subs_of_drafts {p : Part} (hp : p ∈ s.parts) (hblock : p.block = true) {a : Anchored}
    (ha : a ∈ p.share values) : a.role ≠ .function := by
  intro hrole
  obtain ⟨label, hpl⟩ := Option.ne_none_iff_exists'.mp fun hnone : p.label = none => by
    rw [hlaid.plain p hp hnone] at hblock
    cases hblock
  have hvalued : p.valued label values = true :=
    Part.valued_iff.mpr ⟨hblock, hpl, List.ne_nil_of_mem ha⟩
  obtain ⟨d, steps, index, hreads, hsome, -⟩ := draft_of_valued hlaid hsorted h hp hvalued
  obtain ⟨front, q, rest, hparts, -, hothers, hsteps, -⟩ := hreads.others hsome
  have hpq : p = q := by
    rw [hparts] at hp
    by_contra hne
    have hother := hothers p (by simpa [hne] using hp)
    rw [hvalued] at hother
    cases hother
  obtain ⟨refusal, herror⟩ := (blockSteps_error_iff fun a (ha : a ∈ q.share values) =>
    (List.mem_filter.mp ha).2).mpr ⟨a, hpq ▸ ha, hrole⟩
  rw [hsteps] at herror
  cases herror

/-- A draft has room for two callables on the condition lines of its label. -/
theorem hooks_of_drafts (label : String) : (hooksOf label values s.parts).length ≤ 2 := by
  obtain ⟨-, hread, -⟩ := draftsOf_start hlaid hsorted h
  by_cases hsome : ∃ p ∈ s.parts, p.label = some label
  · obtain ⟨p, hp, hpl⟩ := hsome
    obtain ⟨d, hd, -⟩ := hread label (hlaid.mem_labels.mpr ⟨p, hp, hpl⟩)
    have hhooks := (Draft.keeps_read Draft.keeps_empty hsorted hlaid.parts hd).hooks
    rw [List.nil_append] at hhooks
    rw [← hhooks, List.length_append]
    cases d.before <;> cases d.after <;> simp
  · have hnil : hooksOf label values s.parts = [] := List.flatMap_eq_nil_iff.mpr fun p hp =>
      if_neg fun hboth => hsome ⟨p, hp, hboth.1⟩
    simp [hnil]

/-- Values for which drafts are made can be dealt out. -/
theorem dealt_of_drafts : s.Dealt values := by
  obtain ⟨-, -, hvalue⟩ := draftsOf_start hlaid hsorted h
  obtain ⟨taken, heq, htaken, hleft⟩ := draftsOf_left hsorted h
  refine ⟨fun a ha p hp hlt => ?_, fun p hp hnone a ha => ?_,
    fun p hp hblock a ha => subs_of_drafts hlaid hsorted h hp hblock ha, hooks_of_drafts hlaid hsorted h⟩
  · rw [heq] at ha
    rcases List.mem_append.mp ha with ha | ha
    · exact htaken a ha
    · have hstop := hleft a ha p hp
      have hle := (hlaid.parts p hp).le
      omega
  · obtain ⟨ha, hholds⟩ := List.mem_filter.mp ha
    rcases hvalue a ha with ha | ⟨q, hq, hqholds, hcallable⟩
    · have hstop := hleft a ha p hp
      have hlt := (Part.holds_iff.mp hholds).2
      omega
    · obtain rfl := hlaid.eq_of_holds hp hq hholds hqholds
      exact Bool.not_eq_true _ ▸ fun hcall => hcallable hcall hnone

end Drafts

/-- Where the expectations of a section are made, its values stand where they may stand, for each label
in one block at most. -/
theorem wellPlaced_of_ok {file : Option String} {result : Table Expectation × List Anchored}
    (hlaid : s.Laid source) (hsorted : Sorted values)
    (h : compileExpectations source file values s = .ok result) :
    s.WellPlaced values ∧ ∀ label, (s.valuedBlocks label values).length ≤ 1 := by
  obtain ⟨⟨drafts, left⟩, hdrafts, h⟩ := ok_of_bind h
  obtain ⟨expects, hfinish, -⟩ := ok_of_bind h
  have hdrafts := ok_of_locate hdrafts
  have hdealt := dealt_of_drafts hlaid hsorted hdrafts
  refine ⟨⟨hdealt.inside, hdealt.labelled, hdealt.subs, hdealt.hooks,
    fun label p hp hvalued hnil q hq hfor hplain => ?_⟩, valuedBlocks_of_drafts hlaid hsorted hdrafts⟩
  -- a draft that is finished has no lines that its block ignores
  obtain ⟨d, steps, index, hreads, -, hget⟩ := draft_of_valued hlaid hsorted hdrafts hp hvalued
  by_contra hne
  obtain ⟨fault, herror⟩ := (hreads.finish_error_iff hlaid.parts hsorted).mpr
    ⟨p, hp, hvalued, hnil, q, hq, hfor, hplain, hne⟩
  obtain ⟨e, he, -⟩ := (finishDrafts_spec hfinish).2 label d hget
  rw [herror] at he
  cases he

/-- The expectations of a section are made exactly if its values stand where they may stand, for each
label in one block at most. -/
theorem compileExpectations_ok_iff (file : Option String) (hlaid : s.Laid source)
    (hsorted : Sorted values) :
    (∃ result, compileExpectations source file values s = .ok result) ↔
      s.WellPlaced values ∧ ∀ label, (s.valuedBlocks label values).length ≤ 1 := by
  constructor
  · rintro ⟨result, h⟩
    exact wellPlaced_of_ok hlaid hsorted h
  · rintro ⟨hplaced, hone⟩
    refine (compileExpectations_of_wellPlaced file hlaid hsorted hplaced).resolve_right ?_
    rintro ⟨front, p, rest, label, hparts, hvalued, ⟨q, hq, hqvalued⟩, -⟩
    have hone := hone label
    have htwo := two_le_valuedBlocks hparts hvalued hq hqvalued
    omega

/-- Where the values of the expectations stand where they may stand, the expectations are refused exactly
if a label has two blocks with values, be they callables or patterns, and at the start of such a block.
Otherwise they are made, and a label without callables has one step of HTML, made of all its lines and
blocks and those without a label, in the order of the source. -/
theorem tooManyBlocks_iff {spec : Value} {source : Source} {full : Bool} {outline : Outline}
    {s : Section} (hsource : Source.of spec = .ok source)
    (houtline : Outline.of source.text full = .ok outline) (hs : outline.expectations = some s)
    (hplaced : s.WellPlaced source.values) (file : Option String) :
    ((∃ p ∈ s.parts, compileExpectations source.text file source.values s =
        .error (.spec .tooManyBlocks (some (placeAt source.text file p.start)))) ↔
      ∃ label, 2 ≤ (s.valuedBlocks label source.values).length) ∧
    ((∀ label, (s.valuedBlocks label source.values).length ≤ 1) →
      ∃ expects left,
        compileExpectations source.text file source.values s = .ok (expects, left) ∧
        ∀ label ∈ s.labels, hooksOf label source.values s.parts = [] →
          subsOf label source.values s.parts = [] →
          ∃ e, expects.get? label = some e ∧ e.before = none ∧ e.after = none ∧
            e.steps = [.html (Expected.ofLines
              ((s.parts.filter (Part.isFor label)).map (Part.tokens source.values)))]) := by
  have hlaid := laid_outline houtline hs
  have hsorted := sorted_of hsource
  have hok := compileExpectations_ok_iff file hlaid hsorted
  refine ⟨⟨?_, fun ⟨label, htwo⟩ => ?_⟩, fun hone => ?_⟩
  · rintro ⟨p, -, herror⟩
    by_contra hnone
    obtain ⟨result, hresult⟩ := hok.mpr ⟨hplaced, fun label => by
      by_contra hlt
      exact hnone ⟨label, by omega⟩⟩
    rw [herror] at hresult
    cases hresult
  · rcases compileExpectations_of_wellPlaced file hlaid hsorted hplaced with hresult |
      ⟨front, p, rest, label', hparts, -, -, herror⟩
    · have hle := (hok.mp hresult).2 label
      omega
    · exact ⟨p, hparts ▸ List.mem_append_right _ List.mem_cons_self, herror⟩
  · obtain ⟨⟨expects, left⟩, hresult⟩ := hok.mpr ⟨hplaced, hone⟩
    refine ⟨expects, left, hresult, fun label hlabel hhooks hsubs => ?_⟩
    obtain ⟨⟨drafts, left'⟩, hdrafts, h⟩ := ok_of_bind hresult
    obtain ⟨expects', hfinish, heq⟩ := ok_of_bind h
    obtain ⟨rfl, rfl⟩ := Prod.mk.inj (Except.ok.inj heq)
    obtain ⟨-, hread, -⟩ := draftsOf_start hlaid hsorted (ok_of_locate hdrafts)
    obtain ⟨d, hd, hget⟩ := hread label hlabel
    obtain ⟨e, he, hexpects⟩ := (finishDrafts_spec hfinish).2 label d hget
    have hkeeps := Draft.keeps_read Draft.keeps_empty hsorted hlaid.parts hd
    obtain ⟨hbefore, hafter, hsteps⟩ :=
      (Draft.reads_read hlaid.plain hd).finish_of_plain hlaid.parts hsubs he
    have hnone : d.before.toList ++ d.after.toList = [] := by
      rw [hkeeps.hooks, hhooks, List.append_nil]
    obtain ⟨hb, ha⟩ := List.append_eq_nil_iff.mp hnone
    exact ⟨e, hexpects, hbefore.trans (Option.toList_eq_nil_iff.mp hb),
      hafter.trans (Option.toList_eq_nil_iff.mp ha), hsteps⟩

/-- Two blocks of a label with a pattern each, and no callable. -/
def patternBlocks : List Value :=
  [.text "****\n::1::\n<p>", .regex ⟨"", ⟨false, false, false⟩, .empty⟩,
    .text "</p>\n::\n::1::\n<b>", .regex ⟨"", ⟨false, false, false⟩, .empty⟩, .text "</b>\n::\n"]

/-- The blocks of these expectations. -/
def patternBlocksSection : Section :=
  ⟨[⟨some "1", "<p></p>\n".toList, 11, 19, true, none⟩,
    ⟨some "1", "<b></b>\n".toList, 28, 36, true, none⟩], ["1"]⟩

theorem outline_patternBlocks : ∃ outline,
    Outline.of (Source.ofParts patternBlocks).text false = .ok outline ∧
      outline.expectations = some patternBlocksSection := by
  have hcheck : ((Outline.of (Source.ofParts patternBlocks).text false).toOption.bind
      Outline.expectations) = some patternBlocksSection := by
    decide +kernel
  cases houtline : Outline.of (Source.ofParts patternBlocks).text false with
  | error refusal =>
    rw [houtline] at hcheck
    cases hcheck
  | ok outline =>
    rw [houtline] at hcheck
    exact ⟨outline, rfl, hcheck⟩

theorem values_patternBlocks : (Source.ofParts patternBlocks).values =
    [⟨14, .regex ⟨"", ⟨false, false, false⟩, .empty⟩⟩,
      ⟨31, .regex ⟨"", ⟨false, false, false⟩, .empty⟩⟩] := by
  simp only [Source.ofParts, patternBlocks, splitParts, interpolate, interpolateAt, isAnchoring]
  rfl

theorem wellPlaced_patternBlocks :
    patternBlocksSection.WellPlaced (Source.ofParts patternBlocks).values := by
  rw [values_patternBlocks]
  have htokens : ∀ p ∈ patternBlocksSection.parts, (p.tokens
      [⟨14, .regex ⟨"", ⟨false, false, false⟩, .empty⟩⟩,
        ⟨31, .regex ⟨"", ⟨false, false, false⟩, .empty⟩⟩]).isEmpty = false := by
    decide +kernel
  refine ⟨by decide +kernel, by decide +kernel, by decide +kernel, fun label => ?_,
    fun label p hp _ hnil => ?_⟩
  · simp [hooksOf, patternBlocksSection]
  · have hsome := htokens p hp
    rw [hnil] at hsome
    cases hsome

theorem two_valued_patternBlocks : 2 ≤ (patternBlocksSection.valuedBlocks "1"
    (Source.ofParts patternBlocks).values).length := by
  decide +kernel

theorem tooManyBlocks_iff_patterns :
    patternBlocksSection.WellPlaced (Source.ofParts patternBlocks).values ∧
    ∃ p ∈ patternBlocksSection.parts,
      compileExpectations (Source.ofParts patternBlocks).text none
        (Source.ofParts patternBlocks).values patternBlocksSection =
      .error (.spec .tooManyBlocks
        (some (placeAt (Source.ofParts patternBlocks).text none p.start))) := by
  obtain ⟨outline, houtline, hs⟩ := outline_patternBlocks
  have hsource : Source.of (.list patternBlocks) = .ok (Source.ofParts patternBlocks) := rfl
  exact ⟨wellPlaced_patternBlocks,
    (tooManyBlocks_iff hsource houtline hs wellPlaced_patternBlocks none).1.mpr
      ⟨"1", two_valued_patternBlocks⟩⟩

/-- Expectations without any callable are refused for steps in more than one block. -/
theorem tooManyBlocks_of_patterns :
    (∀ a ∈ (Source.ofParts patternBlocks).values, a.isCallable = false) ∧
    patternBlocksSection.WellPlaced (Source.ofParts patternBlocks).values ∧
    ∃ outline p, Outline.of (Source.ofParts patternBlocks).text false = .ok outline ∧
      outline.expectations = some patternBlocksSection ∧ p ∈ patternBlocksSection.parts ∧
      compileExpectations (Source.ofParts patternBlocks).text none
        (Source.ofParts patternBlocks).values patternBlocksSection =
      .error (.spec .tooManyBlocks
        (some (placeAt (Source.ofParts patternBlocks).text none p.start))) := by
  obtain ⟨outline, houtline, hs⟩ := outline_patternBlocks
  have hlaid := laid_outline houtline hs
  have hsorted : Sorted (Source.ofParts patternBlocks).values := sorted_ofParts patternBlocks
  refine ⟨by decide +kernel, wellPlaced_patternBlocks, ?_⟩
  rcases compileExpectations_of_wellPlaced none hlaid hsorted wellPlaced_patternBlocks with
    hok | ⟨front, p, rest, label, hparts, -, -, herror⟩
  · have hone := (wellPlaced_of_ok hlaid hsorted hok.choose_spec).2 "1"
    have htwo := two_valued_patternBlocks
    omega
  · exact ⟨outline, p, houtline, hs, hparts ▸ List.mem_append_right _ List.mem_cons_self, herror⟩

end HotSpec.Spec
