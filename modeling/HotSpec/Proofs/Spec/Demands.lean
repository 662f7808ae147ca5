import HotSpec.Proofs.Spec.Trailing
import HotSpec.Proofs.Spec.WellPlaced

/-!
# What is asked of a label

Each part of the expectations asks something of a label: it names it, it has a hook, it puts tokens
around its block, or it is its block.  Demands are put together in the order of the parts, so a label is
asked what its parts ask of it, one after the other, and its expectation depends on nothing else.

Main definitions:

- `Demand`, `Demand.append`: what is asked of a label, and demands that follow each other.
- `Part.demand`, `demandOf`: what a part, and what some parts, ask of a label.
- `Demand.finish`: the expectation of a label.

Main results:

- Theorem `Draft.demand_readPart`: a part adds its demand to that of a draft.
- Theorem `compileExpectations_eq`: each label expects what its parts ask of it.
-/

namespace HotSpec.Spec

open Html (Token Expected)

/-! ## Demands -/

/-- What is asked of a label: a title, hooks, tokens, and the steps of a block with the tokens behind it.
Tokens stand in front of the block, if there is one. -/
structure Demand where
  title : Option String
  hooks : List Value
  tokens : List Token
  block : Option (List BlockStep × List Token)

namespace Demand

/-- Nothing is asked. -/
def nothing : Demand := ⟨none, [], [], none⟩

/-- The tokens behind the block of a demand. -/
def behind (d : Demand) : List Token := (d.block.map Prod.snd).getD []

/-- Two demands, one after the other.  The last title counts, and the first block. -/
def append (d e : Demand) : Demand where
  title := e.title.or d.title
  hooks := d.hooks ++ e.hooks
  tokens := if d.block.isSome then d.tokens else d.tokens ++ e.tokens
  block :=
    match d.block with
    | none => e.block
    | some (steps, behind) => some (steps, behind ++ (e.tokens ++ e.behind))

@[simp] theorem nothing_append (d : Demand) : nothing.append d = d := by
  simp [append, nothing]

@[simp] theorem append_nothing (d : Demand) : d.append nothing = d := by
  obtain ⟨title, hooks, tokens, block⟩ := d
  cases block with
  | none => simp [append, nothing]
  | some block => simp [append, nothing, behind]

theorem append_assoc (d e f : Demand) : (d.append e).append f = d.append (e.append f) := by
  obtain ⟨title, hooks, tokens, block⟩ := d
  obtain ⟨title', hooks', tokens', block'⟩ := e
  cases block with
  | none => cases block' <;> simp [append, Option.or_assoc]
  | some block => cases block' <;> simp [append, behind, Option.or_assoc]

/-- The expectation of a label that is asked for something: its tokens stand around each step of HTML. -/
def finish (label : String) (d : Demand) : Except Fault Expectation :=
  match d.block with
  | none => .ok ⟨d.title, d.hooks[0]?, d.hooks[1]?, [.html (Expected.ofLines [d.tokens])]⟩
  | some (steps, behind) =>
    if !(d.tokens ++ behind).isEmpty && !steps.any BlockStep.isHtml then
      .error (.spec (.ignoredHtml label) none)
    else .ok ⟨d.title, d.hooks[0]?, d.hooks[1]?, steps.map (BlockStep.finish [d.tokens] [behind])⟩

end Demand

/-! ## Demands of parts -/

/-- What a part asks of a label. -/
def Part.demand (label : String) (values : List Anchored) (p : Part) : Demand :=
  if p.isFor label then
    if p.valued label values then
      ⟨p.title, [], [], some ((blockSteps p (p.share values)).toOption.getD [], [])⟩
    else
      ⟨p.label.bind fun _ => p.title,
        if p.label = some label ∧ p.block = false then callablesOf (p.share values) else [],
        p.tokens values, none⟩
  else .nothing

/-- What some parts ask of a label. -/
def demandOf (label : String) (values : List Anchored) : List Part → Demand
  | [] => .nothing
  | p :: parts => (p.demand label values).append (demandOf label values parts)

theorem demandOf_append (label : String) (values : List Anchored) (first rest : List Part) :
    demandOf label values (first ++ rest) =
      (demandOf label values first).append (demandOf label values rest) := by
  induction first with
  | nil => exact (Demand.nothing_append _).symm
  | cons p first ih => rw [List.cons_append, demandOf, demandOf, ih, Demand.append_assoc]

theorem demandOf_single (label : String) (values : List Anchored) (p : Part) :
    demandOf label values [p] = p.demand label values := by
  rw [demandOf, demandOf, Demand.append_nothing]

/-- Parts of other labels ask for nothing. -/
theorem Part.demand_of_other {label : String} {values : List Anchored} {p : Part}
    (h : p.isFor label = false) : p.demand label values = .nothing := by
  simp [demand, h]

theorem hooks_demandOf (label : String) (values : List Anchored) (parts : List Part) :
    (demandOf label values parts).hooks = hooksOf label values parts := by
  induction parts with
  | nil => rfl
  | cons p parts ih =>
    rw [demandOf, hooksOf, List.flatMap_cons, ← hooksOf, ← ih]
    refine congrArg (· ++ _) ?_
    unfold Part.demand
    by_cases hlabel : p.label = some label
    · have hfor : p.isFor label = true := by simp [Part.isFor, hlabel]
      rw [if_pos hfor]
      by_cases hvalued : p.valued label values = true
      · have hblock := (Part.valued_iff.mp hvalued).1
        simp [hvalued, hblock]
      · rw [if_neg hvalued]
    · have hvalued : p.valued label values = false := by
        rw [← Bool.not_eq_true, Part.valued_iff]
        exact fun h => hlabel h.2.1
      simp only [hlabel, hvalued, false_and, if_false, Bool.false_eq_true]
      split <;> rfl

/-! ## Demands of drafts -/

namespace Draft

variable {d d' : Draft} {label : String} {values : List Anchored} {parts : List Part} {p : Part}

/-- What a draft asks for. -/
def demand (d : Draft) : Demand where
  title := d.title
  hooks := d.hooks
  tokens :=
    match d.steps with
    | none => d.lines.flatten
    | some (_, index) => (d.lines.take index).flatten
  block := d.steps.map fun block => (block.1, (d.lines.drop block.2).flatten)

/-- A draft whose first hook is in front, and whose block stands among its lines. -/
structure Ordered (d : Draft) : Prop where
  hooks : d.before = none → d.after = none
  block : d.InOrder

theorem ordered_empty : empty.Ordered := ⟨fun _ => rfl, inOrder_empty⟩

/-- More tokens are asked for behind all others. -/
theorem demand_lines (hd : d.InOrder) (hsteps : d'.steps = d.steps) {more : List (List Token)}
    (hlines : d'.lines = d.lines ++ more) {title : Option String} {hooks : List Value}
    (htitle : d'.title = title.or d.title) (hhooks : d'.hooks = d.hooks ++ hooks) :
    d'.demand = d.demand.append ⟨title, hooks, more.flatten, none⟩ := by
  cases hblock : d.steps with
  | none => simp [demand, Demand.append, hsteps, hblock, hlines, htitle, hhooks]
  | some block =>
    obtain ⟨steps, index⟩ := block
    have hle := hd steps index hblock
    simp [demand, Demand.append, Demand.behind, hsteps, hblock, hlines, htitle, hhooks,
      List.take_append_of_le_length hle, List.drop_append_of_le_length hle]

/-- The callables of a condition line are its hooks, and leave the rest as it is. -/
theorem addHooks_hooks {hooks : List Anchored} (horder : d.before = none → d.after = none)
    (h : d.addHooks hooks = .ok d') : d'.hooks = d.hooks ++ hooks.map Anchored.value ∧
      d'.title = d.title ∧ (d'.before = none → d'.after = none) := by
  induction hooks generalizing d with
  | nil =>
    cases h
    exact ⟨(List.append_nil _).symm, rfl, horder⟩
  | cons a hooks ih =>
    rw [addHooks] at h
    rcases addHook?_eq horder a.value with ⟨-, hnone⟩ | ⟨d₁, hsome, hhooks, horder₁⟩
    · simp only [hnone] at h
      cases h
    · simp only [hsome] at h
      obtain ⟨hall, htitle, hlast⟩ := ih horder₁ h
      have hsame : d₁.title = d.title := by
        unfold addHook? at hsome
        split at hsome <;> cases hsome <;> rfl
      refine ⟨?_, htitle.trans hsame, hlast⟩
      rw [hall, hhooks, List.append_assoc]
      rfl

/-- The title and the hooks of a draft with one more part. -/
theorem addPart_hooks {share : List Anchored} (horder : d.before = none → d.after = none)
    (h : d.addPart p share = .ok d') : d'.title = p.title.or d.title ∧
      d'.hooks = d.hooks ++ (if p.block then [] else callablesOf share) ∧
      (d'.before = none → d'.after = none) := by
  obtain ⟨d₀, hd₀, htitle₀, hhooks₀, horder₀⟩ : ∃ d₀ : Draft,
      (if p.title.isSome then { d with title := p.title } else d) = d₀ ∧
        d₀.title = p.title.or d.title ∧ d₀.hooks = d.hooks ∧ (d₀.before = none → d₀.after = none) := by
    refine ⟨_, rfl, ?_⟩
    cases htitle : p.title with
    | none => exact ⟨rfl, rfl, horder⟩
    | some title => exact ⟨rfl, rfl, horder⟩
  unfold addPart at h
  simp only [hd₀] at h
  by_cases hempty : share = []
  · subst hempty
    cases h
    exact ⟨htitle₀, hhooks₀.trans (by simp [callablesOf]), horder₀⟩
  · rw [if_neg (by simpa using hempty)] at h
    by_cases hblock : p.block = true
    · rw [if_pos hblock] at h ⊢
      split at h
      · cases h
      · obtain ⟨steps, -, heq⟩ := ok_of_bind h
        cases heq
        exact ⟨htitle₀, hhooks₀.trans (List.append_nil _).symm, horder₀⟩
    · rw [if_neg hblock] at h ⊢
      rw [applyRegexes_snd] at h
      have hboth : ∃ d₁ : Draft, d₁.title = d₀.title ∧ d₁.hooks = d₀.hooks ∧
          (d₁.before = none → d₁.after = none) ∧
          d₁.addHooks (share.filter Anchored.isCallable) = .ok d' := by
        refine ⟨_, ?_, ?_, ?_, h⟩
        · split <;> rfl
        · split <;> rfl
        · split <;> exact horder₀
      obtain ⟨d₁, htitle₁, hhooks₁, horder₁, hadd⟩ := hboth
      obtain ⟨hhooks, htitle, horder'⟩ := addHooks_hooks horder₁ hadd
      exact ⟨htitle.trans (htitle₁.trans htitle₀), hhooks.trans (by rw [hhooks₁, hhooks₀]; rfl),
        horder'⟩

/-- A part adds its demand to that of a draft. -/
theorem demand_readPart (hd : d.Ordered) (hplain : p.label = none → p.block = false)
    (h : d.readPart label values p = .ok d') :
    d'.demand = d.demand.append (p.demand label values) ∧ d'.Ordered := by
  unfold readPart at h
  split at h
  · next hnone =>
    cases h
    have hfor : p.isFor label = true := by simp [Part.isFor, hnone]
    have hvalued : p.valued label values = false := by simp [Part.valued, hplain hnone]
    have hdemand : p.demand label values =
        ⟨none, [], [(applyRegexes p.start p.text (p.share values)).1].flatten, none⟩ := by
      simp [Part.demand, hfor, hvalued, hnone, Part.tokens]
    generalize (applyRegexes p.start p.text (p.share values)).1 = line at hdemand ⊢
    have hsteps : (d.addLine line).steps = d.steps := rfl
    have hlines : (d.addLine line).lines = d.lines ++ [line] := rfl
    have hhooks : (d.addLine line).hooks = d.hooks ++ [] := (List.append_nil _).symm
    rw [hdemand]
    exact ⟨demand_lines hd.block hsteps hlines Option.none_or.symm hhooks, hd.hooks,
      hd.block.addLine _⟩
  · next l hl =>
    split at h
    · next hsame =>
      subst hsame
      have hfor : p.isFor l = true := by simp [Part.isFor, hl]
      obtain ⟨htitle, hhooks, horder⟩ := addPart_hooks hd.hooks h
      have hblock := hd.block.addPart h
      refine ⟨?_, horder, hblock⟩
      rcases addPart_eq_ok h with ⟨hnot, hsteps, more, hlines, hmore⟩ |
        ⟨hisBlock, hne, hnone, hlines, steps, hsteps, hsome⟩
      · have hvalued : p.valued l values = false := by
          rw [← Bool.not_eq_true, Part.valued_iff]
          exact fun hall => hnot ⟨hall.1, hall.2.2⟩
        have htokens : more.flatten = p.tokens values := by
          rw [hmore]
          simp [Part.tokens, hl]
        have hdemand : p.demand l values = ⟨p.title,
            if p.block then [] else callablesOf (p.share values), more.flatten, none⟩ := by
          cases hisBlock : p.block <;> simp [Part.demand, hfor, hvalued, hl, htokens, hisBlock]
        rw [hdemand]
        exact demand_lines hd.block hsteps hlines htitle hhooks
      · have hvalued : p.valued l values = true := Part.valued_iff.mpr ⟨hisBlock, hl, hne⟩
        have hshare : (blockSteps p (p.share values)).toOption = some steps := by
          rw [hsteps]
          rfl
        simp [demand, Part.demand, hfor, hvalued, Demand.append, htitle, hhooks, hisBlock, hsome,
          hnone, hlines, hshare]
    · next hother =>
      cases h
      have hfor : p.isFor label = false := by simp [Part.isFor, hl, hother]
      rw [Part.demand_of_other hfor, Demand.append_nothing]
      exact ⟨rfl, hd⟩

/-- A draft asks for what it asked for before, and for what its parts ask for. -/
theorem demand_read (hd : d.Ordered) (hplain : ∀ p ∈ parts, p.label = none → p.block = false)
    (h : d.read label values parts = .ok d') :
    d'.demand = d.demand.append (demandOf label values parts) ∧ d'.Ordered := by
  induction parts generalizing d with
  | nil =>
    cases h
    rw [demandOf, Demand.append_nothing]
    exact ⟨rfl, hd⟩
  | cons p parts ih =>
    obtain ⟨d₁, hpart, hrest⟩ := ok_of_bind h
    obtain ⟨hdemand, hordered⟩ := demand_readPart hd (hplain p List.mem_cons_self) hpart
    obtain ⟨hall, hordered'⟩ := ih hordered (fun q hq => hplain q (List.mem_cons_of_mem _ hq)) hrest
    refine ⟨?_, hordered'⟩
    rw [hall, hdemand, demandOf, Demand.append_assoc]

/-- The expectation of a draft depends on what it asks for only. -/
theorem finish_eq (hd : d.Ordered) (label : String) : d.finish label = d.demand.finish label := by
  have hfirst : d.hooks[0]? = d.before := by
    cases hbefore : d.before with
    | none => simp [hooks, hbefore, hd.hooks hbefore]
    | some hook => simp [hooks, hbefore]
  have hsecond : d.hooks[1]? = d.after := by
    cases hbefore : d.before with
    | none => simp [hooks, hbefore, hd.hooks hbefore]
    | some hook => cases hafter : d.after <;> simp [hooks, hbefore, hafter]
  unfold Demand.finish
  simp only [demand, hfirst, hsecond]
  cases hsteps : d.steps with
  | none =>
    rw [finish_of_none hsteps]
    simp only [Option.map_none]
    have hflat : d.lines.flatten = [d.lines.flatten].flatten := by simp
    rw [ofLines_congr hflat]
  | some block =>
    obtain ⟨steps, index⟩ := block
    have hhtml : d.hasHtml = !((d.lines.take index).flatten ++ (d.lines.drop index).flatten).isEmpty := by
      rw [← List.flatten_append, List.take_append_drop, hasHtml, Bool.eq_iff_iff]
      simp
    have hstep : BlockStep.finish (d.lines.take index) (d.lines.drop index) =
        BlockStep.finish [(d.lines.take index).flatten] [(d.lines.drop index).flatten] := by
      funext step
      cases step with
      | html tokens =>
        rw [BlockStep.finish, BlockStep.finish, ofLines_congr]
        simp
      | sub v => rfl
    rw [finish_of_some hsteps, hhtml, hstep]
    rfl

end Draft

/-! ## Expectations -/

/-- The expectations of some labels, in order, where each label is made an expectation of. -/
def expectAll (expect : String → Except Fault Expectation) : List String →
    Except Fault (Table Expectation)
  | [] => .ok []
  | label :: labels => do
    let e ← expect label
    let rest ← expectAll expect labels
    return (label, e) :: rest

section Labels

variable {expect expect' : String → Except Fault Expectation} {labels : List String}
  {expects : Table Expectation} {label : String}

theorem expectAll_spec (h : expectAll expect labels = .ok expects) : expects.keys = labels ∧
    ∀ label ∈ labels, ∃ e, expect label = .ok e ∧ expects.get? label = some e := by
  induction labels generalizing expects with
  | nil =>
    cases h
    exact ⟨rfl, fun _ hmem => by cases hmem⟩
  | cons first labels ih =>
    obtain ⟨e, he, h⟩ := ok_of_bind h
    obtain ⟨rest, hrest, heq⟩ := ok_of_bind h
    cases heq
    obtain ⟨hkeys, hget⟩ := ih hrest
    refine ⟨congrArg (first :: ·) hkeys, fun label hlabel => ?_⟩
    by_cases hsame : first = label
    · subst hsame
      exact ⟨e, he, by rw [Table.get?_cons, if_pos rfl]⟩
    · obtain ⟨e', he', hget'⟩ := hget label
        ((List.mem_cons.mp hlabel).resolve_left fun heq => hsame heq.symm)
      exact ⟨e', he', by rw [Table.get?_cons, if_neg hsame, hget']⟩

theorem expectAll_congr (h : ∀ label ∈ labels, expect' label = expect label) :
    expectAll expect' labels = expectAll expect labels := by
  induction labels with
  | nil => rfl
  | cons first labels ih =>
    rw [expectAll, expectAll, h first List.mem_cons_self,
      ih fun label hlabel => h label (List.mem_cons_of_mem _ hlabel)]

/-- A label that cannot be expected is the fault of all of them. -/
theorem expectAll_error {fault : Fault} (h : expectAll expect labels = .ok expects)
    (hmem : label ∈ labels) (hlabel : expect' label = .error fault)
    (hothers : ∀ other ∈ labels, other ≠ label → expect' other = expect other) :
    expectAll expect' labels = .error fault := by
  induction labels generalizing expects with
  | nil => cases hmem
  | cons first labels ih =>
    obtain ⟨e, he, h⟩ := ok_of_bind h
    obtain ⟨rest, hrest, -⟩ := ok_of_bind h
    by_cases hsame : first = label
    · rw [expectAll, hsame, hlabel]
      rfl
    · have hmem := (List.mem_cons.mp hmem).resolve_left fun heq => hsame heq.symm
      rw [expectAll, hothers first List.mem_cons_self hsame, he,
        ih hrest hmem fun other hother => hothers other (List.mem_cons_of_mem _ hother)]
      rfl

/-- Where one label is expected to be something else, the others stay as they are. -/
theorem expectAll_put {e : Expectation} (h : expectAll expect labels = .ok expects)
    (hnodup : labels.Nodup) (hmem : label ∈ labels) (hlabel : expect' label = .ok e)
    (hothers : ∀ other ∈ labels, other ≠ label → expect' other = expect other) :
    expectAll expect' labels = .ok (expects.put label e) := by
  induction labels generalizing expects with
  | nil => cases hmem
  | cons first labels ih =>
    obtain ⟨e₀, he₀, h⟩ := ok_of_bind h
    obtain ⟨rest, hrest, heq⟩ := ok_of_bind h
    cases heq
    obtain ⟨hfirst, hnodup⟩ := List.nodup_cons.mp hnodup
    by_cases hsame : first = label
    · subst hsame
      have hothers : ∀ other ∈ labels, expect' other = expect other := fun other hother =>
        hothers other (List.mem_cons_of_mem _ hother) fun heq => hfirst (heq ▸ hother)
      rw [expectAll, hlabel, expectAll_congr hothers, hrest, Table.put, if_pos rfl]
      rfl
    · have hmem := (List.mem_cons.mp hmem).resolve_left fun heq => hsame heq.symm
      rw [expectAll, hothers first List.mem_cons_self hsame, he₀,
        ih hrest hnodup hmem fun other hother => hothers other (List.mem_cons_of_mem _ hother),
        Table.put, if_neg hsame]
      rfl

end Labels

theorem finishDrafts_eq {expect : String → Except Fault Expectation} {drafts : Drafts}
    (h : ∀ row ∈ drafts, row.2.finish row.1 = expect row.1) :
    finishDrafts drafts = expectAll expect drafts.keys := by
  induction drafts with
  | nil => rfl
  | cons row drafts ih =>
    obtain ⟨label, draft⟩ := row
    have hrest := ih fun row hrow => h row (List.mem_cons_of_mem _ hrow)
    rw [finishDrafts, hrest, show draft.finish label = expect label from h _ List.mem_cons_self]
    rfl

/-- What a section comes to, once its values are dealt out: each label expects what its parts ask of it. -/
theorem compileExpectations_eq {source : List Char} {s : Section} {values left : List Anchored}
    {drafts : Drafts} (file : Option String) (hlaid : s.Laid source) (hsorted : Sorted values)
    (h : draftsOf (s.labels.map fun label => (label, Draft.empty)) s.parts values =
      .ok (drafts, left)) :
    compileExpectations source file values s =
      (expectAll (fun label => (demandOf label values s.parts).finish label) s.labels).map
        fun expects => (expects, left) := by
  obtain ⟨hkeys, hread, -⟩ := draftsOf_start hlaid hsorted h
  have hnodup : drafts.keys.Nodup := by
    rw [hkeys, hlaid.labels]
    exact nodup_eraseDups _
  have hfinish : finishDrafts drafts =
      expectAll (fun label => (demandOf label values s.parts).finish label) s.labels := by
    rw [← hkeys]
    refine finishDrafts_eq fun row hrow => ?_
    obtain ⟨d, hd, hget⟩ := hread row.1 (hkeys ▸ List.mem_map_of_mem hrow)
    obtain rfl := Option.some.inj ((Table.get?_of_mem hnodup hrow).symm.trans hget)
    obtain ⟨hdemand, hordered⟩ := Draft.demand_read Draft.ordered_empty hlaid.plain hd
    have hnothing : Draft.empty.demand = .nothing := rfl
    rw [Draft.finish_eq hordered, hdemand, hnothing, Demand.nothing_append]
  simp only [compileExpectations, h, locate]
  change (finishDrafts drafts >>= _) = _
  rw [hfinish]
  cases expectAll (fun label => (demandOf label values s.parts).finish label) s.labels <;> rfl

end HotSpec.Spec
