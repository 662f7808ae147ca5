import HotSpec.Proofs.Spec.Gaps
import HotSpec.Proofs.Spec.Interference
import HotSpec.Proofs.Spec.Neutral

/-!
# Lines without text among the expectations

A blank line between two lines of the expectations, outside of any block, asks for nothing.  A condition
without text and a block without lines ask their label for a text: a break, or an empty one.  A label
that asserts some HTML takes it, and in general nothing changes; a label whose block is nothing but subs
does not, and is refused.

Main definitions:

- `conditionLine`, `emptyBlock`: a condition without text, and a block without lines.
- `lineOf`: a text without breaks, as a line.

Main results:

- Theorem `Gap.compile_insert`: what a source with some lines in a gap comes to.
- Theorem `Gap.compile_line`: what a label without text in a gap does.
- Theorem `compile_blank_lines`: which lines without text change nothing.
- Theorem `condition_without_text`: a condition without text that is refused.
-/

namespace HotSpec.Spec

open HotSpec.Text
open Html (Token EndsSpaced)

/-! ## Compiled sources -/

/-- What a source compiles to, from its expectations. -/
theorem compile_of_expectations {source : Source} {full : Bool} {file : Option String}
    {outline : Outline} {s : Section} {expects : Except Fault (Table Expectation)}
    (houtline : Outline.of source.text full = .ok outline) (hs : outline.expectations = some s)
    (h : compileExpectations source.text file source.values s =
      expects.map fun expects => (expects, [])) :
    compile source full file = expects >>= fun expects =>
      if full && expects.isEmpty then .error (.spec (.noAssertions outline.title) none)
      else .ok ⟨outline.title, Table.ofRows (outline.files.map fun row => (row.1, row.2.variants)),
        expects⟩ := by
  rw [compile_of_outline houtline]
  unfold compileOutline
  simp only [hs, h]
  cases expects <;> rfl

/-- What a compiled source was made of. -/
theorem expectations_of_compile {source : Source} {full : Bool} {file : Option String}
    {outline : Outline} {s : Section} {compiled : CompiledSpec}
    (houtline : Outline.of source.text full = .ok outline) (hs : outline.expectations = some s)
    (h : compile source full file = .ok compiled) :
    compileExpectations source.text file source.values s = .ok (compiled.expects, []) ∧
      (full && compiled.expects.isEmpty) = false ∧
      compiled.title = outline.title ∧
      compiled.files = Table.ofRows (outline.files.map fun row => (row.1, row.2.variants)) := by
  rw [compile_of_outline houtline] at h
  obtain ⟨compiled', hcompiled, h⟩ := ok_of_bind h
  unfold compileOutline at hcompiled
  rw [hs] at hcompiled
  obtain ⟨⟨expects, left⟩, hexpects, hleft⟩ := ok_of_bind hcompiled
  cases left with
  | cons a left => cases hleft
  | nil =>
    cases hleft
    split at h
    · cases h
    · next hsome =>
      cases h
      exact ⟨hexpects, Bool.not_eq_true _ ▸ hsome, rfl, rfl⟩

section Gaps

variable {source : Source} {full : Bool} {file : Option String} {outline : Outline} {s : Section}
  {compiled : CompiledSpec} {k : Nat} {above below : List Line} {body : List Char} {items : List Item}

/-- What a source with some lines in a gap comes to: each label is asked for what these lines ask of it, in
between. -/
theorem Gap.compile_insert (hgap : Gap source.text k above below) (hsorted : Sorted source.values)
    (houtline : Outline.of source.text full = .ok outline) (hs : outline.expectations = some s)
    (hok : compile source full file = .ok compiled) (hfill : Fill above below s.labels body items) :
    ∃ front back, ∃ indent : Nat,
      (∀ p ∈ front, p ∈ s.parts ∧ p.stop ≤ k ∧ (p.text = [] ∨ p.text.getLast? = some '\n')) ∧
      expectAll (fun label => ((demandOf label source.values front).append
        (demandOf label source.values back)).finish label) s.labels = .ok compiled.expects ∧
      compile (source.insert k (body ++ ['\n'])) full file =
        (expectAll (fun label => ((demandOf label source.values front).append
          ((demandOf label [] (items.flatMap (Cut.partsOf ⟨body ++ ['\n'], indent, true, 0⟩))).append
            (demandOf label source.values back))).finish label) s.labels).map
              fun expects => { compiled with expects } := by
  obtain ⟨hexpects, hsome, htitle, hfiles⟩ := expectations_of_compile houtline hs hok
  have hinside : ∀ a ∈ source.values, ∃ p ∈ s.parts, p.holds a = true := fun a ha => by
    obtain ⟨outline', houtline₀, -, hrouted⟩ := routed_compile hsorted hok
    obtain rfl := Except.ok.inj (houtline.symm.trans houtline₀)
    obtain ⟨p, hp, hholds, -⟩ := (hrouted s hs).value a ha
    exact ⟨p, hp, hholds⟩
  obtain ⟨s', front, more, back, indent, houtline', hinserted, htexts, hmore⟩ :=
    hgap.inserted houtline hs hinside hfill
  have hvalues : source.values.map (Anchored.movedFrom k (body.length + 1)) =
      (source.insert k (body ++ ['\n'])).values := by
    simp [Source.insert]
  obtain ⟨hall, hnew⟩ := hinserted.compileExpectations (laid_outline houtline hs)
    (laid_outline houtline' rfl) hsorted hinside hexpects
  have hold : (fun label => (demandOf label source.values s.parts).finish label) = fun label =>
      ((demandOf label source.values front).append (demandOf label source.values back)).finish label :=
    funext fun label => congrArg (Demand.finish label) (hinserted.demandOf_old label)
  have hasked : (fun label => (demandOf label (source.values.map
        (Anchored.movedFrom k (body.length + 1))) s'.parts).finish label) = fun label =>
      ((demandOf label source.values front).append
        ((demandOf label [] (items.flatMap (Cut.partsOf ⟨body ++ ['\n'], indent, true, 0⟩))).append
          (demandOf label source.values back))).finish label :=
    funext fun label => by rw [hinserted.demandOf_new, hvalues, hmore]
  rw [hold] at hall
  rw [hasked, hvalues] at hnew
  refine ⟨front, back, indent, fun p hp => ⟨?_, hinserted.above p hp, htexts p hp⟩, hall, ?_⟩
  · exact (List.mem_filter.mp (hinserted.old ▸ List.mem_append_left back hp)).1
  · rw [compile_of_expectations houtline' rfl hnew]
    cases hresult : expectAll (fun label => ((demandOf label source.values front).append
        ((demandOf label [] (items.flatMap (Cut.partsOf ⟨body ++ ['\n'], indent, true, 0⟩))).append
          (demandOf label source.values back))).finish label) s.labels with
    | error fault => rfl
    | ok expects =>
      have hkeys := congrArg List.isEmpty ((expectAll_spec hresult).1.trans (expectAll_spec hall).1.symm)
      have hempty : expects.isEmpty = compiled.expects.isEmpty := by simpa [Table.keys] using hkeys
      simp only [bind, Except.bind, hempty, hsome, Except.map, ← htitle, ← hfiles]
      rfl

/-- What a label without text in a gap does: it is one too many where its label asserts no HTML, and else
it changes what this label asserts at most, and nothing at all where its text is absorbed. -/
theorem Gap.compile_line (hgap : Gap source.text k above below) (hsorted : Sorted source.values)
    (houtline : Outline.of source.text full = .ok outline) (hs : outline.expectations = some s)
    (hok : compile source full file = .ok compiled) (hfill : Fill above below s.labels body items)
    {label : String} {token : Token} (hmem : label ∈ s.labels)
    (hdemand : ∀ indent other,
      demandOf other [] (items.flatMap (Cut.partsOf ⟨body ++ ['\n'], indent, true, 0⟩)) =
        if other = label then .line token else .nothing) :
    ∃ e, compiled.expects.get? label = some e ∧
      ((¬ ∃ html, .html html ∈ e.steps) →
        compile (source.insert k (body ++ ['\n'])) full file =
          .error (.spec (.ignoredHtml label) none)) ∧
      ((∃ html, .html html ∈ e.steps) →
        (∃ e', compile (source.insert k (body ++ ['\n'])) full file =
            .ok { compiled with expects := compiled.expects.put label e' } ∧
          e'.title = e.title ∧ e'.before = e.before ∧ e'.after = e.after) ∧
        ((∀ front, (∀ p ∈ front, p ∈ s.parts ∧ p.stop ≤ k ∧
            (p.text = [] ∨ p.text.getLast? = some '\n')) →
              (demandOf label source.values front).Absorbs token) →
          compile (source.insert k (body ++ ['\n'])) full file = .ok compiled)) := by
  obtain ⟨front, back, indent, hfront, hall, hnew⟩ :=
    hgap.compile_insert hsorted houtline hs hok hfill
  have hnodup : s.labels.Nodup := by
    rw [(laid_outline houtline hs).labels]
    exact nodup_eraseDups _
  simp only [hdemand] at hnew
  have hothers : ∀ other ∈ s.labels, other ≠ label →
      ((demandOf other source.values front).append ((if other = label then Demand.line token
        else Demand.nothing).append (demandOf other source.values back))).finish other =
      ((demandOf other source.values front).append (demandOf other source.values back)).finish other :=
    fun other _ hne => by rw [if_neg hne, Demand.nothing_append]
  obtain ⟨e, he, hget⟩ := (expectAll_spec hall).2 label hmem
  refine ⟨e, hget, fun hnone => ?_, fun hhtml => ⟨?_, fun habsorbs => ?_⟩⟩
  · have hasserts := Bool.not_eq_true _ ▸ mt (Demand.asserts_iff he).mp hnone
    have hfault := Demand.finish_of_ignored hasserts token label
    rw [hnew, expectAll_error hall hmem (by rw [if_pos rfl, hfault]) hothers]
    rfl
  · have hasserts := (Demand.asserts_iff he).mpr hhtml
    obtain ⟨e₀, he₀, htitle₀, hbefore₀, hafter₀⟩ := Demand.finish_of_asserts hasserts label
    obtain rfl := Except.ok.inj (he.symm.trans he₀)
    obtain ⟨e', he', htitle, hbefore, hafter⟩ :=
      Demand.finish_of_asserts (Demand.asserts_line _ _ token ▸ hasserts) label
    rw [Demand.title_line, ← htitle₀] at htitle
    rw [Demand.hooks_line] at hbefore hafter
    refine ⟨e', ?_, htitle, hbefore.trans hbefore₀.symm, hafter.trans hafter₀.symm⟩
    rw [hnew, expectAll_put hall hnodup hmem (by rw [if_pos rfl, he']) hothers]
    rfl
  · have hasserts := (Demand.asserts_iff he).mpr hhtml
    have hsame := Demand.finish_of_absorbs hasserts (habsorbs front hfront) label
    have hevery : ∀ other ∈ s.labels,
        ((demandOf other source.values front).append ((if other = label then Demand.line token
          else Demand.nothing).append (demandOf other source.values back))).finish other =
        ((demandOf other source.values front).append
          (demandOf other source.values back)).finish other := fun other hother => by
      by_cases hother' : other = label
      · rw [if_pos hother', hother', hsame]
      · exact hothers other hother hother'
    rw [hnew, expectAll_congr hevery, hall]
    rfl

end Gaps

/-! ## Lines without text -/

/-- A condition without text. -/
def conditionLine (gap : List Char) (label : String) : List Char := gap ++ ':' :: ':' :: label.toList

/-- A block without lines. -/
def emptyBlock (gap : List Char) (label : String) : List Char :=
  (conditionLine gap label ++ [':', ':']) ++ '\n' :: (gap ++ [':', ':'])

theorem brokenLines_of_notMem {text : List Char} (h : '\n' ∉ text) :
    brokenLines text = [⟨0, text.length, text.length + 1, text⟩] := by
  rw [brokenLines, splitOn_of_notMem h]
  simp [placeLines]

theorem brokenLines_append (text rest : List Char) : brokenLines (text ++ '\n' :: rest) =
    brokenLines text ++ (brokenLines rest).map (Line.moved (text.length + 1)) := by
  have hsize := sizeOfLines_splitOn text
  have hlength : (text ++ '\n' :: rest).length + 1 = text.length + 1 + (rest.length + 1) := by
    rw [List.length_append, List.length_cons]
    omega
  rw [brokenLines, splitOn_append, placeLines_append, hsize, hlength, brokenLines, brokenLines,
    ← placeLines_moved, Nat.zero_add, Nat.add_zero,
    @placeLines_of_le (text.length + 1 + (rest.length + 1)) (text.length + 1) 0 _ (by omega) (by omega)]

section Marked

variable {gap rest label back : List Char} {line : Line}

theorem trimStart_colon (hgap : blank gap = true) (rest : List Char) :
    trimStart (gap ++ ':' :: rest) = ':' :: rest := by
  rw [Text.trimStart, List.dropWhile_append_of_pos (List.all_eq_true.mp hgap),
    List.dropWhile_cons_of_neg (by decide)]

theorem indent_colon (hgap : blank gap = true) (htext : line.text = gap ++ ':' :: rest) :
    line.indent = gap.length := by
  rw [Line.indent, htext, trimStart_colon hgap]
  simp

/-- A line with the marker of a label starts no section. -/
theorem starts_label (hgap : blank gap = true) (hlabel : IsLabel label)
    (htext : line.text = gap ++ ':' :: ':' :: (label ++ back)) : line.starts = false := by
  obtain ⟨c, label, rfl⟩ := List.exists_cons_of_ne_nil hlabel.ne_nil
  have hc := hlabel.chars c List.mem_cons_self
  have htrimmed : line.trimmed = ':' :: ':' :: c :: trimEnd (label ++ back) := by
    rw [Line.trimmed, trim, htext, trimStart_colon hgap, trimEnd_cons (by decide),
      trimEnd_cons (by decide), List.cons_append, trimEnd_cons (visible_of_isLabelChar hc).1]
  obtain ⟨hheader, hseparator, -, -⟩ := forms_of_marker hc (trimEnd (label ++ back))
  simp [Line.starts, Line.isHeader, Line.separates, htrimmed, hheader, hseparator]

theorem label?_label (hlabel : IsLabel label) (hback : back.head?.all (!isLabelChar ·) = true) :
    label? (':' :: ':' :: (label ++ back)) = some (label, back) := by
  have htake : back.takeWhile isLabelChar = [] := by
    cases back <;> simp_all
  have hdrop : back.dropWhile isLabelChar = back := by
    cases back <;> simp_all
  simp [label?, List.takeWhile_append_of_pos hlabel.chars, List.dropWhile_append_of_pos hlabel.chars,
    htake, hdrop, hlabel.ne_nil]

/-- A line that is two colons closes a block, and starts no section. -/
theorem trimmed_closer (hgap : blank gap = true) (htext : line.text = gap ++ [':', ':']) :
    line.trimmed = [':', ':'] := by
  rw [Line.trimmed, trim, htext, trimStart_colon hgap]
  rfl

end Marked

/-- What a part without values asks for, where it has a label but no title. -/
theorem demandOf_labelled {p : Part} {label : String} (hlabel : p.label = some label)
    (htitle : p.title = none) (other : String) : demandOf other [] [p] =
      if other = label then .line (.literal (String.ofList p.text)) else .nothing := by
  rw [demandOf_single]
  split
  · next hsame =>
    subst hsame
    simp [Part.demand, Part.isFor, Part.valued, Part.tokens, Part.share, callablesOf, hlabel, htitle,
      Demand.line]
  · next hother =>
    refine Part.demand_of_other ?_
    simpa [Part.isFor, hlabel] using fun heq => hother heq.symm

/-- A text without breaks, as a line. -/
def lineOf (text : List Char) : Line := ⟨0, text.length, text.length + 1, text⟩

theorem lineOf_in {text : List Char} (h : '\n' ∉ text) : (lineOf text).In (text ++ ['\n']) :=
  linesOf_in ((brokenLines_sublist text).subset (brokenLines_of_notMem h ▸ List.mem_singleton_self _))

theorem break_notMem_conditionLine {gap : List Char} {label : String} (hbreak : '\n' ∉ gap)
    (hlabel : IsLabel label.toList) : '\n' ∉ conditionLine gap label := by
  have hchars : '\n' ∉ label.toList := fun hmem => by
    have hvisible := (visible_of_isLabelChar (hlabel.chars _ hmem)).1
    exact absurd hvisible (by decide)
  simp [conditionLine, hbreak, hchars]

/-- A block without lines asks for nothing but an empty text. -/
theorem demandOf_emptyBlock (gap : List Char) (label : String) (indent : Nat) (other : String) :
    demandOf other [] ([Item.block label none (lineOf (conditionLine gap label ++ [':', ':'])) []].flatMap
      (Cut.partsOf ⟨emptyBlock gap label ++ ['\n'], indent, true, 0⟩)) =
        if other = label then .line (.literal (String.ofList [])) else .nothing := by
  rw [List.flatMap_singleton, Cut.partsOf, if_pos rfl, demandOf_labelled rfl rfl]
  simp [Cut.part]

section Fills

variable {above below : List Line} {labels : List String} {gap : List Char} {label : String}
variable (hgap : blank gap = true) (hbreak : '\n' ∉ gap)
include hgap hbreak

/-- A blank line can be put anywhere. -/
theorem fill_blank (hlabels : (broughtBy above ++ broughtBy below).eraseDups = labels) :
    Fill above below labels gap [.plain (lineOf gap)] := by
  have hline : brokenLines gap = [lineOf gap] := brokenLines_of_notMem hbreak
  have hblank : ∀ line ∈ brokenLines gap, line.isBlank = true := by
    rw [hline]
    exact fun line hmem => List.mem_singleton.mp hmem ▸ hgap
  refine ⟨hline ▸ itemized_of_blank (hline ▸ hblank), fun line hmem => ?_, fun line hmem => ?_, hlabels⟩
  · exact Line.starts_of_blank (hblank line hmem)
  · exact .inl (hblank line hmem)

/-- A blank line asks for nothing. -/
theorem demandOf_blank (indent : Nat) (label : String) :
    demandOf label [] ([Item.plain (lineOf gap)].flatMap
      (Cut.partsOf ⟨gap ++ ['\n'], indent, true, 0⟩)) = .nothing := by
  rw [← demandOf_counts, List.filter_eq_nil_iff.mpr]
  · rfl
  · intro p hp
    obtain ⟨item, hitem, hp⟩ := List.mem_flatMap.mp hp
    obtain rfl := List.mem_singleton.mp hitem
    rw [Bool.not_eq_true, Part.counts_eq_false, List.mem_singleton.mp hp]
    refine ⟨rfl, ?_, rfl⟩
    rw [Cut.text_line (lineOf_in hbreak)]
    exact (blank_drop (Nat.min_le_right _ _)).trans hgap

variable (hlabel : IsLabel label.toList)
include hlabel

/-- A condition without text asks for its break. -/
theorem demandOf_condition (indent : Nat) (other : String) :
    demandOf other [] ([Item.condition label (label.toList.length + 2)
        (lineOf (conditionLine gap label))].flatMap
      (Cut.partsOf ⟨conditionLine gap label ++ ['\n'], indent, true, 0⟩)) =
        if other = label then .line (.literal (String.ofList ['\n'])) else .nothing := by
  have hin := lineOf_in (break_notMem_conditionLine hbreak hlabel)
  have hindent : (lineOf (conditionLine gap label)).indent = gap.length := indent_colon hgap rfl
  rw [List.flatMap_singleton, Cut.partsOf, demandOf_labelled rfl rfl, Cut.text_condition hin, hindent]
  have hempty : (lineOf (conditionLine gap label)).text.drop (gap.length + (label.toList.length + 2)) =
      [] := List.drop_eq_nil_of_le (by simp [lineOf, conditionLine])
  have hbreak : (lineOf (conditionLine gap label)).break = ['\n'] := by simp [Line.break, lineOf]
  rw [hempty, hbreak]
  rfl

variable (hlabels : (broughtBy above ++ label :: broughtBy below).eraseDups = labels)
variable (hindent : ∃ line ∈ above ++ below, line.isBlank = false ∧ line.indent ≤ gap.length)
include hlabels hindent

/-- A condition without text can be put where the labels stay in order. -/
theorem fill_condition : Fill above below labels (conditionLine gap label)
    [.condition label (label.toList.length + 2) (lineOf (conditionLine gap label))] := by
  have hline := brokenLines_of_notMem (break_notMem_conditionLine hbreak hlabel)
  have htext : (lineOf (conditionLine gap label)).text =
      gap ++ ':' :: ':' :: (label.toList ++ []) := by simp [lineOf, conditionLine]
  have hform : label? (trimStart (lineOf (conditionLine gap label)).text) = some (label.toList, []) := by
    rw [htext, trimStart_colon hgap]
    exact label?_label hlabel rfl
  have hopener : opener? (trimStart (lineOf (conditionLine gap label)).text) = none := by
    rw [opener?, hform]
  have hcloser : isCloser (trimStart (lineOf (conditionLine gap label)).text) = false := by
    obtain ⟨c, rest, hcons⟩ := List.exists_cons_of_ne_nil hlabel.ne_nil
    rw [htext, trimStart_colon hgap, hcons]
    exact (forms_of_marker (hlabel.chars c (hcons ▸ List.mem_cons_self)) _).2.2.2
  have hitem : Item.ofLine (lineOf (conditionLine gap label)) =
      .condition label (label.toList.length + 2) (lineOf (conditionLine gap label)) := by
    rw [Item.ofLine, condition?, hform]
    simp
  obtain ⟨other, hother, hvisible, hle⟩ := hindent
  refine ⟨?_, fun line hmem => ?_, fun line hmem => .inr ⟨other, hother, hvisible, ?_⟩, hlabels⟩
  · rw [hline, ← hitem]
    exact .line hopener hcloser .nil
  · rw [hline] at hmem
    rw [List.mem_singleton.mp hmem]
    exact starts_label hgap hlabel htext
  · rw [hline] at hmem
    rw [List.mem_singleton.mp hmem]
    exact hle.trans (Nat.le_of_eq (indent_colon hgap htext).symm)

/-- A block without lines can be put where the labels stay in order. -/
theorem fill_emptyBlock : Fill above below labels (emptyBlock gap label)
    [.block label none (lineOf (conditionLine gap label ++ [':', ':'])) []] := by
  have hnone := break_notMem_conditionLine hbreak hlabel
  have hopening : brokenLines (conditionLine gap label ++ [':', ':']) =
      [lineOf (conditionLine gap label ++ [':', ':'])] :=
    brokenLines_of_notMem (by simp [hnone])
  have hclosing : brokenLines (gap ++ [':', ':']) = [lineOf (gap ++ [':', ':'])] :=
    brokenLines_of_notMem (by simp [hbreak])
  generalize hcloser : (lineOf (gap ++ [':', ':'])).moved
    ((conditionLine gap label ++ [':', ':']).length + 1) = closer
  have hline : brokenLines (emptyBlock gap label) =
      [lineOf (conditionLine gap label ++ [':', ':']), closer] := by
    rw [emptyBlock, brokenLines_append, hopening, hclosing, ← hcloser]
    rfl
  have htext : (lineOf (conditionLine gap label ++ [':', ':'])).text =
      gap ++ ':' :: ':' :: (label.toList ++ [':', ':']) := by simp [lineOf, conditionLine]
  have htext' : closer.text = gap ++ [':', ':'] := by
    rw [← hcloser]
    rfl
  have hopener : opener? (trimStart (lineOf (conditionLine gap label ++ [':', ':'])).text) =
      some (label.toList, none) := by
    rw [htext, trimStart_colon hgap, opener?, label?_label hlabel (by decide)]
    rfl
  have hcut : cutAtCloser [closer] = some ([], []) := by
    rw [cutAtCloser, trimmed_closer hgap htext']
    rfl
  obtain ⟨other, hother, hvisible, hle⟩ := hindent
  refine ⟨?_, fun line hmem => ?_, fun line hmem => .inr ⟨other, hother, hvisible, ?_⟩, ?_⟩
  · have hblock := Itemized.block hopener hcut .nil
    rwa [String.ofList_toList, ← hline] at hblock
  · rw [hline] at hmem
    rcases List.mem_cons.mp hmem with rfl | hmem
    · exact starts_label hgap hlabel htext
    · rw [List.mem_singleton.mp hmem, Line.starts, Line.isHeader, Line.separates,
        trimmed_closer hgap htext']
      rfl
  · rw [hline] at hmem
    rcases List.mem_cons.mp hmem with rfl | hmem
    · exact hle.trans (Nat.le_of_eq (indent_colon hgap htext).symm)
    · rw [List.mem_singleton.mp hmem]
      exact hle.trans (Nat.le_of_eq (indent_colon hgap htext').symm)
  · exact hlabels

end Fills

/-! ## Lines in a gap -/

/-- Lines that can be put into a gap of the expectations without any text.  A blank line changes nothing.
A label of the section that asserts no HTML does not take any: a condition without text and a block
without lines are refused.  Where the label asserts HTML, a block without lines changes nothing, and a
condition without text changes nothing but the HTML that its label asserts; it changes nothing at all where
each callable in the blocks of the label that stand in front of it is at the start of a line, of its block,
or behind a space. -/
theorem compile_blank_lines {source : Source} {full : Bool} {file : Option String} {outline : Outline}
    {s : Section} {compiled : CompiledSpec} {k : Nat} {above below : List Line} {gap : List Char}
    (hsorted : Sorted source.values) (houtline : Outline.of source.text full = .ok outline)
    (hs : outline.expectations = some s) (hok : compile source full file = .ok compiled)
    (hgap : Gap source.text k above below) (hblank : blank gap = true) (hbreak : '\n' ∉ gap) :
    compile (source.insert k (gap ++ ['\n'])) full file = .ok compiled ∧
    ∀ label, (broughtBy above ++ label :: broughtBy below).eraseDups = s.labels →
      (∃ line ∈ above ++ below, line.isBlank = false ∧ line.indent ≤ gap.length) →
      ∃ e, compiled.expects.get? label = some e ∧
        ((¬ ∃ html, .html html ∈ e.steps) →
          compile (source.insert k (conditionLine gap label ++ ['\n'])) full file =
            .error (.spec (.ignoredHtml label) none) ∧
          compile (source.insert k (emptyBlock gap label ++ ['\n'])) full file =
            .error (.spec (.ignoredHtml label) none)) ∧
        ((∃ html, .html html ∈ e.steps) →
          compile (source.insert k (emptyBlock gap label ++ ['\n'])) full file = .ok compiled ∧
          (∃ e', compile (source.insert k (conditionLine gap label ++ ['\n'])) full file =
              .ok { compiled with expects := compiled.expects.put label e' } ∧
            e'.title = e.title ∧ e'.before = e.before ∧ e'.after = e.after) ∧
          ((∀ p ∈ s.parts, p.valued label source.values = true → p.stop ≤ k →
              ∀ a ∈ p.share source.values, a.isCallable = true →
                EndsSpaced (p.text.take (a.index - p.start))) →
            compile (source.insert k (conditionLine gap label ++ ['\n'])) full file =
              .ok compiled)) := by
  have hlabelled := hgap.labels houtline hs
  constructor
  · obtain ⟨front, back, indent, -, hall, hnew⟩ :=
      hgap.compile_insert hsorted houtline hs hok (fill_blank hblank hbreak hlabelled.symm)
    simp only [demandOf_blank hblank hbreak, Demand.nothing_append, hall] at hnew
    exact hnew
  · intro label hlabels hindent
    have hmem : label ∈ s.labels := by
      rw [← hlabels, List.mem_eraseDups]
      exact List.mem_append_right _ List.mem_cons_self
    have hlabel : IsLabel label.toList := by
      rw [hlabelled, List.mem_eraseDups] at hmem
      rcases List.mem_append.mp hmem with hmem | hmem <;>
        obtain ⟨row, hrow, hbrings⟩ := List.mem_filterMap.mp hmem <;>
        exact isLabel_of_brings? hrow hbrings
    obtain ⟨e, hget, hignored, hasserted⟩ := hgap.compile_line hsorted houtline hs hok
      (fill_condition hblank hbreak hlabel hlabels hindent) hmem
      (demandOf_condition hblank hbreak hlabel)
    obtain ⟨e₀, hget₀, hignored₀, hasserted₀⟩ := hgap.compile_line hsorted houtline hs hok
      (fill_emptyBlock hblank hbreak hlabel hlabels hindent) hmem (demandOf_emptyBlock gap label)
    obtain rfl := Option.some.inj (hget.symm.trans hget₀)
    refine ⟨e, hget, fun hnone => ⟨hignored hnone, hignored₀ hnone⟩, fun hhtml => ?_⟩
    obtain ⟨hchanged, hsame⟩ := hasserted hhtml
    refine ⟨(hasserted₀ hhtml).2 fun front _ => Demand.absorbs_empty _, hchanged, fun hcallables => ?_⟩
    refine hsame fun front hfront => (spaced_demandOf fun p hp => ?_).absorbs
    obtain ⟨hpart, hstop, htext⟩ := hfront p hp
    refine Part.spaced_demand ?_ fun hvalued => hcallables p hpart hvalued hstop
    rcases htext with hnil | hlast
    · rw [hnil]
      exact fun _ hc => by cases hc
    · intro c hc
      rw [hlast] at hc
      exact .inr (Option.some.inj hc).symm

/-- Expectations of two labels, the first of which has a block with a sub on a line of its own, behind some
text. -/
def subBlock (text : String) : Source :=
  ⟨"****\n::1::\n".toList ++ (text.toList ++ "\n::\n::2 x\n".toList),
    [⟨11 + text.length, .routine ⟨"s", [], .nothing⟩⟩]⟩

/-- The lines of these expectations. -/
def subBlockLines (text : String) : List Line := (linesOf (subBlock text).text).drop 1

/-- The place behind the block, in front of the last condition. -/
theorem gap_subBlock {text : String} (h : text = "" ∨ text = "<p>\n") :
    Gap (subBlock text).text (15 + text.length)
      ((subBlockLines text).filter (·.start < 15 + text.length))
      ((subBlockLines text).filter (15 + text.length ≤ ·.start)) := by
  refine ⟨⟨[], ⟨0, 4, 5, "****".toList⟩, ?_, ?_⟩, ?_, ?_⟩
  · rcases h with rfl | rfl <;> decide +kernel
  · decide +kernel
  · rcases h with rfl | rfl <;> decide +kernel
  · have hok : (itemsOf ((subBlockLines text).filter (·.start < 15 + text.length))).isOk = true := by
      rcases h with rfl | rfl <;> decide +kernel
    rcases decides_itemsOf ((subBlockLines text).filter (·.start < 15 + text.length)) with
      ⟨_, -, hbalanced⟩ | ⟨refusal, herror, -⟩
    · exact hbalanced
    · rw [herror] at hok
      cases hok

theorem compile_blank_lines_sub : ∃ compiled above below,
    compile (subBlock "<p>\n") false none = .ok compiled ∧
    Gap (subBlock "<p>\n").text 19 above below ∧
    compile ((subBlock "<p>\n").insert 19 ['\n']) false none = .ok compiled ∧
    compile ((subBlock "<p>\n").insert 19 (emptyBlock [] "1" ++ ['\n'])) false none = .ok compiled ∧
    compile ((subBlock "<p>\n").insert 19 (conditionLine [] "1" ++ ['\n'])) false none =
      .ok compiled := by
  have hsorted : Sorted (subBlock "<p>\n").values := List.pairwise_singleton _ _
  have hgap := gap_subBlock (.inr rfl)
  have hsection : ((Outline.of (subBlock "<p>\n").text false).toOption.bind Outline.expectations) =
      some ⟨[⟨some "1", "<p>\n\n".toList, 11, 16, true, none⟩,
        ⟨some "2", "x\n".toList, 23, 25, false, none⟩], ["1", "2"]⟩ := by
    decide +kernel
  have hshown : (((compile (subBlock "<p>\n") false none).toOption.bind fun compiled =>
      compiled.expects.get? "1").any fun e => e.steps.any fun step => step.kind == "html") = true := by
    decide +kernel
  cases houtline : Outline.of (subBlock "<p>\n").text false with
  | error refusal =>
    rw [houtline] at hsection
    cases hsection
  | ok outline =>
    rw [houtline] at hsection
    cases hcompile : compile (subBlock "<p>\n") false none with
    | error fault =>
      rw [hcompile] at hshown
      cases hshown
    | ok compiled =>
      rw [hcompile] at hshown
      obtain ⟨hblank, hlabelled⟩ := @compile_blank_lines _ _ _ _ _ _ _ _ _ [] hsorted houtline hsection
        hcompile hgap rfl List.not_mem_nil
      obtain ⟨e, hget, -, hasserted⟩ := hlabelled "1" (by decide +kernel) (by decide +kernel)
      have hhtml : ∃ html, .html html ∈ e.steps := by
        rw [show (Except.ok compiled : Except Fault CompiledSpec).toOption = some compiled from rfl,
          Option.bind_some, hget, Option.any_some, List.any_eq_true] at hshown
        obtain ⟨step, hstep, hkind⟩ := hshown
        cases step with
        | html html => exact ⟨html, hstep⟩
        | sub v => simp [Step.kind] at hkind
        | function v => simp [Step.kind] at hkind
      obtain ⟨hempty, -, hcondition⟩ := hasserted hhtml
      have hspaced : ∀ p ∈ ([⟨some "1", "<p>\n\n".toList, 11, 16, true, none⟩,
          ⟨some "2", "x\n".toList, 23, 25, false, none⟩] : List Part),
          ∀ a ∈ p.share (subBlock "<p>\n").values, EndsSpaced (p.text.take (a.index - p.start)) := by
        decide +kernel
      exact ⟨compiled, _, _, rfl, hgap, hblank, hempty,
        hcondition fun p hp _ _ a ha _ => hspaced p hp a ha⟩

/-- Where the block is but a sub, a condition without text and a block without lines are refused. -/
theorem condition_without_text : ∃ above below,
    (compile (subBlock "") false none).isOk = true ∧ Gap (subBlock "").text 15 above below ∧
    (broughtBy above ++ "1" :: broughtBy below).eraseDups =
      (broughtBy above ++ broughtBy below).eraseDups ∧
    (∃ line ∈ above ++ below, line.isBlank = false ∧ line.indent = 0) ∧
    (compile ((subBlock "").insert 15 ("::1\n".toList)) false none).isOk = false ∧
    (compile ((subBlock "").insert 15 ("::1::\n::\n".toList)) false none).isOk = false := by
  exact ⟨_, _, by decide +kernel, gap_subBlock (.inl rfl), by decide +kernel, by decide +kernel,
    by decide +kernel, by decide +kernel⟩

end HotSpec.Spec
