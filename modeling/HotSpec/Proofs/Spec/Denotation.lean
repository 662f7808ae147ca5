import HotSpec.Proofs.Spec.Coverage
import HotSpec.Proofs.Spec.Plain

/-!
# What a spec without values says

A spec that was written without values can be read label by label, straight from its lines: the content
of a file under a label is what its lines say without a label and under that label, and the HTML that is
expected under a label is what the lines of the expectations say.

Main definitions:

- `LineKind.own?`: the text of a line that is its own.
- `contentOf`, `contentsIn`: the contents of a file, as its lines say.
- `htmlOf`, `htmlIn`: the HTML of the expectations, as their lines say.

Main results:

- Theorem `variants_eq`: the contents of a file are what its lines say.
- Theorem `denotation_compile`: a spec without values compiles to what its lines say.
-/

namespace HotSpec.Spec

open HotSpec.Text
open Html (Token Expected)

/-! ## Lines that are read -/

/-- The text of a line that is its own: that of a condition stands behind its marker, and other lines
lose the indentation that they have in common.  Lines that open and close blocks have none. -/
def LineKind.own? (indent : Nat) (line : Line) : LineKind → Option (List Char)
  | .plain | .inner _ => some (line.text.drop (min indent line.indent))
  | .condition _ marker => some (line.text.drop (line.indent + marker))
  | .opener _ | .closer | .stray => none

/-- Whether a line counts for a label: it has that label, or none. -/
def LineKind.isFor (label : String) (kind : LineKind) : Bool := kind.label?.all (· == label)

/-- Whether a line opens a block. -/
def LineKind.opens : LineKind → Bool
  | .opener _ => true
  | _ => false

/-- The labels that lines bring, by first appearance. -/
def labelsIn (rows : List (Line × LineKind)) : List String :=
  (rows.filterMap (·.2.brings?)).eraseDups

/-! ## Contents of files -/

/-- What a line says of a label in a file, with what follows its text. -/
def LineKind.content (indent : Nat) (label : String) (ending : List Char) (line : Line)
    (kind : LineKind) : List Char :=
  match kind.own? indent line with
  | some text => if kind.isFor label then text ++ ending else []
  | none => []

/-- The content of a file under a label, as its lines say: each line that counts for the label is
followed by a break, unless it is the last one of the file. -/
def contentOf (indent : Nat) (label : String) : List (Line × LineKind) → List Char
  | [] => []
  | (line, kind) :: rows =>
    kind.content indent label (if rows.isEmpty then [] else ['\n']) line ++ contentOf indent label rows

/-- The contents of a file by label, as its lines say: under any label where it has none, and nothing
where there is no text at all. -/
def contentsIn (lines : List Line) : Table String :=
  let body := trimLines lines
  let rows := readLines none body
  if rows.all fun row => (row.2.own? 0 row.1).isNone then []
  else
    let labels := if (labelsIn rows).isEmpty then [anyLabel] else labelsIn rows
    labels.map fun label => (label, String.ofList (contentOf (commonIndent body) label rows))

@[simp]
theorem Cut.part_label (cut : Cut) (start stop : Nat) (label : Option String) (block : Bool)
    (title : Option String) : (cut.part start stop label block title).label = label := rfl

/-- A piece of a source up to the end of a line, or up to the next line. -/
theorem Cut.part_text {cut : Cut} {line : Line} (h : line.In cut.source) {k : Nat}
    (hk : k ≤ line.text.length) (label : Option String) (block : Bool) (title : Option String) :
    (cut.part (line.start + k) (cut.endOf line) label block title).text =
      line.text.drop k ++ if cut.expectations || line.start != cut.last then line.break else [] := by
  unfold Cut.part Cut.endOf
  split
  · exact h.slice_next hk
  · rw [List.append_nil]
    exact h.slice_finish k

theorem Line.min_indent_le (line : Line) (indent : Nat) :
    min indent line.indent ≤ line.text.length := by
  unfold Line.indent
  omega

/-- A line is said from the common indentation on. -/
theorem Cut.text_line {cut : Cut} {line : Line} (h : line.In cut.source) (label : Option String)
    (block : Bool) (title : Option String) :
    (cut.part (cut.startOf line) (cut.endOf line) label block title).text =
      line.text.drop (min cut.indent line.indent) ++
        if cut.expectations || line.start != cut.last then line.break else [] := by
  exact Cut.part_text h (line.min_indent_le cut.indent) label block title

/-- A condition is said from behind its marker on. -/
theorem Cut.text_condition {cut : Cut} {line : Line} (h : line.In cut.source) (marker : Nat)
    (label : Option String) (block : Bool) (title : Option String) :
    (cut.part (min (line.textStart + marker) line.finish) (cut.endOf line) label block title).text =
      line.text.drop (line.indent + marker) ++
        if cut.expectations || line.start != cut.last then line.break else [] := by
  have hstart : min (line.textStart + marker) line.finish =
      line.start + min (line.indent + marker) line.text.length := by
    rw [h.finish, Line.textStart]
    omega
  rw [hstart, Cut.part_text h (Nat.min_le_right ..), ← List.drop_eq_drop_min]

/-- The parts of an item of a file hold what its lines say. -/
theorem Cut.textFor_partsOf {cut : Cut} {item : Item} (hcut : cut.expectations = false)
    (hin : ∀ line ∈ item.lines, line.In cut.source) (label : String) :
    ((cut.partsOf item).filter fun part => part.label.all (· == label)).flatMap Part.text =
      item.read.flatMap fun row => row.2.content cut.indent label
        (if row.1.start != cut.last then row.1.break else []) row.1 := by
  cases item with
  | plain line =>
    simp [Cut.partsOf, Cut.text_line (hin line (List.mem_singleton_self _)), hcut, List.filter_cons,
      Item.read, LineKind.content, LineKind.own?, LineKind.isFor, LineKind.label?]
  | condition l marker line =>
    by_cases hl : l = label
    · simp [Cut.partsOf, Cut.text_condition (hin line (List.mem_singleton_self _)), hcut, Item.read,
        LineKind.content, LineKind.own?, LineKind.isFor, LineKind.label?, hl]
    · simp [Cut.partsOf, Item.read, LineKind.content, LineKind.own?, LineKind.isFor, LineKind.label?, hl]
  | block l title opener inner =>
    have hblock : cut.partsOf (.block l title opener inner) = inner.map fun line =>
        cut.part (cut.startOf line) (cut.endOf line) (some l) true title := by
      simp [Cut.partsOf, hcut]
    have hopener : (LineKind.opener l).content cut.indent label
        (if opener.start != cut.last then opener.break else []) opener = [] := rfl
    have hin (line : Line) (hline : line ∈ inner) := hin line (List.mem_cons_of_mem _ hline)
    rw [hblock, Item.read, List.flatMap_cons, hopener, List.nil_append]
    by_cases hl : l = label
    · rw [List.filter_eq_self.mpr (by simp [hl]), List.flatMap_map, List.flatMap_map]
      refine List.flatMap_congr fun line hline => ?_
      simp [Cut.text_line (hin line hline), hcut, LineKind.content, LineKind.own?, LineKind.isFor,
        LineKind.label?, hl]
    · rw [List.filter_eq_nil_iff.mpr (by simp [hl]), List.flatMap_map]
      simp [LineKind.content, LineKind.own?, LineKind.isFor, LineKind.label?, hl]

theorem Cut.isEmpty_partsOf {cut : Cut} (hcut : cut.expectations = false) (item : Item) :
    (cut.partsOf item).isEmpty = item.read.all fun row => (row.2.own? 0 row.1).isNone := by
  cases item with
  | plain line => rfl
  | condition l marker line => rfl
  | block l title opener inner => cases inner <;> simp [Cut.partsOf, hcut, Item.read, LineKind.own?]

theorem isInfix_trimLines (lines : List Line) : trimLines lines <:+: lines := by
  obtain ⟨front, back, heq, -, -⟩ := append_trimLines lines
  exact ⟨front, back, by rw [List.append_assoc, ← heq]⟩

/-- A line that is followed by another one has a break. -/
theorem break_of_follows {lines : List Line} {last line : Line}
    (h : (lines ++ [last]).IsChain Line.Follows) (hline : line ∈ lines) : line.break = ['\n'] := by
  induction lines with
  | nil => cases hline
  | cons first lines ih =>
    have hfirst : first.break = ['\n'] := by
      cases lines with
      | nil => exact (List.isChain_cons_cons.mp h).1.2
      | cons second lines => exact (List.isChain_cons_cons.mp h).1.2
    rcases List.mem_cons.mp hline with rfl | hline
    · exact hfirst
    · exact ih (List.isChain_of_isChain_cons h) hline

/-- The content of a file is made line by line, where all lines but the last have a break. -/
theorem contentOf_append (indent : Nat) (label : String) {front : List (Line × LineKind)}
    {last : Line × LineKind}
    (h : ∀ row ∈ front, row.1.start ≠ last.1.start ∧ row.1.break = ['\n']) :
    contentOf indent label (front ++ [last]) = (front ++ [last]).flatMap fun row =>
      row.2.content indent label (if row.1.start != last.1.start then row.1.break else []) row.1 := by
  induction front with
  | nil => simp [contentOf]
  | cons row front ih =>
    obtain ⟨hne, hbreak⟩ := h row List.mem_cons_self
    rw [List.cons_append, contentOf, ih fun row hrow => h row (List.mem_cons_of_mem _ hrow)]
    simp [hne, hbreak]

/-- Where nothing is made of closers, they can be left out. -/
theorem flatMap_of_closers {α : Type} {f : Line × LineKind → List α} (h : ∀ line, f (line, .closer) = [])
    (rows : List (Line × LineKind)) : (rows.filter (·.2 ≠ .closer)).flatMap f = rows.flatMap f := by
  induction rows with
  | nil => rfl
  | cons row rows ih =>
    obtain ⟨line, kind⟩ := row
    rw [List.filter_cons, List.flatMap_cons]
    by_cases hkind : kind = .closer
    · rw [if_neg (by simp [hkind]), ih, hkind, h, List.nil_append]
    · rw [if_pos (by simp [hkind]), List.flatMap_cons, ih]

/-- The contents of a file are what its lines say. -/
theorem variants_eq {source : List Char} {lines : List Line} {s : Section}
    (hlines : lines <:+: linesOf source) (h : Section.of source false lines = .ok s) :
    s.variants = contentsIn lines := by
  obtain ⟨items, hitems, hparts, hlabels⟩ := section_eq_ok h
  let body := trimLines lines
  let rows := readLines none body
  let cut := cutOf source false lines
  have hbody : body <:+: linesOf source := (isInfix_trimLines lines).trans hlines
  have hrows : rows.filter (·.2 ≠ .closer) = items.flatMap Item.read := itemsOf_eq_ok hitems
  have hin {item : Item} (hitem : item ∈ items) : ∀ line ∈ item.lines, line.In source :=
    fun line hline => linesOf_in (hbody.sublist.subset
      ((itemsOf_lines hitems).subset (List.mem_flatMap.mpr ⟨item, hitem, hline⟩)))
  have hnames : s.labels = labelsIn rows := by rw [hlabels, labelsIn, filterMap_brings hitems]
  have hempty : s.parts.isEmpty = rows.all fun row => (row.2.own? 0 row.1).isNone := by
    have hclosers : (rows.all fun row => (row.2.own? 0 row.1).isNone) =
        (rows.filter (·.2 ≠ .closer)).all fun row => (row.2.own? 0 row.1).isNone := by
      rw [List.all_filter]
      congr 1
      funext row
      obtain ⟨line, kind⟩ := row
      cases kind <;> rfl
    rw [hclosers, hrows, hparts, List.all_flatMap, Bool.eq_iff_iff]
    simp only [List.isEmpty_iff, List.flatMap_eq_nil_iff, List.all_eq_true, ← @Cut.isEmpty_partsOf cut rfl]
    rfl
  have htext (label : String) : s.textFor label = contentOf (commonIndent body) label rows := by
    let piece (row : Line × LineKind) : List Char := row.2.content cut.indent label
      (if row.1.start != cut.last then row.1.break else []) row.1
    have hpieces : s.textFor label = rows.flatMap piece := by
      rw [← flatMap_of_closers (fun _ => rfl), hrows, Section.textFor, hparts, List.filter_flatMap, List.flatMap_assoc,
        List.flatMap_assoc]
      exact List.flatMap_congr fun item hitem => Cut.textFor_partsOf rfl (hin hitem) label
    rw [hpieces]
    have hfst : rows.map Prod.fst = body := readLines_map_fst none body
    rcases List.eq_nil_or_concat rows with hnil | ⟨front, last, hconcat⟩
    · rw [hnil]
      rfl
    · rw [hconcat, List.concat_eq_append] at hfst ⊢
      rw [List.map_append, List.map_singleton] at hfst
      have hlast : cut.last = last.1.start := by
        simp only [cut, cutOf]
        rw [show trimLines lines = front.map Prod.fst ++ [last.1] from hfst.symm]
        simp
      simp only [piece, hlast]
      refine (contentOf_append (commonIndent body) label fun row hrow => ?_).symm
      have hmem : row.1 ∈ front.map Prod.fst := List.mem_map_of_mem hrow
      have hbreak := break_of_follows (hfst ▸ follows_of_mid hbody) hmem
      have hle := (List.pairwise_append.mp (hfst ▸ (linesOf_spec source).2.sublist hbody.sublist)).2.2
        row.1 hmem last.1 (List.mem_singleton_self _)
      have hline : row.1.In source :=
        linesOf_in (hbody.subset (hfst ▸ List.mem_append_left _ hmem))
      have hnext := hline.next
      rw [Line.whole, List.length_append, hbreak, List.length_singleton] at hnext
      exact ⟨by omega, hbreak⟩
  unfold Section.variants
  rw [hempty, hnames]
  unfold contentsIn
  simp only [htext]
  rfl

/-! ## Expected HTML -/

/-- What a line says of the HTML of a label.  Blank lines without a label say nothing, and in a block only
the line behind the opener loses the common indentation. -/
def LineKind.html (indent : Nat) (label : String) (opened : Bool) (line : Line) :
    LineKind → List Char
  | .plain => if line.isBlank then [] else line.text.drop (min indent line.indent) ++ line.break
  | .condition l marker =>
    if l = label then line.text.drop (line.indent + marker) ++ line.break else []
  | .inner l =>
    if l = label then line.text.drop (if opened then min indent line.indent else 0) ++ line.break
    else []
  | .opener _ | .closer | .stray => []

/-- The HTML of a label, as the lines of the expectations say. -/
def htmlOf (indent : Nat) (label : String) : (opened : Bool) → List (Line × LineKind) → List Char
  | _, [] => []
  | opened, (line, kind) :: rows =>
    kind.html indent label opened line ++ htmlOf indent label kind.opens rows

/-- The expected HTML by label, as the lines of the expectations say. -/
def htmlIn (lines : List Line) : Table String :=
  let body := trimLines lines
  let rows := readLines none body
  (labelsIn rows).map fun label =>
    (label, Html.normal (String.ofList (htmlOf (commonIndent body) label false rows)))

/-- What a part of the expectations says of the HTML of a label. -/
def Part.html (label : String) (p : Part) : List Char :=
  match p.label with
  | none => if blank p.text then [] else p.text
  | some l => if l = label then p.text else []

/-- The inner lines of a block say something of its label, all but the first with their indentation. -/
theorem htmlOf_inner (indent : Nat) (label l : String) (inner : List Line) :
    htmlOf indent label false (inner.map (·, .inner l)) =
      if l = label then inner.flatMap Line.whole else [] := by
  induction inner with
  | nil => simp [htmlOf]
  | cons line inner ih =>
    simp only [List.map_cons, htmlOf, LineKind.opens, ih]
    by_cases hl : l = label <;> simp [LineKind.html, Line.whole, hl]

/-- A block says nothing of what follows it. -/
theorem htmlOf_closer (indent : Nat) (label l : String) (opened : Bool) (inner : List Line)
    (closer : Line) (rows : List (Line × LineKind)) :
    htmlOf indent label opened (inner.map (·, .inner l) ++ (closer, .closer) :: rows) =
      htmlOf indent label opened (inner.map (·, .inner l)) ++ htmlOf indent label false rows := by
  induction inner generalizing opened with
  | nil => rfl
  | cons line inner ih =>
    rw [List.map_cons, List.cons_append, htmlOf, ih, htmlOf, List.append_assoc]

/-- A line outside of a block opens none for the next one. -/
theorem opens_kindOutside (line : Line) : (kindOutside line).opens = false := by
  unfold kindOutside
  split
  · rfl
  · split <;> rfl

/-- The HTML of a label is what the items say of it. -/
theorem htmlOf_items (indent : Nat) (label : String) {lines : List Line} {items : List Item}
    (h : ReadAs lines items) :
    htmlOf indent label false (readLines none lines) =
      items.flatMap fun item => htmlOf indent label false item.read := by
  induction h with
  | nil => rfl
  | block hread _ ih =>
    rw [hread, List.flatMap_cons, ← ih, Item.read, List.cons_append, htmlOf, htmlOf_closer, htmlOf,
      List.append_assoc]
  | line _ hitem hread _ ih =>
    rw [hread, List.flatMap_cons, ← ih, hitem]
    simp [htmlOf, opens_kindOutside]

/-- The lines of an item stand next to each other. -/
theorem ReadAs.isInfix_lines {lines : List Line} {items : List Item} (h : ReadAs lines items)
    {item : Item} (hitem : item ∈ items) : item.lines <:+: lines := by
  induction h with
  | nil => cases hitem
  | @block line closer inner rest label title items _ _ ih =>
    rcases List.mem_cons.mp hitem with rfl | hitem
    · exact List.IsPrefix.isInfix ⟨closer :: rest, rfl⟩
    · refine (ih hitem).trans (List.IsSuffix.isInfix ⟨line :: inner ++ [closer], ?_⟩)
      simp
  | line hline _ _ _ ih =>
    rcases List.mem_cons.mp hitem with rfl | hitem
    · rw [hline]
      exact List.IsPrefix.isInfix ⟨_, rfl⟩
    · exact (ih hitem).trans (List.suffix_cons _ _).isInfix

theorem blank_break (line : Line) : blank line.break = true := by
  rw [Line.break, blank, List.all_replicate]
  simp [show isBlank '\n' = true by decide]

/-- A line is blank if what is left of it without some indentation is. -/
theorem blank_drop {line : Line} {k : Nat} (hk : k ≤ line.indent) :
    blank (line.text.drop k ++ line.break) = line.isBlank := by
  have hindent : blank (line.text.take k) = true := by
    rw [indent_eq] at hk
    have hblank : line.text.take k <+: line.text.takeWhile isBlank := by
      refine List.prefix_of_prefix_length_le (List.take_prefix _ _) (List.takeWhile_prefix _) ?_
      exact (List.length_take_le _ _).trans hk
    rw [blank, List.all_eq_true]
    exact fun c hc => List.mem_takeWhile_imp (hblank.subset hc)
  have hsplit : blank line.text = (blank (line.text.take k) && blank (line.text.drop k)) := by
    rw [blank, ← List.take_append_drop k line.text, List.all_append]
    simp [blank]
  rw [Line.isBlank, hsplit, hindent, Bool.true_and, blank, List.all_append]
  change (_ && blank line.break) = _
  rw [blank_break, Bool.and_true]
  rfl

/-- A block of the expectations is said from the common indentation on. -/
theorem Cut.text_block {cut : Cut} {first : Line} {rest : List Line} (hcut : cut.expectations = true)
    (hin : ∀ line ∈ first :: rest, line.In cut.source) (hfollows : (first :: rest).IsChain Line.Follows)
    (label : Option String) (block : Bool) (title : Option String) :
    (cut.part (cut.startOf first) (cut.endOf ((first :: rest).getLastD first)) label block title).text =
      first.text.drop (min cut.indent first.indent) ++ first.break ++ rest.flatMap Line.whole := by
  have hlast : (first :: rest).getLast? = some ((first :: rest).getLastD first) := by
    rw [List.getLastD_eq_getLast?, List.getLast?_cons]
    rfl
  obtain ⟨hdrop, hnext⟩ := drop_start hin hfollows hlast
  have hslice := slice_of_drop hdrop (min cut.indent first.indent)
  rw [← hnext, List.flatMap_cons, Line.whole, List.append_assoc,
    List.drop_append_of_le_length (first.min_indent_le cut.indent)] at hslice
  rw [List.append_assoc, ← hslice]
  simp [Cut.part, Cut.startOf, Cut.endOf, hcut]

/-- The part of an item of the expectations says what its lines say. -/
theorem Cut.html_partsOf {cut : Cut} {item : Item} (hcut : cut.expectations = true)
    (hin : ∀ line ∈ item.lines, line.In cut.source) (hfollows : item.lines.IsChain Line.Follows)
    (label : String) :
    (cut.partsOf item).flatMap (Part.html label) = htmlOf cut.indent label false item.read := by
  cases item with
  | plain line =>
    simp [Cut.partsOf, Part.html, Cut.text_line (hin line (List.mem_singleton_self _)), hcut,
      blank_drop (Nat.min_le_right cut.indent line.indent), Item.read, htmlOf, LineKind.html]
  | condition l marker line =>
    simp [Cut.partsOf, Part.html, Cut.text_condition (hin line (List.mem_singleton_self _)), hcut,
      Item.read, htmlOf, LineKind.html]
  | block l title opener inner =>
    cases inner with
    | nil =>
      simp [Cut.partsOf, hcut, Part.html, Cut.part, Item.read, htmlOf, LineKind.html]
    | cons first rest =>
      have hinner : ∀ line ∈ first :: rest, line.In cut.source :=
        fun line hline => hin line (List.mem_cons_of_mem _ hline)
      have htext := Cut.text_block hcut hinner (List.isChain_of_isChain_cons hfollows) (some l) true title
      have hparts : cut.partsOf (.block l title opener (first :: rest)) = [cut.part (cut.startOf first)
          (cut.endOf ((first :: rest).getLastD first)) (some l) true title] := by
        simp [Cut.partsOf, hcut]
      have hread : htmlOf cut.indent label false (Item.block l title opener (first :: rest)).read =
          (LineKind.inner l).html cut.indent label true first ++
            htmlOf cut.indent label false (rest.map (·, .inner l)) := rfl
      rw [hparts, hread, htmlOf_inner, List.flatMap_singleton]
      rw [Part.html, htext]
      by_cases hl : l = label <;> simp [LineKind.html, hl]

/-- The parts of the expectations say what their lines say. -/
theorem html_section {source : List Char} {lines : List Line} {s : Section}
    (hlines : lines <:+: linesOf source) (h : Section.of source true lines = .ok s) (label : String) :
    s.parts.flatMap (Part.html label) =
      htmlOf (commonIndent (trimLines lines)) label false (readLines none (trimLines lines)) := by
  obtain ⟨items, hitems, hparts, -⟩ := section_eq_ok h
  have hread := readAs_of_itemsOf hitems
  have hbody := (isInfix_trimLines lines).trans hlines
  rw [hparts, List.flatMap_assoc, htmlOf_items _ label hread]
  refine List.flatMap_congr fun item hitem => ?_
  have hinside := (hread.isInfix_lines hitem).trans hbody
  exact @Cut.html_partsOf (cutOf source true lines) item rfl
    (fun line hline => linesOf_in (hinside.subset hline)) (follows_of_mid hinside) label

/-! ## Drafts without values -/

namespace Draft

/-- The text of all that is known. -/
def text (d : Draft) : List Char := d.lines.flatten.flatMap fun token => token.text.toList

theorem text_addLine (d : Draft) (line : List Token) :
    (d.addLine line).text = d.text ++ line.flatMap fun token => token.text.toList := by
  simp [text, addLine]

/-- A part without values adds its text. -/
theorem text_readPart {label : String} {d d' : Draft} {p : Part}
    (h : d.readPart label [] p = .ok d') : d'.text = d.text ++ p.html label := by
  unfold Draft.readPart at h
  unfold Part.html
  cases hlabel : p.label with
  | none =>
    simp only [hlabel] at h
    cases h
    rw [text_addLine]
    simp only [Part.share, List.filter_nil, applyRegexes, literalToken?]
    split <;> simp [Token.text]
  | some l =>
    simp only [hlabel] at h
    split at h
    · next hl =>
      cases h
      simp only [hl, if_true]
      rw [text_addLine]
      split <;> simp [text, Token.text]
    · next hl =>
      cases h
      simp [hl]

theorem text_read {label : String} {d d' : Draft} {parts : List Part}
    (h : d.read label [] parts = .ok d') : d'.text = d.text ++ parts.flatMap (Part.html label) := by
  induction parts generalizing d with
  | nil =>
    cases h
    simp
  | cons p parts ih =>
    obtain ⟨d₁, hpart, hrest⟩ := ok_of_bind h
    rw [ih hrest, text_readPart hpart, List.flatMap_cons, List.append_assoc]

end Draft

/-! ## Labels of lines -/

/-- A text that can be the label of a condition or of a block. -/
structure IsLabel (label : List Char) : Prop where
  ne_nil : label ≠ []
  chars : ∀ c ∈ label, isLabelChar c = true

/-- Conditions and openers have labels. -/
theorem isLabel_of_label? {text label rest : List Char} (h : label? text = some (label, rest)) :
    IsLabel label := by
  unfold label? at h
  split at h
  · next behind =>
    simp only at h
    split at h
    · cases h
    · next hne =>
      cases h
      exact ⟨by simpa using hne, fun c hc => List.mem_takeWhile_imp hc⟩
  · cases h

theorem isLabel_of_opener? {text label : List Char} {title : Option (List Char)}
    (h : opener? text = some (label, title)) : IsLabel label := by
  unfold opener? at h
  split at h
  · next l rest hlabel =>
    have hisLabel := isLabel_of_label? hlabel
    split at h
    · cases h
      exact hisLabel
    · simp only at h
      split at h
      · cases h
        exact hisLabel
      · cases h
  · cases h

theorem isLabel_of_condition? {text label : List Char} {marker : Nat}
    (h : condition? text = some (label, marker)) : IsLabel label := by
  unfold condition? at h
  split at h
  · next hlabel =>
    cases h
    exact isLabel_of_label? hlabel
  · next hlabel =>
    cases h
    exact isLabel_of_label? hlabel
  · next hlabel =>
    split at h
    · cases h
      exact isLabel_of_label? hlabel
    · cases h
  · cases h

/-- What lines bring are labels. -/
theorem isLabel_of_brings? {block : Option String} {lines : List Line} {row : Line × LineKind}
    {label : String} (hrow : row ∈ readLines block lines) (hlabel : row.2.brings? = some label) :
    IsLabel label.toList := by
  induction lines generalizing block with
  | nil => cases block <;> cases hrow
  | cons line lines ih =>
    cases block with
    | some l =>
      rw [readLines] at hrow
      split at hrow <;> rcases List.mem_cons.mp hrow with rfl | hrow
      · cases hlabel
      · exact ih hrow
      · cases hlabel
      · exact ih hrow
    | none =>
      cases hopener : opener? (trimStart line.text) with
      | some opened =>
        obtain ⟨l, title⟩ := opened
        rw [readLines_of_opener hopener] at hrow
        rcases List.mem_cons.mp hrow with rfl | hrow
        · cases hlabel
          simpa using isLabel_of_opener? hopener
        · exact ih hrow
      | none =>
        rw [readLines_of_no_opener hopener] at hrow
        rcases List.mem_cons.mp hrow with rfl | hrow
        · simp only [kindOutside] at hlabel
          split at hlabel
          · cases hlabel
          · split at hlabel
            · next l marker hcondition =>
              cases hlabel
              simpa using isLabel_of_condition? hcondition
            · cases hlabel
        · exact ih hrow

/-- No line brings the label of any label. -/
theorem anyLabel_notMem (lines : List Line) : anyLabel ∉ labelsIn (readLines none lines) := by
  intro hmem
  rw [labelsIn, List.mem_eraseDups, List.mem_filterMap] at hmem
  obtain ⟨row, hrow, hlabel⟩ := hmem
  have hstar := (isLabel_of_brings? hrow hlabel).chars '*' (by decide)
  exact absurd hstar (by decide)

/-! ## Specs without values -/

/-- The path in a file header. -/
def pathIn (header : Line) : String := String.ofList ((headerPath? header.trimmed).getD [])

theorem files_compile {source : Source} {full : Bool} {file : Option String} {compiled : CompiledSpec}
    (h : compile source full file = .ok compiled) : ∃ outline,
      Outline.of source.text full = .ok outline ∧
      compiled.files = Table.ofRows (outline.files.map fun row => (row.1, row.2.variants)) := by
  obtain ⟨outline, houtline, h⟩ := ok_of_bind h
  obtain ⟨compiled', hcompiled, h⟩ := ok_of_bind h
  obtain rfl : compiled' = compiled := by
    split at h
    · cases h
    · exact Except.ok.inj h
  refine ⟨outline, ok_of_locate houtline, ?_⟩
  unfold compileOutline at hcompiled
  cases hs : outline.expectations <;> rw [hs] at hcompiled <;>
    obtain ⟨⟨expects, left⟩, -, hleft⟩ := ok_of_bind hcompiled <;>
    cases left <;> cases hleft <;> rfl

/-- The expectations of a spec without values ask for what their lines say. -/
theorem expects_eq {source : Source} {s : Section} {lines : List Line} {expects : Table Expectation}
    (hfree : source.values = []) (hlines : lines <:+: linesOf source.text)
    (hof : Section.of source.text true lines = .ok s) (h : Routed source s expects) :
    expects.map (fun row => (row.1, row.2.plain?)) =
      (htmlIn lines).map fun row => (row.1, some row.2) := by
  obtain ⟨items, hitems, -, hlabels⟩ := section_eq_ok hof
  have hnames : s.labels = labelsIn (readLines none (trimLines lines)) := by
    rw [hlabels, labelsIn, filterMap_brings hitems]
  have hnodup : expects.keys.Nodup := by
    rw [h.keys, hlabels]
    exact nodup_eraseDups _
  have hrow : ∀ row ∈ expects, row.2.plain? = some (Html.normal (String.ofList
      (htmlOf (commonIndent (trimLines lines)) row.1 false (readLines none (trimLines lines))))) := by
    intro row hrow
    have hlabel : row.1 ∈ s.labels := h.keys ▸ List.mem_map_of_mem hrow
    obtain ⟨d, e, hread, hfinish, hget⟩ := h.label row.1 hlabel
    obtain rfl : row.2 = e := Option.some.inj ((Table.get?_of_mem hnodup hrow).symm.trans hget)
    rw [hfree] at hread
    rw [(Draft.literal_empty.read hread).finish hfinish]
    have htext := Draft.text_read hread
    rw [html_section hlines hof] at htext
    rw [← List.nil_append (htmlOf _ _ _ _), ← show Draft.empty.text = [] from rfl, ← htext, String.join_eq,
      Draft.text, List.map_map, List.flatMap_def]
    rfl
  rw [htmlIn, List.map_map, ← hnames, ← h.keys, Table.keys, List.map_map]
  exact List.map_congr_left fun row hmem => by rw [hrow row hmem]; rfl

/-- The files of a spec have what the lines of their sections say. -/
theorem files_outline {source : List Char} {full : Bool} {outline : Outline}
    (h : Outline.of source full = .ok outline) :
    outline.files.map (fun row => (row.1, row.2.variants)) =
      ((sectionLines (linesOf source)).filter (·.1.isHeader)).map
        fun s => (pathIn s.1, contentsIn s.2) := by
  have hrows : List.Forall₂ Eq
      (((sectionLines (linesOf source)).filter (·.1.isHeader)).map
        fun s => (pathIn s.1, contentsIn s.2))
      (outline.files.map fun row => (row.1, row.2.variants)) := by
    rw [List.forall₂_map_left_iff, List.forall₂_map_right_iff]
    refine ((List.forall₂_and_left _ _).mpr
      ⟨fun s hs => infix_of_mem_sectionLines (List.mem_filter.mp hs).1, (outline_files h).1⟩).imp ?_
    rintro s row ⟨hlines, hrow⟩
    obtain ⟨path, hpath, hfirst⟩ := hrow.path
    rw [variants_eq hlines hrow.content, hfirst, pathIn, hpath]
    rfl
  rw [List.forall₂_eq_eq_eq] at hrows
  exact hrows.symm

/-- A spec without values compiles to what its lines say: each file has the contents that its lines say,
no line brings the label that stands for any, and each label of the expectations asks for the HTML that
their lines say and for nothing else. -/
theorem denotation_compile {source : Source} {full : Bool} {file : Option String}
    {compiled : CompiledSpec} (hfree : source.values = [])
    (h : compile source full file = .ok compiled) :
    compiled.files = Table.ofRows (((sectionLines (linesOf source.text)).filter (·.1.isHeader)).map
        fun s => (pathIn s.1, contentsIn s.2)) ∧
      (∀ s ∈ sectionLines (linesOf source.text),
        anyLabel ∉ labelsIn (readLines none (trimLines s.2))) ∧
      compiled.expects.map (fun row => (row.1, row.2.plain?)) =
        ((sectionLines (linesOf source.text)).find? (·.1.separates)).toList.flatMap
          fun s => (htmlIn s.2).map fun row => (row.1, some row.2) := by
  obtain ⟨outline, houtline, hfiles⟩ := files_compile h
  obtain ⟨outline', houtline', hnone, hrouted⟩ := routed_compile (by rw [hfree]; exact .nil) h
  obtain rfl : outline = outline' := Except.ok.inj (houtline.symm.trans houtline')
  have hseparator := (outline_files houtline).2
  refine ⟨?_, fun s _ => anyLabel_notMem _, ?_⟩
  · rw [hfiles, files_outline houtline]
  · cases hs : outline.expectations with
    | none =>
      rw [hs] at hseparator
      rw [(hnone hs).2, List.forall₂_nil_right_iff.mp hseparator]
      rfl
    | some content =>
      rw [hs] at hseparator
      cases hfound : (sectionLines (linesOf source.text)).find? (·.1.separates) with
      | none =>
        rw [hfound] at hseparator
        cases hseparator
      | some s =>
        rw [hfound] at hseparator
        have hof := (List.forall₂_cons.mp hseparator).1
        have hlines := infix_of_mem_sectionLines (List.mem_of_find?_eq_some hfound)
        rw [Option.toList_some, List.flatMap_singleton]
        exact expects_eq hfree hlines hof (hrouted content hs)

/-- A file with a condition and a block, and expectations in lines and in a block. -/
def readableSource : Source where
  text := ("---- a.html ----\n\n  <b>\n    ::1 on\n  ::2::\n    off\n  ::\n  </b>\n\n---- b.js ----\nlet b\n" ++
    "***\n<b>\n::1:: first\n  <i>\n  </i>\n::::\n\n::2 <u>\n").toList
  values := []

theorem denotation_compile_readable : ∃ compiled,
    compile readableSource false none = .ok compiled ∧
    compiled.files = [("a.html", [("1", "<b>\non\n</b>"), ("2", "<b>\n  off\n</b>")]),
      ("b.js", [("*", "let b")])] ∧
    compiled.expects.map (fun row => (row.1, row.2.plain?)) =
      [("1", some "<b><i></i>"), ("2", some "<b><u>")] := by
  have hok : (compile readableSource false none).isOk = true := by decide +kernel
  cases hcompile : compile readableSource false none with
  | error fault =>
    rw [hcompile] at hok
    cases hok
  | ok compiled =>
    obtain ⟨hfiles, -, hexpects⟩ := denotation_compile rfl hcompile
    exact ⟨compiled, rfl, hfiles.trans (by decide +kernel), hexpects.trans (by decide +kernel)⟩

end HotSpec.Spec
