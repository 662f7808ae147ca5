import HotSpec.Proofs.Engine.Registering

/-!
# Registrations fold by label

The commands of the first phase may come in any order and number.  What they have registered in the
end is the same as if each label and each path had been looked at by itself: steps come one after
the other, and of all else the last word counts.

Main definitions:

- `Table.rowsOf`: the rows of a key.
- `Session.Folds`: a session as it comes of rows and files that are registered one after the other.

Main result:

- Theorem `registrations_fold`: at any time of a test, what is registered comes of the commands so far.
-/

namespace HotSpec

/-! ## Rows of a key -/

namespace Table

variable {α β : Type}

/-- What the rows of a key say, in order. -/
def rowsOf (key : String) (rows : List (String × α)) : List α :=
  (rows.filter fun row => row.1 = key).map Prod.snd

@[simp]
theorem rowsOf_nil (key : String) : rowsOf key ([] : List (String × α)) = [] := rfl

theorem rowsOf_append_single (key : String) (rows : List (String × α)) (row : String × α) :
    rowsOf key (rows ++ [row]) =
      if row.1 = key then rowsOf key rows ++ [row.2] else rowsOf key rows := by
  unfold rowsOf
  by_cases h : row.1 = key <;> simp [h]

/-- The last row of a path that is put is what is found there. -/
theorem get?_ofRows (rows : List (String × α)) (key : String) :
    (merge [] rows).get? key = (rowsOf key rows).getLast? := by
  induction rows using List.reverseRecOn with
  | nil => rfl
  | append_singleton rows row ih =>
      have hput : merge [] (rows ++ [row]) = (merge [] rows).put row.1 row.2 := by simp [merge]
      rw [hput, get?_put, rowsOf_append_single]
      split
      · rw [List.getLast?_concat]
      · exact ih

/-- A row more is registered last. -/
theorem register_append_single (rows : List (String × Expectation)) (row : String × Expectation) :
    (rows ++ [row]).foldl register [] = (rows.foldl register []).register row := by simp

/-- Labels are in the order in which they are mentioned first. -/
theorem keys_register (rows : List (String × Expectation)) :
    (rows.foldl register []).keys = (rows.map Prod.fst).eraseDups := by
  induction rows using List.reverseRecOn with
  | nil => rfl
  | append_singleton rows row ih =>
      rw [register_append_single, register, keys_put, ih, List.map_append, List.eraseDups_append]
      by_cases h : row.1 ∈ rows.map Prod.fst
      · rw [if_pos (List.mem_eraseDups.mpr h)]
        simp [List.removeAll, h]
      · rw [if_neg fun hmem => h (List.mem_eraseDups.mp hmem)]
        simp [List.removeAll, h, List.eraseDups_cons]

/-- Whatever of a merged expectation is made of the two parts is made, for a label, of its rows in
order. -/
theorem expectation_register (part : Expectation → β) (op : β → β → β)
    (hmerge : ∀ current later : Expectation,
      part (current.merge later) = op (part current) (part later))
    (hfirst : ∀ e : Expectation, part e = op (part .empty) (part e))
    (rows : List (String × Expectation)) (label : String) :
    part (((rows.foldl register []).get? label).getD .empty) =
      (rowsOf label rows).foldl (fun b e => op b (part e)) (part .empty) := by
  induction rows using List.reverseRecOn with
  | nil => rfl
  | append_singleton rows row ih =>
      obtain ⟨key, e⟩ := row
      rw [register_append_single, register, get?_put, rowsOf_append_single]
      by_cases h : key = label
      · subst h
        rw [if_pos rfl, if_pos rfl, List.foldl_append, ← ih]
        cases (rows.foldl register []).get? key with
        | none => exact hfirst e
        | some current => exact hmerge current e
      · rw [if_neg h, if_neg h]
        exact ih

end Table

/-- The last word among several that may say nothing. -/
theorem foldl_last {α β : Type} (f : α → Option β) (l : List α) :
    l.foldl (fun b a => f a <|> b) none = (l.filterMap f).getLast? := by
  induction l using List.reverseRecOn with
  | nil => rfl
  | append_singleton l a ih =>
      rw [List.foldl_append, List.filterMap_append, ih]
      cases hf : f a with
      | none => simp [hf]
      | some b => simp [hf]

/-! ## Sessions -/

/-- The title of an expectation, unless it is empty. -/
def Expectation.title? (e : Expectation) : Option String := e.title.filter (· ≠ "")

/-- A session as it comes of rows and files that are registered one after the other. -/
structure Session.Folds (s : Session) (rows : List (String × Expectation))
    (files : List (String × Table String)) : Prop where
  /-- Labels are in the order in which they are mentioned first. -/
  labels : s.expects.keys = (rows.map Prod.fst).eraseDups
  /-- The steps of a label are those of its rows, one after the other. -/
  steps : ∀ label, (s.expectation label).steps =
    (Table.rowsOf label rows).flatMap Expectation.steps
  /-- The hook before the steps is the last one that is set. -/
  before : ∀ label, (s.expectation label).before =
    ((Table.rowsOf label rows).filterMap Expectation.before).getLast?
  /-- The hook after the steps is the last one that is set. -/
  after : ∀ label, (s.expectation label).after =
    ((Table.rowsOf label rows).filterMap Expectation.after).getLast?
  /-- The title is the last one that is not empty. -/
  title : ∀ label, (s.expectation label).title? =
    ((Table.rowsOf label rows).filterMap Expectation.title?).getLast?
  /-- The contents of a path are those that were registered last. -/
  contents : ∀ path, s.specs.get? path = (Table.rowsOf path files).getLast?

/-- What is registered row by row folds by label. -/
theorem folds_of_registered {s : Session} {rows : List (String × Expectation)}
    {files : List (String × Table String)} (hrows : s.expects = rows.foldl Table.register [])
    (hfiles : s.specs = Table.merge [] files) : s.Folds rows files where
  labels := by rw [hrows, Table.keys_register]
  steps label := by
    unfold Session.expectation
    rw [hrows, Table.expectation_register Expectation.steps (· ++ ·) (fun _ _ => rfl)
      (fun e => rfl), List.flatMap_eq_foldl]
    rfl
  before label := by
    unfold Session.expectation
    rw [hrows, Table.expectation_register Expectation.before (fun b e => e <|> b) (fun _ _ => rfl)
      (fun e => by cases e.before <;> rfl)]
    exact foldl_last Expectation.before _
  after label := by
    unfold Session.expectation
    rw [hrows, Table.expectation_register Expectation.after (fun b e => e <|> b) (fun _ _ => rfl)
      (fun e => by cases e.after <;> rfl)]
    exact foldl_last Expectation.after _
  title label := by
    have hmerge (current later : Expectation) :
        (current.merge later).title? = (later.title? <|> current.title?) := by
      unfold Expectation.title? Expectation.merge
      cases hlater : later.title.filter (· ≠ "") with
      | none => rfl
      | some t => simpa using (Option.filter_eq_some_iff.mp hlater).2
    unfold Session.expectation
    rw [hrows, Table.expectation_register Expectation.title? (fun b e => e <|> b) hmerge
      (fun e => by cases e.title? <;> rfl)]
    exact foldl_last Expectation.title? _
  contents path := by rw [hfiles, Table.get?_ofRows]

/-- At any time of a test, what is registered comes of the commands that handlers of the first phase
have got so far, in any order and number: the labels are in the order of their first mention, the
steps of a label are those of all commands, of hooks, titles and files the last ones count. -/
theorem registrations_fold {setup : TestSetup} {g : Generator} {m : Machine}
    (h : setup.Reaches g m) :
    m.world.session.Folds (m.world.prepared.flatMap (·.rows setup.file))
      (m.world.prepared.flatMap (·.files setup.file)) := by
  obtain ⟨hrows, hfiles, -⟩ := h.registered
  exact folds_of_registered hrows hfiles

/-- A script that mentions two labels, the second one in three commands and a file in between. -/
def registeringScript : Script :=
  let ask (r : Request) : Instr := .ask r false none
  let idle : Value := .callback ⟨"idle", [], none, none, .nothing⟩
  [ask (.expect (.list [.list [.text "b", idle], .list [.text "a", idle]]) .nothing),
    ask (.hook false (.text "a") idle),
    ask (.spec (.dict [(.text "f", .dict [(.text "a", .text "x")])])),
    ask (.expect (.text "a") idle)]

/-- Four commands of a script, and what they come to. -/
theorem registrations_fold_script :
    (TestSetup.plainRun registeringScript 12).world.prepared.length = 4 ∧
      (TestSetup.plainRun registeringScript 12).world.session.expects.keys = ["b", "a"] ∧
      (TestSetup.plainRun registeringScript 12).world.session.Folds
        ((TestSetup.plainRun registeringScript 12).world.prepared.flatMap
          (·.rows TestSetup.plain.file))
        ((TestSetup.plainRun registeringScript 12).world.prepared.flatMap
          (·.files TestSetup.plain.file)) := by
  refine ⟨by decide +kernel, by decide +kernel, ?_⟩
  exact registrations_fold (TestSetup.reaches_plainRun registeringScript 12)

end HotSpec
