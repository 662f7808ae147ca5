import HotSpec.Proofs.Console.Epochs

/-!
# Commands on what is ignored

A command says which warnings, or which errors, of the console are ignored.  One with a flag takes the
place of what has been said before; one with a list adds to a list, and takes the place of a flag.  So a
list extends what is ignored, unless everything is: then only what the list matches is left.

Main definitions:

- `IgnoreCommand`: a command on what is ignored, with the phase that handles it.
- `World.ignoring`: a world after such a command.
- `ConsolePolicy.of`: the policy on the messages of one type.

Main results:

- Theorem `Policy.ignores_extend_list_iff`: what is ignored after a list.
- Theorem `Policy.keeps_iff`: when a list leaves everything ignored that was.
- Theorem `World.console_of_foldl`: the policies that a sequence of commands leads to.
- Theorem `World.ignored_after_list`: a list after any sequence of commands.
-/

namespace HotSpec

/-! ## A list after a policy -/

namespace Policy

variable {current : Policy} {ms : List Matcher} {text : String}

/-- A list matches a text if one of its matchers accepts it. -/
def Matches (ms : List Matcher) (text : String) : Prop := ∃ m ∈ ms, m.accepts text = true

theorem ignores_list_iff : (Policy.list ms).ignores text = true ↔ Matches ms text :=
  List.any_eq_true

/-- After a list that is ignored which the list matches, and what was ignored before; but nothing is left
of a flag that ignored everything. -/
theorem ignores_extend_list_iff (current : Policy) (ms : List Matcher) (text : String) :
    (current.extend (.list ms)).ignores text = true ↔
      Matches ms text ∨ current ≠ .flag true ∧ current.ignores text = true := by
  cases current with
  | list before =>
    rw [ignores_extend_list, Bool.or_eq_true, ignores_list_iff, ignores_list_iff]
    simp [or_comm]
  | flag all =>
    rw [extend, matchers, List.nil_append, ignores_list_iff]
    cases all <;> simp [ignores]

/-- A list leaves everything ignored that was, unless it takes the place of a flag that ignored what the
list does not match. -/
theorem keeps_iff (current : Policy) (ms : List Matcher) :
    (∀ text, current.ignores text = true → (current.extend (.list ms)).ignores text = true) ↔
      (current = .flag true → ∀ text, Matches ms text) := by
  simp only [ignores_extend_list_iff]
  constructor
  · rintro h rfl text
    exact (h text rfl).resolve_right fun hleft => hleft.1 rfl
  · intro h text hignored
    by_cases hall : current = .flag true
    · exact .inl (h hall text)
    · exact .inr ⟨hall, hignored⟩

/-- A policy is a flag if and only if the last command was this flag. -/
theorem foldl_extend_eq_flag_iff (changes : List Policy) (all : Bool) :
    changes.foldl extend (.list []) = .flag all ↔ changes.getLast? = some (.flag all) := by
  rcases List.eq_nil_or_concat' changes with rfl | ⟨before, last, rfl⟩
  · simp
  · rw [List.foldl_concat, List.getLast?_concat, Option.some_inj]
    cases last <;> simp [extend]

end Policy

/-- The policy on errors, or on warnings. -/
def ConsolePolicy.of (p : ConsolePolicy) (errors : Bool) : Policy :=
  if errors then p.errors else p.warnings

/-- A command changes the policy on the messages of its own type. -/
theorem ConsolePolicy.of_extend (p : ConsolePolicy) (errors : Bool) (change : Policy) (errors' : Bool) :
    (p.extend errors change).of errors' =
      if errors = errors' then (p.of errors').extend change else p.of errors' := by
  cases errors <;> cases errors' <;> rfl

/-! ## Commands -/

/-- A command on the errors, or the warnings, that are ignored, in the phase that handles it. -/
structure IgnoreCommand where
  phase : Phase
  errors : Bool
  change : Policy

/-- What the commands on the messages of one type say, in their order. -/
def IgnoreCommand.changesOf (errors : Bool) (commands : List IgnoreCommand) : List Policy :=
  (commands.filter (·.errors = errors)).map IgnoreCommand.change

namespace World

variable {w₀ : World}

/-- A world after a command on what is ignored. -/
def ignoring (w : World) (c : IgnoreCommand) : World :=
  ((Move.handle c.phase (.ignore c.errors c.change)).run w).2

theorem console_ignoring (w : World) (c : IgnoreCommand) :
    (w.ignoring c).session.console = w.session.console.extend c.errors c.change := by
  obtain ⟨phase, errors, change⟩ := c
  cases phase <;> rfl

/-- The policies that a sequence of commands leads to: those on the messages of one type are put
together from the commands on them. -/
theorem console_of_foldl (w : World) (commands : List IgnoreCommand) (errors : Bool) :
    (commands.foldl ignoring w).session.console.of errors =
      (IgnoreCommand.changesOf errors commands).foldl Policy.extend (w.session.console.of errors) := by
  induction commands generalizing w with
  | nil => rfl
  | cons c commands ih =>
    rw [List.foldl_cons, ih, console_ignoring, ConsolePolicy.of_extend]
    by_cases h : c.errors = errors <;> simp [IgnoreCommand.changesOf, h]

/-- A list of texts and regexes after any commands on what is ignored.  From then on a text is ignored if
the list matches it, or if it was ignored and not as everything was; what is ignored of the other type
of messages stays the same.  So everything that was ignored still is, unless everything was and the list
does not match all of it; and everything is ignored if and only if the last command on this type said so. -/
theorem ignored_after_list (h₀ : w₀.session.console = .strict) (commands : List IgnoreCommand)
    (phase : Phase) (errors : Bool) (ms : List Matcher) :
    let w := commands.foldl ignoring w₀
    let before := w.session.console.of errors
    let after := (w.ignoring ⟨phase, errors, .list ms⟩).session.console.of errors
    (∀ text, after.ignores text = true ↔
      Policy.Matches ms text ∨ before ≠ .flag true ∧ before.ignores text = true) ∧
    (w.ignoring ⟨phase, errors, .list ms⟩).session.console.of (!errors) =
      w.session.console.of (!errors) ∧
    ((∀ text, before.ignores text = true → after.ignores text = true) ↔
      (before = .flag true → ∀ text, Policy.Matches ms text)) ∧
    (before = .flag true ↔
      (IgnoreCommand.changesOf errors commands).getLast? = some (.flag true)) := by
  intro w before after
  have hafter : after = before.extend (.list ms) := by
    simp only [after, before]
    rw [console_ignoring, ConsolePolicy.of_extend, if_pos rfl]
  rw [hafter]
  refine ⟨before.ignores_extend_list_iff ms, ?_, before.keeps_iff ms, ?_⟩
  · rw [console_ignoring, ConsolePolicy.of_extend]
    exact if_neg (by simp)
  · have hnothing : w₀.session.console.of errors = .list [] := by
      rw [h₀]
      cases errors <;> rfl
    simp only [before, w]
    rw [console_of_foldl, hnothing]
    exact Policy.foldl_extend_eq_flag_iff _ true

/-- A list after a list leaves everything ignored that was. -/
theorem ignored_after_lists :
    let w₀ := start default (.start .standard default none)
    let w := [⟨.run, true, .list [.text "a"]⟩].foldl ignoring w₀
    let w' := w.ignoring ⟨.run, true, .list [.text "b"]⟩
    w₀.session.console = .strict ∧ ∀ text, (w.session.console.of true).ignores text = true →
      (w'.session.console.of true).ignores text = true := by
  intro w₀ w w'
  have hstrict : w₀.session.console = .strict := rfl
  have hkept := (ignored_after_list hstrict [⟨.run, true, .list [.text "a"]⟩] .run true
    [.text "b"]).2.2.1
  refine ⟨hstrict, hkept.mpr fun hall => ?_⟩
  cases hall

/-- A list after a flag that ignores everything: a warning that was ignored before is not any more. -/
theorem not_ignored_after_flag :
    let w := [⟨.run, false, .flag true⟩].foldl ignoring (start default (.start .standard default none))
    (w.session.console.of false).ignores "b" = true ∧
      ((w.ignoring ⟨.run, false, .list [.text "a"]⟩).session.console.of false).ignores "b" =
        false :=
  ⟨rfl, rfl⟩

end World

end HotSpec
