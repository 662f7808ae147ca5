import HotSpec.Proofs.Engine.Sights

/-!
# What a script and its drivers say to each other

A script says what it wants to have done, and hears what became of it.  The rules of this talk know
nothing of tasks, pages and waits, and nothing of the two drivers that own the script in turn: there
is one thing said at a time, it is resolved once, and its outcome is what the script hears next.

Main definitions:

- `Word`: what is said.
- `Registry.resolve`: how something that a script says is to be resolved.
- `Talk`, `Talk.Step`, `Talk.Run`: where a talk stands, and how it goes on.
- `Machine.words`, `Machine.Tells`, `Machine.said`: what is said in a step and in a run.

Main results:

- Theorem `process_cases`: what becomes of something that a script has said in a phase.
-/

namespace HotSpec

/-! ## Talks -/

/-- What is said between a script and its drivers. -/
inductive Word
  /-- The script is resumed with a reply. -/
  | hears (reply : Reply)
  /-- The script yields something. -/
  | yields (y : Yielded)
  /-- The script ends. -/
  | ends (reply : Reply)
  /-- The handler of a phase gets a command for what the script has yielded. -/
  | handled (phase : Phase) (c : Command)
  /-- What the script has yielded has come to an outcome. -/
  | settled (o : Outcome)

/-- Whether a word is none of a script that goes on: it is told of an outcome, and ends. -/
def Word.isReport : Word → Bool
  | .hears _ | .ends _ | .settled _ => true
  | .yields _ | .handled .. => false

/-- How something is to be resolved that is said in a phase: the phase from then on, and the command
for the handler of that phase, or the reason why there is none.  A command without a handler of the
first phase leads to the second. -/
def Registry.resolve (r : Registry) (phase : Phase) (y : Yielded) : Phase × Except Fault Command :=
  match y.toCommand with
  | .error fault => (phase, .error fault)
  | .ok c =>
    match r.get c.type with
    | .error fault => (phase, .error fault)
    | .ok phases =>
      let phase := if phases.init then phase else .run
      (phase, if phases.has phase then .ok c else .error (.usage (.beforeLoadOnly c.type)))

/-- Where a talk stands. -/
inductive Talk
  /-- The script is to hear a reply. -/
  | due (phase : Phase) (reply : Reply)
  /-- The script has heard a reply. -/
  | heard (phase : Phase)
  /-- The script has said something that is still to be resolved. -/
  | asked (phase : Phase) (y : Yielded)
  /-- A handler has what the script has said. -/
  | busy (phase : Phase)
  /-- The script is over. -/
  | gone (reply : Reply)

namespace Talk

variable {r : Registry} {talk talk₁ talk₂ : Talk} {words words' : List Word}

/-- How a talk goes on. -/
inductive Step (r : Registry) : Talk → Word → Talk → Prop
  | hears {phase reply} : Step r (.due phase reply) (.hears reply) (.heard phase)
  /-- Nothing is answered with nothing. -/
  | nothing {phase} : Step r (.heard phase) (.yields (.value .nothing)) (.due phase (.ok .nothing))
  | yields {phase y} (h : y ≠ .value .nothing) : Step r (.heard phase) (.yields y) (.asked phase y)
  | ends {phase reply} : Step r (.heard phase) (.ends reply) (.gone reply)
  /-- What has no handler is a misuse. -/
  | refused {phase phase' y cause} (h : r.resolve phase y = (phase', .error (.usage cause))) :
      Step r (.asked phase y) (.settled (.fault (.usage cause)))
        (.due phase' (.error (.usage cause)))
  | handled {phase phase' y c} (h : r.resolve phase y = (phase', .ok c)) :
      Step r (.asked phase y) (.handled phase' c) (.busy phase')
  /-- What comes of the command is what the script is to hear. -/
  | settled {phase reply} : Step r (.busy phase) (.settled (.ofReply reply)) (.due phase reply)
  /-- A script that is over says nothing any more, whatever it is told. -/
  | gone {reply word} (h : word.isReport = true) : Step r (.gone reply) word (.gone reply)

/-- How a talk goes on for a while. -/
inductive Run (r : Registry) : Talk → List Word → Talk → Prop
  | nil {talk : Talk} : Run r talk [] talk
  | cons {talk talk₁ talk₂ : Talk} {word : Word} {words : List Word} (h : Step r talk word talk₁)
      (rest : Run r talk₁ words talk₂) : Run r talk (word :: words) talk₂

theorem Run.append (h : Run r talk words talk₁) (h' : Run r talk₁ words' talk₂) :
    Run r talk (words ++ words') talk₂ := by
  induction h with
  | nil => exact h'
  | cons hstep _ ih => exact .cons hstep (ih h')

theorem Run.single {word : Word} (h : Step r talk word talk₁) : Run r talk [word] talk₁ :=
  .cons h .nil

end Talk

/-! ## Resolutions -/

namespace Registry

variable {r : Registry} {phase phase' : Phase} {y : Yielded} {c : Command} {fault : Fault}

/-- Whether a command leads from the first phase to the second. -/
def Moves (r : Registry) (c : Command) : Prop :=
  ∃ phases, r.get c.type = .ok phases ∧ phases.init = false

theorem usage_of_toCommand (h : y.toCommand = .error fault) : ∃ cause, fault = .usage cause := by
  cases y with
  | command c => cases h
  | value v =>
      change (if v.isCallable = true then Except.ok _ else _) = _ at h
      split at h
      · cases h
      · cases h
        exact ⟨_, rfl⟩

theorem usage_of_get {type : String} (h : r.get type = .error fault) :
    ∃ cause, fault = .usage cause := by
  unfold get at h
  split at h
  · cases h
  · cases h
    exact ⟨_, rfl⟩

/-- A command that leads to the second phase is resolved there. -/
theorem resolve_of_moves (hy : y.toCommand = .ok c) (hc : r.Moves c) :
    r.resolve .prepare y = r.resolve .run (.command c) := by
  obtain ⟨phases, hget, hinit⟩ := hc
  have hcommand : (Yielded.command c).toCommand = .ok c := rfl
  simp [resolve, hy, hcommand, hget, hinit]

end Registry

/-! ## Words of a machine -/

/-- What a script says when it is resumed. -/
def Advance.word : Advance → Word
  | .yields y => .yields y
  | .ends reply => .ends reply

/-- What is said of a command that a handler gets. -/
def Event.handled? : Event → Option Word
  | .handled phase c => some (.handled phase c)
  | _ => none

/-- What is said of handlers between two worlds. -/
def World.handled (w w' : World) : List Word :=
  (w'.events.drop w.events.length).filterMap Event.handled?

/-- Whether a frame takes the outcome of what the script of the test has said. -/
def Frame.answers : Frame → Bool
  | .firstDone => true
  | .answer _ g => g == scriptNumber
  | _ => false

namespace Machine

/-- What is said in the next step of a machine. -/
def words (m : Machine) : List Word :=
  match m.current with
  | some (_, .work (.resume _ g reply) _) =>
    if g = scriptNumber then [.hears reply, (m.world.advance g reply).1.word] else []
  | some (_, .work (.process p y) (f :: _)) =>
    if f.answers then m.world.handled ((Move.process p y).run m.world).2 else []
  | some (_, .outcome o (f :: _)) => if f.answers then [.settled o] else []
  | _ => []

/-- What is said between two machines, step after step. -/
inductive Tells : Machine → List Word → Machine → Prop
  | refl (m : Machine) : Tells m [] m
  | step {m m₁ m₂ : Machine} {words : List Word} (first : Tells m words m₁) (h : m₁.step = some m₂) :
      Tells m (words ++ m₁.words) m₂

theorem Tells.steps {m m' : Machine} {words : List Word} (h : m.Tells words m') : m.Steps m' := by
  induction h with
  | refl => exact .refl _
  | step _ hstep ih => exact ih.trans (.single hstep)

/-- What is said in a number of steps, or up to the point where nothing is left to happen. -/
def said : (steps : Nat) → Machine → List Word
  | 0, _ => []
  | steps + 1, m =>
    match m.step with
    | none => []
    | some m' => m.words ++ said steps m'

theorem Tells.trans {m₁ m₂ m₃ : Machine} {words words' : List Word} (h₁ : m₁.Tells words m₂)
    (h₂ : m₂.Tells words' m₃) : m₁.Tells (words ++ words') m₃ := by
  induction h₂ with
  | refl => rwa [List.append_nil]
  | step _ hstep ih =>
      rw [← List.append_assoc]
      exact ih.step hstep

theorem tells_after (n : Nat) (m : Machine) : m.Tells (said n m) (after n m) := by
  induction n generalizing m with
  | zero => exact .refl m
  | succ n ih =>
      unfold said after
      cases hstep : m.step with
      | none => exact .refl m
      | some m' =>
          have hfirst : m.Tells m.words m' := Tells.step (.refl m) hstep
          exact hfirst.trans (ih m')

end Machine

/-! ## What is recorded by a handler -/

/-- What is recorded of a handler is that it got its command, before anything that is minor. -/
theorem World.handled_of_history {w w' : World} {phase : Phase} {c : Command} {new : List Event}
    (h : w'.history = new ++ .handled phase c :: w.history) (hnew : ∀ e ∈ new, e.isMinor = true) :
    w.handled w' = [.handled phase c] := by
  have hdrop : w'.events.drop w.events.length = .handled phase c :: new.reverse := by
    unfold events
    rw [h, List.reverse_append, List.reverse_cons, List.append_assoc,
      List.drop_left' (by simp)]
    rfl
  have hnone : new.reverse.filterMap Event.handled? = [] := by
    rw [List.filterMap_eq_nil_iff]
    intro e he
    have hminor := hnew e (List.mem_reverse.mp he)
    cases e <;> first | rfl | cases hminor
  unfold handled
  rw [hdrop, List.filterMap_cons, hnone]
  rfl

/-- Whether a move records minor events only. -/
def Move.Minor (move : Move) : Prop :=
  ∀ w : World, ∃ new, (move.run w).2.history = new ++ w.history ∧ ∀ e ∈ new, e.isMinor = true

namespace Move.Minor

variable {α : Type}

theorem pure (turn : Turn) : Minor (return turn) := fun _ => ⟨[], rfl, by simp⟩

theorem get {f : World → Move} (h : ∀ w, Minor (f w)) : Minor (MonadState.get >>= f) :=
  fun w => h w w

/-- A change that records nothing comes before more. -/
theorem changing {g : World → World} {f : PUnit → Move} (hg : ∀ w, (g w).history = w.history)
    (h : Minor (f ⟨⟩)) : Minor (modify g >>= f) := by
  intro w
  obtain ⟨new, hnew, hminor⟩ := h (g w)
  exact ⟨new, hnew.trans (by rw [hg]), hminor⟩

theorem ofEngine {e : Engine Turn} (he : Engine.Acting e) : Minor (Move.ofEngine e) := by
  intro w
  have hworld : ((Move.ofEngine e).run w).2 = (e.exec w).2 := by
    simp only [Move.ofEngine, StateT.run, bind, StateT.bind, Engine.exec, ExceptT.run]
    rcases e w with ⟨r | r, w'⟩ <;> rfl
  rw [hworld]
  exact (he.acts w).steady.history

theorem giving {e : Engine Value} (he : Engine.Setting e) : Minor (Move.giving e) :=
  fun w => (he w).steady.history

theorem callAndAwait (f : Value) (args : List Value) : Minor (Move.callAndAwait f args) :=
  ofEngine ((Engine.acting_call f args).bind fun _ => .pure _)

theorem awaitOperand (operand : Value) : Minor (Move.awaitOperand operand) := by
  refine ofEngine ?_
  split
  · exact .fail _
  · refine (Engine.acting_call operand []).bind fun called => ?_
    cases called with
    | value v => exact .fail _
    | awaitable a => exact .pure _

theorem runNamed (type : String) : Minor (Move.runNamed type) := by
  unfold Move.runNamed
  split
  · split
    · exact get fun _ => changing (fun _ => rfl) (changing (fun _ => rfl) (pure _))
    · exact pure _
  · split
    · exact pure _
    · split
      · exact changing (fun _ => rfl) (pure _)
      · exact giving (Engine.setting_configure _)

theorem runCommand (c : Command) : Minor (Move.runCommand c) := by
  cases c with
  | discard => exact changing (fun _ => rfl) (pure _)
  | flush | consoleWait => exact pure _
  | change target =>
      cases target with
      | label label => exact pure _
      | files files => exact ofEngine ((Engine.acting_changedFiles files).bind fun _ => .pure _)
  | page path args options => exact giving (Engine.acting_reach _ _ _).setting
  | innerText selector => exact get fun _ => pure _
  | call f => exact get fun _ => callAndAwait f _
  | effect e => exact giving (Engine.acting_apply e).setting
  | named type => exact runNamed type
  | _ => exact giving (Engine.setting_configure _)

end Move.Minor

/-- The handler of a phase gets its command, and nothing else is said of handlers. -/
theorem handled_handle (phase : Phase) (c : Command) (w : World) :
    w.handled ((Move.handle phase c).run w).2 = [.handled phase c] := by
  have hminor : ∃ rest, (Move.handle phase c).run w = rest.run (w.record (.handled phase c)) ∧
      Move.Minor rest := by
    refine ⟨_, rfl, ?_⟩
    split
    · exact .pure _
    · exact .awaitOperand _
    · exact .giving (Engine.setting_prepare _)
    · exact .runCommand _
  obtain ⟨rest, hrun, hrest⟩ := hminor
  obtain ⟨new, hnew, hevents⟩ := hrest (w.record (.handled phase c))
  rw [hrun]
  exact World.handled_of_history hnew hevents

/-- A command is resolved by the phases that its type is registered for. -/
theorem run_resolve (phase : Phase) (c : Command) (w : World) : (Move.resolve phase c).run w =
    (match w.session.registry.get c.type with
    | .error fault => return .fail fault
    | .ok phases =>
      if phases.has phase then Move.handle phase c
      else
        match phase with
        | .prepare => return .call (.start (some c)) []
        | .run => return .fail (.usage (.beforeLoadOnly c.type)) : Move).run w := rfl

/-- What a script has said in a phase is refused at once, or gets to a handler of that phase, or
leads from the first phase to the second. -/
theorem process_cases (phase : Phase) (y : Yielded) (w : World) :
    (∃ cause, w.session.registry.resolve phase y = (phase, .error (.usage cause)) ∧
      (Move.process (.phase phase) y).run w = (.fail (.usage cause), w)) ∨
    (∃ c, w.session.registry.resolve phase y = (phase, .ok c) ∧
      (Move.process (.phase phase) y).run w = (Move.handle phase c).run w) ∨
    (∃ c, phase = .prepare ∧ y.toCommand = .ok c ∧ w.session.registry.Moves c ∧
      (Move.process (.phase phase) y).run w = (.call (.start (some c)) [], w)) := by
  cases hy : y.toCommand with
  | error fault =>
      obtain ⟨cause, rfl⟩ := Registry.usage_of_toCommand hy
      refine .inl ⟨cause, by simp only [Registry.resolve, hy], ?_⟩
      simp only [Move.process, hy]
      rfl
  | ok c =>
      have hrun : (Move.process (.phase phase) y).run w = (Move.resolve phase c).run w := by
        simp only [Move.process, hy]
      rw [hrun, run_resolve]
      cases hget : w.session.registry.get c.type with
      | error fault =>
          obtain ⟨cause, rfl⟩ := Registry.usage_of_get hget
          exact .inl ⟨cause, by simp only [Registry.resolve, hy, hget], rfl⟩
      | ok phases =>
          cases phase with
          | prepare =>
              by_cases hinit : phases.init = true
              · refine .inr (.inl ⟨c, ?_, ?_⟩)
                · simp [Registry.resolve, hy, hget, hinit, Phases.has]
                · simp [Phases.has, hinit]
              · have hinit : phases.init = false := by simpa using hinit
                refine .inr (.inr ⟨c, rfl, rfl, ⟨phases, hget, hinit⟩, ?_⟩)
                simp only [Phases.has, hinit]
                rfl
          | run =>
              by_cases hrun : phases.run = true
              · refine .inr (.inl ⟨c, ?_, ?_⟩)
                · simp [Registry.resolve, hy, hget, hrun, Phases.has]
                · simp [Phases.has, hrun]
              · have hrun : phases.run = false := by simpa using hrun
                refine .inl ⟨.beforeLoadOnly c.type, ?_, ?_⟩
                · simp [Registry.resolve, hy, hget, hrun, Phases.has]
                · simp only [Phases.has, hrun]
                  rfl

end HotSpec
