import HotSpec.Proofs.Expectation.Trace

/-!
# What commands register

Each command of the first phase registers something in a way of its own: the expectations of a
compiled spec are merged with those of the same labels, steps are appended, a hook takes the place of
the one before.  All of these are the registration of rows, each a label with an expectation, one
after the other.

Main definitions:

- `Table.register`: an expectation is registered for a label.
- `Command.rows`, `Command.files`: the expectations and the files that a command registers.
- `World.prepared`: the commands that handlers of the first phase have got.

Main results:

- Theorem `registers_prepare`: a handler of the first phase registers the rows and the files of its
  command, and nothing else changes them.
- Theorem `Reaches.registered`: at any time, what is registered is what the commands so far have
  registered, in their order.
-/

namespace HotSpec

/-! ## Rows -/

namespace Expectation

/-- An expectation of a single step. -/
def ofStep (step : Step) : Expectation := ⟨none, none, none, [step]⟩

/-- An expectation that has a hook only. -/
def ofHook (after : Bool) (sub : Value) : Expectation :=
  if after then ⟨none, none, some sub, []⟩ else ⟨none, some sub, none, []⟩

theorem merge_ofHook (e : Expectation) (after : Bool) (sub : Value) : e.merge (ofHook after sub) =
    if after then { e with after := some sub } else { e with before := some sub } := by
  cases after <;> simp [merge, ofHook]

end Expectation

/-- An expectation is registered for a label: it is merged with the one that the label has. -/
def Table.register (expects : Table Expectation) (row : String × Expectation) : Table Expectation :=
  expects.put row.1 <|
    match expects.get? row.1 with
    | some current => current.merge row.2
    | none => row.2

/-- Steps that are appended to labels, up to the first value that is no step. -/
def stepRows : List (String × Value) → List (String × Expectation)
  | [] => []
  | (label, expected) :: pairs =>
    match Step.ofExpectation expected with
    | .ok step => (label, .ofStep step) :: stepRows pairs
    | .error _ => []

/-- Values that are all steps are registered pair by pair, in their order. -/
theorem stepRows_of_ok {pairs : List (String × Value)} {steps : List Step}
    (h : pairs.mapM (fun pair => Step.ofExpectation pair.2) = .ok steps) :
    stepRows pairs = (pairs.map Prod.fst).zip (steps.map Expectation.ofStep) := by
  induction pairs generalizing steps with
  | nil => rfl
  | cons pair pairs ih =>
      obtain ⟨label, expected⟩ := pair
      rw [List.mapM_cons] at h
      unfold stepRows
      cases hstep : Step.ofExpectation expected with
      | error fault =>
          rw [hstep] at h
          cases h
      | ok step =>
          rw [hstep] at h
          cases hrest : pairs.mapM fun pair => Step.ofExpectation pair.2 with
          | error fault =>
              rw [hrest] at h
              cases h
          | ok rest =>
              rw [hrest] at h
              cases h
              simp only
              rw [ih hrest]
              rfl

namespace Command

/-- The expectations that a command registers, by label. -/
def rows (file : Option String) : Command → List (String × Expectation)
  | .spec source =>
    match Spec.compile source false file with
    | .error _ => []
    | .ok compiled => compiled.expects
  | .setSpec compiled => compiled.expects
  | .expect pairs => stepRows pairs
  | .hook after label sub => [(label, .ofHook after sub)]
  | _ => []

/-- The contents of files that a command registers, by path. -/
def files (file : Option String) : Command → List (String × Table String)
  | .spec source =>
    match Spec.compile source false file with
    | .error _ => []
    | .ok compiled => compiled.files
  | .mapping contents =>
    match Engine.fileVariants file contents with
    | .error _ => []
    | .ok files => files
  | .setSpec compiled => compiled.files
  | _ => []

/-- A command that waits registers nothing. -/
theorem rows_of_waits {c : Command} (h : Phase.prepare.sets c = false) (file : Option String) :
    c.rows file = [] ∧ c.files file = [] := by
  cases c <;> first | exact ⟨rfl, rfl⟩ | cases h

end Command

/-! ## Handlers -/

/-- Whether a world has registered some rows and files since another one, and nothing else of their
kind. -/
structure World.Registers (rows : List (String × Expectation)) (files : List (String × Table String))
    (w w' : World) : Prop where
  expects : w'.session.expects = rows.foldl Table.register w.session.expects
  specs : w'.session.specs = w.session.specs.merge files
  file : w'.session.file = w.session.file

namespace World.Registers

variable {w w₁ w₂ w₃ : World} {rows rows₁ rows₂ : List (String × Expectation)}
  {files files₁ files₂ : List (String × Table String)}

theorem of_preparation (h : w₂.session.preparation = w₁.session.preparation)
    (hfile : w₂.session.file = w₁.session.file) : w₁.Registers [] [] w₂ where
  expects := congrArg Preparation.expects h
  specs := congrArg Preparation.specs h
  file := hfile

theorem refl (w : World) : w.Registers [] [] w := of_preparation rfl rfl

theorem of_acts (h : w₁.Acts w₂) : w₁.Registers [] [] w₂ :=
  of_preparation h.preparation h.steady.session.file

theorem trans (h₁ : w₁.Registers rows₁ files₁ w₂) (h₂ : w₂.Registers rows₂ files₂ w₃) :
    w₁.Registers (rows₁ ++ rows₂) (files₁ ++ files₂) w₃ where
  expects := by rw [h₂.expects, h₁.expects, List.foldl_append]
  specs := by
    rw [h₂.specs, h₁.specs]
    unfold Table.merge
    rw [List.foldl_append]
  file := h₂.file.trans h₁.file

/-- What changes neither specs nor expectations comes after more. -/
theorem then_nothing (h₁ : w₁.Registers rows files w₂) (h₂ : w₂.Registers [] [] w₃) :
    w₁.Registers rows files w₃ := by simpa using h₁.trans h₂

end World.Registers

namespace Engine

/-- What comes before an empty reply decides whether there is one. -/
theorem exec_nothing (e : Engine Unit) (w : World) :
    exec (do e; return Value.nothing) w =
      ((exec e w).1.map fun _ => .nothing, (exec e w).2) := by
  rw [exec_bind]
  rcases exec e w with ⟨_ | _, w'⟩ <;> rfl

theorem registers_install (w : World) (spec : CompiledSpec) :
    w.Registers spec.expects spec.files (exec (install spec) w).2 := by
  have hfold (rows : List (String × Expectation)) (s : Session) :
      rows.foldl (fun s row => s.mergeExpectation row.1 row.2) s =
        { s with expects := rows.foldl Table.register s.expects } := by
    induction rows generalizing s with
    | nil => rfl
    | cons row rows ih => exact ih (s.mergeExpectation row.1 row.2)
  have hsession : (exec (install spec) w).2.session = w.session.install spec := rfl
  constructor <;> rw [hsession, Session.install, hfold]

/-- Steps that are appended are registered, as far as they are steps. -/
theorem exec_addSteps (pairs : List (String × Value)) (w : World) :
    exec (addSteps pairs) w =
      ((pairs.mapM fun pair => Step.ofExpectation pair.2).map fun _ => (),
        w.withSession fun s =>
          { s with expects := (stepRows pairs).foldl Table.register s.expects }) := by
  induction pairs generalizing w with
  | nil => rfl
  | cons pair pairs ih =>
      obtain ⟨label, expected⟩ := pair
      unfold addSteps stepRows
      rw [exec_bind, exec_ofExcept, List.mapM_cons]
      cases Step.ofExpectation expected with
      | error fault => rfl
      | ok step =>
          simp only
          rw [exec_bind, exec_change]
          simp only
          rw [ih]
          refine Prod.ext ?_ ?_
          · cases pairs.mapM fun pair => Step.ofExpectation pair.2 <;> rfl
          · have hregister : w.session.expects.register (label, .ofStep step) =
                w.session.expects.put label ((w.session.expectation label).addStep step) := by
              unfold Table.register Session.expectation
              cases w.session.expects.get? label <;> rfl
            simp only [World.withSession, List.foldl_cons, hregister]

theorem exec_setHook (after : Bool) (label : String) (sub : Value) (w : World) :
    exec (setHook after label sub) w = (.ok (), w.withSession fun s =>
      { s with expects := s.expects.register (label, .ofHook after sub) }) := by
  unfold setHook
  rw [exec_change]
  have hregister : w.session.expects.register (label, .ofHook after sub) =
      w.session.expects.put label ((w.session.expectation label).merge (.ofHook after sub)) := by
    unfold Table.register Session.expectation
    cases w.session.expects.get? label with
    | some current => rfl
    | none => cases after <;> rfl
  rw [Expectation.merge_ofHook] at hregister
  simp only [World.withSession, hregister]

/-- Initial files: those that can be called become templates, up to the first call that fails. -/
theorem preparation_initialFiles (files changes inits : Table Value) (w : World) :
    ∃ front back, inits = front ++ back ∧
      (exec (initialFiles files changes inits) w).2.session.preparation =
        { w.session.preparation with
          templates := w.session.templates.merge (front.filter fun row => row.2.isCallable) } ∧
      ∀ divided, (exec (initialFiles files changes inits) w).1 = .ok divided → back = [] := by
  induction inits generalizing files changes w with
  | nil => exact ⟨[], [], rfl, rfl, fun _ _ => rfl⟩
  | cons row rest ih =>
      obtain ⟨path, value⟩ := row
      unfold initialFiles
      by_cases hcall : value.isCallable = true
      · rw [if_pos hcall, exec_bind, exec_change]
        simp only
        rw [exec_bind]
        have hacts := ((acting_content value []).acts
          (w.withSession fun s => { s with templates := s.templates.put path value })).preparation
        rcases hexec : exec (content value [])
          (w.withSession fun s => { s with templates := s.templates.put path value }) with
          ⟨fault | text, w₁⟩
        · rw [hexec] at hacts
          refine ⟨[(path, value)], rest, rfl, ?_, by rintro _ ⟨⟩⟩
          rw [List.filter_cons_of_pos (by exact hcall)]
          exact hacts
        · rw [hexec] at hacts
          obtain ⟨front, back, hrest, hprep, hok⟩ := ih (files.put path text) changes w₁
          refine ⟨(path, value) :: front, back, by rw [hrest]; rfl, ?_, hok⟩
          have htemplates : w₁.session.templates = w.session.templates.put path value :=
            congrArg Preparation.templates hacts
          simp only
          rw [hprep, hacts, htemplates]
          simp [hcall, Table.merge, Session.preparation, World.withSession]
      · rw [if_neg hcall]
        obtain ⟨front, back, hrest, hprep, hok⟩ := ih files (changes.put path value) w
        refine ⟨(path, value) :: front, back, by rw [hrest]; rfl, ?_, hok⟩
        rw [hprep]
        simp [hcall]

/-- Initial files leave all that is registered but the templates and the initial files. -/
theorem preparation_initFiles (inits : Table Value) (w : World) :
    ∃ front back inits', inits = front ++ back ∧
      (exec (initFiles inits) w).2.session.preparation =
        { w.session.preparation with
          templates := w.session.templates.merge (front.filter fun row => row.2.isCallable)
          inits := inits' } ∧
      ((∃ fault, (exec (initFiles inits) w).1 = .error fault) → inits' = w.session.inits) := by
  obtain ⟨front, back, hinits, hprep, -⟩ := preparation_initialFiles [] [] inits w
  unfold initFiles
  rw [exec_bind]
  rcases hdivide : exec (initialFiles [] [] inits) w with ⟨fault | ⟨files, changes⟩, w₁⟩
  · rw [hdivide] at hprep
    exact ⟨front, back, w.session.inits, hinits, hprep, fun _ => rfl⟩
  · rw [hdivide] at hprep
    simp only
    rw [exec_bind]
    have hacts := ((acting_changedFiles changes).acts w₁).preparation
    rcases hchanged : exec (changedFiles changes) w₁ with ⟨fault | changed, w₂⟩
    · rw [hchanged] at hacts
      exact ⟨front, back, w.session.inits, hinits, hacts.trans hprep, fun _ => rfl⟩
    · rw [hchanged] at hacts
      refine ⟨front, back, w₂.session.inits.merge (files.merge changed), hinits, ?_, ?_⟩
      · exact congrArg (fun p : Preparation =>
          { p with inits := w₂.session.inits.merge (files.merge changed) }) (hacts.trans hprep)
      · rintro ⟨fault, ⟨⟩⟩

theorem exec_initLabel (label : String) (w : World) : exec (initLabel label) w =
    match w.session.initLabel with
    | some previous => (.error (.usage (.repeatedInit previous)), w)
    | none => (.ok (), w.withSession fun s =>
        { s with initLabel := some label, inits := s.inits.merge (w.labelFiles label) }) := by
  unfold initLabel
  rw [exec_bind, exec_get]
  simp only
  cases w.session.initLabel <;> rfl

theorem registers_configure (c : Command) (w : World) :
    w.Registers [] [] (exec (configure c) w).2 := by
  cases c with
  | templates table => exact ⟨rfl, rfl, rfl⟩
  | ignore errors policy => exact ⟨rfl, rfl, rfl⟩
  | _ => exact .of_acts (acting_configure (by simp) (by simp) w)

theorem registers_init (target : Target) (w : World) :
    w.Registers [] [] (exec (prepare (.init target)) w).2 := by
  cases target with
  | label label =>
      change w.Registers [] [] (exec (do initLabel label; return Value.nothing) w).2
      rw [exec_nothing, exec_initLabel]
      cases w.session.initLabel with
      | some previous => exact .refl w
      | none => exact ⟨rfl, rfl, rfl⟩
  | files inits =>
      change w.Registers [] [] (exec (do initFiles inits; return Value.nothing) w).2
      rw [exec_nothing]
      obtain ⟨front, back, inits', -, hprep, -⟩ := preparation_initFiles inits w
      exact ⟨congrArg Preparation.expects hprep, congrArg Preparation.specs hprep,
        (setting_initFiles inits w).steady.session.file⟩

/-- A handler of the first phase registers the rows and the files of its command. -/
theorem registers_prepare (c : Command) (w : World) :
    w.Registers (c.rows w.session.file) (c.files w.session.file) (exec (prepare c) w).2 := by
  have hconfigure {c : Command} (hrun : exec (prepare c) w = exec (configure c) w)
      (hrows : c.rows w.session.file = []) (hfiles : c.files w.session.file = []) :
      w.Registers (c.rows w.session.file) (c.files w.session.file) (exec (prepare c) w).2 := by
    rw [hrun, hrows, hfiles]
    exact registers_configure c w
  cases c with
  | spec source =>
      simp only [prepare, exec_bind, exec_get, exec_ofExcept, Command.rows, Command.files]
      cases hcompile : Spec.compile source false w.session.file with
      | error fault => exact .refl w
      | ok compiled => exact registers_install w compiled
  | mapping contents =>
      simp only [prepare, exec_bind, exec_get, exec_ofExcept, Command.rows, Command.files]
      cases hfiles : fileVariants w.session.file contents with
      | error fault => exact .refl w
      | ok files => exact registers_install w ⟨none, files, []⟩
  | setSpec compiled => exact registers_install w compiled
  | expect pairs =>
      change w.Registers (stepRows pairs) [] (exec (do addSteps pairs; return Value.nothing) w).2
      rw [exec_nothing, exec_addSteps]
      exact ⟨rfl, rfl, rfl⟩
  | hook after label sub =>
      change w.Registers [(label, .ofHook after sub)] []
        (exec (do setHook after label sub; return Value.nothing) w).2
      rw [exec_nothing, exec_setHook]
      exact ⟨rfl, rfl, rfl⟩
  | init target => exact registers_init target w
  | beforeLoad sub => exact ⟨rfl, rfl, rfl⟩
  | _ => exact hconfigure (by simp only [prepare, exec_bind, exec_get]) rfl rfl

end Engine

/-! ## Steps -/

/-- The command that a handler of the first phase has got. -/
def Event.prepared? : Event → Option Command
  | .handled .prepare c => some c
  | _ => none

theorem Event.prepared?_of_minor {e : Event} (h : e.isMinor = true) : e.prepared? = none := by
  cases e <;> first | rfl | cases h

namespace World

variable {w w' w₁ w₂ w₃ : World}

/-- The commands that handlers of the first phase have got, in order. -/
def prepared (w : World) : List Command := w.trace Event.prepared?

/-- Whether no handler of the first phase has got a command since another world, and nothing was
registered. -/
structure Idles (w w' : World) : Prop extends w.Registers [] [] w' where
  prepared : w'.prepared = w.prepared

namespace Idles

theorem refl (w : World) : w.Idles w := ⟨.refl w, rfl⟩

theorem trans (h₁ : w₁.Idles w₂) (h₂ : w₂.Idles w₃) : w₁.Idles w₃ :=
  ⟨h₁.toRegisters.then_nothing h₂.toRegisters, h₂.prepared.trans h₁.prepared⟩

theorem of_acts (h : w₁.Acts w₂) : w₁.Idles w₂ := by
  obtain ⟨new, hnew, hminor⟩ := h.steady.history
  exact ⟨.of_acts h, trace_append _ hnew fun e he => Event.prepared?_of_minor (hminor e he)⟩

/-- An event is recorded, and what is not registered by commands changes. -/
theorem note {e : Event} (he : e.prepared? = none) (hhistory : w₂.history = e :: w₁.history)
    (hprep : w₂.session.preparation = w₁.session.preparation)
    (hfile : w₂.session.file = w₁.session.file) : w₁.Idles w₂ := by
  refine ⟨.of_preparation hprep hfile, ?_⟩
  unfold World.prepared
  rw [trace_record _ e hhistory, he]
  exact List.append_nil _

/-- What is not registered by commands changes. -/
theorem silent (hhistory : w₂.history = w₁.history)
    (hprep : w₂.session.preparation = w₁.session.preparation)
    (hfile : w₂.session.file = w₁.session.file) : w₁.Idles w₂ :=
  ⟨.of_preparation hprep hfile, trace_congr _ hhistory⟩

end Idles

theorem Advances.idles {g : Nat} {adv : Advance} (h : w.Advances g adv w') : w.Idles w' := by
  have hprogress (w : World) (p : Progress) : w.Idles (w.setProgress g p) := by
    unfold setProgress
    split
    · exact .silent rfl rfl rfl
    · exact .refl w
  cases h with
  | stays h => exact .of_acts h
  | ends h => exact (Idles.of_acts h).trans (hprogress _ _)
  | @yields w₁ p y h =>
      have hyield : (w₁.setProgress g p).Idles ((w₁.setProgress g p).record (.yielded g y)) :=
        .note (e := .yielded g y) rfl rfl rfl rfl
      exact ((Idles.of_acts h).trans (hprogress _ _)).trans hyield

end World

theorem Asks.idles {head : Head} {w w' : World} {turn : Turn} (h : Asks head w turn w') :
    w.Idles w' := by
  cases h with
  | start => exact .note (e := .log _) rfl rfl rfl rfl
  | opened => exact .note (e := .opened _) rfl rfl rfl rfl
  | together hsubs hrun =>
      rw [World.spawnAll_world hrun]
      exact .silent rfl rfl rfl
  | _ => exact .silent rfl rfl rfl

/-- A command that a handler of the first phase gets at a head. -/
inductive Head.Prepares : Head → Command → Prop
  | process {p y c} (hp : p.phase? = some .prepare) (hy : y.toCommand = .ok c) :
      Prepares (.work (.process p y)) c

/-- Whether a handler of the first phase has got one command since another world, and has registered
what this registers. -/
structure World.Prepared (c : Command) (w w' : World) : Prop
    extends w.Registers (c.rows w.session.file) (c.files w.session.file) w' where
  prepared : w'.prepared = w.prepared ++ [c]

theorem World.Prepared.then_idles {c : Command} {w₁ w₂ w₃ : World} (h₁ : World.Prepared c w₁ w₂)
    (h₂ : w₂.Idles w₃) : World.Prepared c w₁ w₃ :=
  ⟨h₁.toRegisters.then_nothing h₂.toRegisters, h₂.prepared.trans h₁.prepared⟩

/-- What handlers do at once, seen by what is registered. -/
theorem World.Answers.registers {w w' : World} {phase : Phase} {c : Command} {r : Reply}
    (h : w.Answers phase c r w') :
    (phase = .run → w.Registers [] [] w') ∧
    (phase = .prepare → w.Registers (c.rows w.session.file) (c.files w.session.file) w') := by
  cases h with
  | acts hset h =>
      refine ⟨fun _ => .of_acts h, ?_⟩
      rintro rfl
      obtain ⟨hrows, hfiles⟩ := Command.rows_of_waits hset w.session.file
      rw [hrows, hfiles]
      exact .of_acts h
  | sets hset =>
      refine ⟨?_, ?_⟩
      · rintro rfl
        exact Engine.registers_configure c w
      · rintro rfl
        exact Engine.registers_prepare c w

/-- A rule registers nothing, unless a handler of the first phase gets a command. -/
theorem Rule.registers {head : Head} {w w' : World} {turn : Turn} (h : Rule head w turn w') :
    w.Idles w' ∨ ∃ c, head.Prepares c ∧ World.Prepared c w w' := by
  have hnote {e : Event} (he : e.prepared? = none) : w.Idles (w.record e) :=
    .note he rfl rfl rfl
  -- A handler gets its command, and minor events follow.
  have hhandled {c : Command} (hsteady : (w.record (.handled .prepare c)).Steady w') :
      w'.prepared = w.prepared ++ [c] := by
    obtain ⟨new, hnew, hminor⟩ := hsteady.history
    have hrecord : (w.record (.handled .prepare c)).prepared = w.prepared ++ [c] :=
      World.trace_record Event.prepared? (.handled .prepare c) rfl
    rw [← hrecord]
    exact World.trace_append _ hnew fun e he => Event.prepared?_of_minor (hminor e he)
  have hran {c : Command} (hsteady : (w.record (.handled .run c)).Steady w') :
      w'.prepared = w.prepared := by
    obtain ⟨new, hnew, hminor⟩ := hsteady.history
    rw [← (hnote (e := .handled .run c) rfl).prepared]
    exact World.trace_append _ hnew fun e he => Event.prepared?_of_minor (hminor e he)
  cases h with
  | asks h => exact .inl h.idles
  | reply r hhead h => exact .inl (.of_acts h)
  | pass hf h => exact .inl (.of_acts h)
  | call hcall h => exact .inl (.of_acts h)
  | resume h => exact .inl h.idles
  | @answered p y phase c _ _ r hp hy hc h =>
      cases phase with
      | prepare =>
          have hregisters := h.registers.2 rfl
          exact .inr ⟨c, .process hp hy, ⟨⟨hregisters.expects, hregisters.specs, hregisters.file⟩,
            hhandled h.steady⟩⟩
      | run =>
          have hregisters := h.registers.1 rfl
          exact .inl ⟨⟨hregisters.expects, hregisters.specs, hregisters.file⟩, hran h.steady⟩
  | @commanded p y phase c _ _ _ _ hp hy hcall h =>
      cases phase with
      | prepare =>
          have hwaits : Phase.prepare.sets c = false := by cases hcall <;> rfl
          obtain ⟨hrows, hfiles⟩ := Command.rows_of_waits hwaits w.session.file
          refine .inr ⟨c, .process hp hy, ⟨?_, hhandled h.steady⟩⟩
          rw [hrows, hfiles]
          exact .of_preparation h.preparation h.steady.session.file
      | run => exact .inl ((hnote (e := .handled .run c) rfl).trans (.of_acts h))
  | discarded hp hy hc => exact .inl (.note (e := .handled .run _) rfl rfl rfl rfl)
  | met hsettled => exact .inl (.silent rfl rfl rfl)
  | unheard => exact .inl (.silent rfl rfl rfl)
  | @raced o =>
      cases o with
      | value v => exact .inl (hnote rfl)
      | fault f => exact .inl (hnote rfl)
      | stopped => exact .inl (.refl w)
  | load h => exact .inl (.of_acts h)
  | ready hlabel h => exact .inl (hnote rfl)
  | checked hlabel h => exact .inl (hnote rfl)
  | unchecked f hlabel h hother => exact .inl (.note (e := .ready) rfl rfl rfl rfl)
  | @popped until? last label e queue _ h =>
      exact .inl (.note (e := .popped label) rfl rfl rfl rfl)
  | @writing until? last label e queue _ h =>
      have hpop : w.Idles (w.popping label queue) := .note (e := .popped label) rfl rfl rfl rfl
      exact .inl (hpop.trans (.note (e := .writing label) rfl rfl rfl rfl))
  | written => exact .inl (hnote rfl)
  | verifyHook => exact .inl (hnote rfl)
  | verify h => exact .inl (hnote rfl)
  | assertedLast => exact .inl (hnote rfl)
  | assertedNext h => exact .inl (hnote rfl)
  | assertedNot h => exact .inl (hnote rfl)
  | changed h => exact .inl (hnote rfl)
  | _ => exact .inl (.refl w)

namespace Machine

variable {m m' : Machine}

/-- Whatever the scheduler has to handle registers nothing. -/
theorem idles_handle (w : World) (h : Handle Job) : w.Idles (Machine.handle w h).world := by
  have hturn (t : TaskId) (o : Outcome) : w.Idles (beginTurn w t o).world := by
    unfold beginTurn
    split
    · exact .refl w
    · exact .silent rfl rfl rfl
  cases h with
  | turn t => exact hturn t .finished
  | wake t f => exact hturn t _
  | told | release => exact .silent rfl rfl rfl
  | job job =>
      cases job with
      | act actions => exact .of_acts (Engine.acting_perform actions w)
      | expire error =>
          exact .of_acts (World.acts_tell w (.expired error))

/-- A step registers nothing, unless a handler of the first phase gets a command. -/
theorem registers_of_step (h : m.step = some m') :
    m.world.Idles m'.world ∨
    ∃ (t : TaskId) (head : Head) (stack : List Frame) (c : Command),
      m.current = some (t, head.control stack) ∧ head.Prepares c ∧
        World.Prepared c m.world m'.world := by
  rcases step_cases h with ⟨t, head, stack, turn, w', hcurrent, hrule, rfl⟩ |
    ⟨t, o, hcurrent, rfl⟩ | ⟨handle, scheduler, hidle, hnext, rfl⟩
  · rw [world_follow]
    rcases hrule.registers with hidles | ⟨c, hc, hprepared⟩
    · exact .inl (hidles.trans (.silent rfl rfl rfl))
    · exact .inr ⟨t, head, stack, c, hcurrent, hc, hprepared.then_idles (.silent rfl rfl rfl)⟩
  · exact .inl (.silent rfl rfl rfl)
  · have hidles : m.world.Idles { m.world with scheduler } := .silent rfl rfl rfl
    exact .inl (hidles.trans (idles_handle _ handle))

end Machine

/-! ## Runs -/

namespace TestSetup

variable {setup : TestSetup} {g : Generator} {m : Machine}

/-- At any time, what is registered is what the commands so far have registered, in their order. -/
theorem Reaches.registered (h : setup.Reaches g m) :
    m.world.session.expects =
        (m.world.prepared.flatMap (·.rows setup.file)).foldl Table.register [] ∧
      m.world.session.specs = Table.merge [] (m.world.prepared.flatMap (·.files setup.file)) ∧
      m.world.session.file = setup.file := by
  induction h with
  | refl => exact ⟨rfl, rfl, rfl⟩
  | @tail m₁ m₂ hfirst hlast ih =>
      obtain ⟨hexpects, hspecs, hfile⟩ := ih
      rcases Machine.registers_of_step hlast with hidles | ⟨t, head, stack, c, -, -, hprepared⟩
      · rw [hidles.prepared]
        exact ⟨hidles.expects.trans hexpects, hidles.specs.trans hspecs, hidles.file.trans hfile⟩
      · rw [hprepared.prepared]
        refine ⟨?_, ?_, hprepared.file.trans hfile⟩
        · rw [hprepared.expects, hexpects, hfile, List.flatMap_append, List.foldl_append]
          simp
        · rw [hprepared.specs, hspecs, hfile, List.flatMap_append]
          simp [Table.merge]

end TestSetup

end HotSpec
