import HotSpec.Proofs.Engine.Registering
import HotSpec.Proofs.Engine.Sights
import HotSpec.Proofs.Script.Progress
import HotSpec.Proofs.Spec.NormalSteps

/-!
# Whatever is registered is in normal form

Steps come from compiled specs and from values that are given as steps.  Both are brought into normal
form where they are made, and from there on they are only moved: a full spec waits in the script that
registers it, and merging puts steps behind steps.

Main definitions:

- `Command.IsNormal`: a command that registers nothing but steps in normal form.
- `Machine.IsNormal`: a machine in which all commands on their way are of this kind.

Main results:

- Theorem `IsNormal.step`: every step keeps a machine so.
- Theorem `registered_settled`: the HTML of every registered step is in normal form.
-/

namespace HotSpec

/-! ## Commands -/

/-- Whether a command registers nothing but steps in normal form. -/
def Command.IsNormal (c : Command) : Prop := ∀ file, ∀ row ∈ c.rows file, row.2.IsNormal

namespace Command

theorem isNormal_stepRows (pairs : List (String × Value)) :
    ∀ row ∈ stepRows pairs, row.2.IsNormal := by
  induction pairs with
  | nil => simp [stepRows]
  | cons pair pairs ih =>
      obtain ⟨label, expected⟩ := pair
      unfold stepRows
      cases hstep : Step.ofExpectation expected with
      | error fault => simp
      | ok step =>
          intro row hrow
          rcases List.mem_cons.mp hrow with rfl | hrow
          · intro s hs
            rw [List.mem_singleton.mp hs]
            exact Step.isNormal_ofExpectation hstep
          · exact ih row hrow

/-- A command that installs no compiled spec compiles or converts what it registers. -/
theorem isNormal_of_ne {c : Command} (h : ∀ spec, c ≠ .setSpec spec) : c.IsNormal := by
  intro file
  cases c with
  | setSpec compiled => exact absurd rfl (h compiled)
  | spec source =>
      cases hcompile : Spec.compile source false file with
      | error fault => simp [rows, hcompile]
      | ok compiled => simpa [rows, hcompile] using Spec.isNormal_compile hcompile
  | expect pairs => exact isNormal_stepRows pairs
  | hook after label sub =>
      intro row hrow
      rw [List.mem_singleton.mp hrow]
      cases after <;> simp [Expectation.ofHook, Expectation.IsNormal]
  | _ => simp [rows]

end Command

/-- Whether what a script yields stands for a command that registers nothing but steps in normal
form. -/
def Yielded.IsNormal (y : Yielded) : Prop := ∀ c, y.toCommand = .ok c → c.IsNormal

theorem Yielded.isNormal_of_ne {y : Yielded} (h : ∀ spec, y ≠ .command (.setSpec spec)) :
    y.IsNormal := by
  intro c hc
  refine Command.isNormal_of_ne ?_
  rintro spec rfl
  cases y with
  | command c =>
      cases hc
      exact h spec rfl
  | value v =>
      have hcall : Command.ofValue v = .ok (.setSpec spec) := hc
      unfold Command.ofValue at hcall
      split at hcall
      · cases Except.ok.inj hcall
      · cases hcall

/-! ## Requests -/

namespace Making

variable {α β : Type}

/-- Whether all that is made has a property. -/
def Yields (P : α → Prop) (m : Making α) : Prop :=
  ∀ maker a maker', m.run maker = .ok (a, maker') → P a

theorem Yields.pure {P : α → Prop} {a : α} (h : P a) : Yields P (Pure.pure a) := by
  rintro maker b maker' ⟨⟩
  exact h

theorem Yields.bind {P : β → Prop} {m : Making α} {f : α → Making β} (h : ∀ a, Yields P (f a)) :
    Yields P (m >>= f) := by
  intro maker b maker' hrun
  rw [StateT.run_bind] at hrun
  obtain ⟨made, -, hrest⟩ := Spec.ok_of_bind hrun
  exact h made.1 made.2 b maker' hrest

/-- A command that is made of checked parts. -/
theorem Yields.command {P : Yielded → Prop} {result : Except Fault Command}
    (h : ∀ c, result = .ok c → P (.command c)) : Yields P (Request.build.command result) := by
  intro maker y maker' hrun
  cases result with
  | error fault => cases hrun
  | ok c =>
      cases hrun
      exact h c rfl

end Making

/-- What is made of accepted data. -/
theorem of_toExcept_map {α β : Type} {checked : Checked α} {f : α → β} {b : β}
    (h : (checked.map f).toExcept = .ok b) : ∃ a, b = f a := by
  cases checked with
  | error reasons => cases h
  | ok a =>
      cases h
      exact ⟨a, rfl⟩

theorem ne_setSpec_of_toExcept {α : Type} {checked : Checked α} {f : α → Command} {c : Command}
    (h : (checked.map f).toExcept = .ok c) (hf : ∀ a spec, f a ≠ .setSpec spec) :
    ∀ spec, c ≠ .setSpec spec := by
  obtain ⟨a, rfl⟩ := of_toExcept_map h
  exact hf a

/-! ### Commands of several forms -/

theorem ne_setSpec_of_specCommand {v : Value} {c : Command} (h : specCommand v = .ok c) :
    ∀ spec, c ≠ .setSpec spec := by
  unfold specCommand at h
  split at h
  · exact ne_setSpec_of_toExcept h (by simp)
  · cases hsource : Spec.Source.of v with
    | error fault =>
        rw [hsource] at h
        cases h
    | ok source =>
        rw [hsource] at h
        cases h
        simp

theorem ne_setSpec_of_expectCommand {label expected : Value} {c : Command}
    (h : expectCommand label expected = .ok c) : ∀ spec, c ≠ .setSpec spec := by
  have hpairs (hc : pairsCommand label = .ok c) : ∀ spec, c ≠ .setSpec spec := by
    unfold pairsCommand at hc
    split at hc
    · cases hc
    · obtain ⟨pairs, -, hc⟩ := Spec.ok_of_bind hc
      exact ne_setSpec_of_toExcept hc (by simp)
  unfold expectCommand at h
  split at h
  · split at h
    · exact hpairs h
    · exact hpairs h
    · exact hpairs h
    · cases h
  · exact ne_setSpec_of_toExcept h (by simp)

theorem ne_setSpec_of_templatesCommand {v : Value} {c : Command}
    (h : templatesCommand v = .ok c) : ∀ spec, c ≠ .setSpec spec := by
  unfold templatesCommand at h
  split at h
  · exact ne_setSpec_of_toExcept h (by simp)
  · cases h

theorem ne_setSpec_of_waitCommand {v : Value} {c : Command} (h : waitCommand v = .ok c) :
    ∀ spec, c ≠ .setSpec spec := by
  unfold waitCommand at h
  split at h
  · exact ne_setSpec_of_toExcept h (by simp)
  · exact ne_setSpec_of_toExcept h (by simp)
  · cases h
    simp

theorem ne_setSpec_of_pageCommand {path : List String} {args : List Value}
    {options : Table Value} {c : Command} (h : pageCommand path args options = .ok c) :
    ∀ spec, c ≠ .setSpec spec := by
  unfold pageCommand at h
  split at h
  · cases h
  · cases h
    simp

theorem ne_setSpec_of_consoleWaitOf {matchers : List Value} {timeout : Option Value} {c : Command}
    (h : (consoleWaitOf matchers timeout).toExcept = .ok c) : ∀ spec, c ≠ .setSpec spec := by
  unfold consoleWaitOf at h
  simp only at h
  split at h
  · cases h
    simp
  · exact ne_setSpec_of_toExcept h (by simp)

/-- No request of a script asks for a compiled spec. -/
theorem ne_setSpec_of_build (r : Request) :
    Making.Yields (fun y => ∀ spec, y ≠ .command (.setSpec spec)) r.build := by
  have hcommand {result : Except Fault Command}
      (h : ∀ c, result = .ok c → ∀ spec, c ≠ .setSpec spec) :
      Making.Yields (fun y => ∀ spec, y ≠ .command (.setSpec spec))
        (Request.build.command result) :=
    .command fun c hc spec heq => h c hc spec (Yielded.command.inj heq)
  -- Checked parts make a command of another kind.
  have hchecked {α : Type} {checked : Checked α} {f : α → Command}
      (hf : ∀ a spec, f a ≠ .setSpec spec) :
      Making.Yields (fun y => ∀ spec, y ≠ .command (.setSpec spec))
        (Request.build.command (checked.map f).toExcept) :=
    hcommand fun c hc => ne_setSpec_of_toExcept hc hf
  cases r with
  | bare v => exact .bind fun v => .pure (by simp)
  | effect | flush | discard | debug => exact .pure (by simp)
  | spec v => exact .bind fun v => hcommand fun c => ne_setSpec_of_specCommand
  | expect label expected =>
      exact .bind fun label => .bind fun expected => hcommand fun c => ne_setSpec_of_expectCommand
  | hook after label sub => exact .bind fun label => .bind fun sub => hchecked (by simp)
  | init v => exact .bind fun v => hchecked (by simp)
  | change v => exact .bind fun v => hchecked (by simp)
  | templates v => exact .bind fun v => hcommand fun c => ne_setSpec_of_templatesCommand
  | wait v => exact .bind fun v => hcommand fun c => ne_setSpec_of_waitCommand
  | page path args options =>
      exact .bind fun args => .bind fun options => hcommand fun c => ne_setSpec_of_pageCommand
  | innerText v => exact .bind fun v => hchecked (by simp)
  | beforeLoad v => exact .bind fun v => hchecked (by simp)
  | ignore errors matchers => exact .bind fun items => hchecked (by simp)
  | consoleWait matchers timeout =>
      refine .bind fun items => ?_
      cases timeout with
      | none => exact .bind fun t => hcommand fun c => ne_setSpec_of_consoleWaitOf
      | some v => exact .bind fun t => hcommand fun c => ne_setSpec_of_consoleWaitOf
  | named v => exact .bind fun v => hchecked (by simp)

/-- What is made by an engine has what all that is made has. -/
theorem of_exec_make {α : Type} {P : α → Prop} {m : Making α} (h : Making.Yields P m)
    {w w' : World} {a : α} (hexec : (Engine.make m).exec w = (.ok a, w')) : P a := by
  unfold Engine.make at hexec
  rw [Engine.exec_bind, Engine.exec_get] at hexec
  simp only [Engine.exec_bind, Engine.exec_ofExcept] at hexec
  cases hrun : m.run ⟨w.generators.length, []⟩ with
  | error fault =>
      rw [hrun] at hexec
      cases hexec
  | ok made =>
      obtain ⟨b, maker⟩ := made
      rw [hrun] at hexec
      cases hexec
      exact h _ _ _ hrun

/-! ## Scripts -/

/-- Whether a script has nothing but such commands left, if it is made of commands. -/
def Progress.IsNormal : Progress → Prop
  | .commands rest => ∀ c ∈ rest, c.IsNormal
  | _ => True

/-- Whether what a script comes to is such a command, if it is a command. -/
def Advance.IsNormal : Advance → Prop
  | .yields y => y.IsNormal
  | .ends _ => True

namespace World

/-- Whether all scripts that have begun have nothing but such commands left. -/
def IsNormal (w : World) : Prop := ∀ s ∈ w.generators, s.progress.IsNormal

variable {w w' : World}

theorem Act.isNormal (h : w.Act w') (hw : w.IsNormal) : w'.IsNormal := by
  unfold IsNormal
  cases h with
  | begin r =>
      intro s hs
      rcases List.mem_append.mp hs with hs | hs
      · exact hw s hs
      · rw [List.mem_singleton.mp hs]
        trivial
  | tell signal =>
      rw [generators_tellMonitor]
      exact hw
  | signal =>
      rw [generators_settle]
      exact hw
  | meet | release =>
      rw [generators_settle]
      exact hw
  | _ => exact hw

theorem Sets.isNormal (h : w.Sets w') (hw : w.IsNormal) : w'.IsNormal :=
  h.keeps (R := fun w w' => w.IsNormal → w'.IsNormal) (fun _ => id) (fun h₁ h₂ => h₂ ∘ h₁)
    Act.isNormal (fun _ _ => id) hw

theorem isNormal_setProgress {p : Progress} (hw : w.IsNormal) (g : Nat) (hp : p.IsNormal) :
    (w.setProgress g p).IsNormal := by
  unfold setProgress
  split
  · intro s hs
    rcases List.mem_or_eq_of_mem_set hs with hs | rfl
    · exact hw s hs
    · exact hp
  · exact hw

theorem isNormal_endScript (hw : w.IsNormal) (g : Nat) (reply : Reply) :
    (w.endScript g reply).1.IsNormal ∧ (w.endScript g reply).2.IsNormal :=
  ⟨trivial, isNormal_setProgress hw g trivial⟩

/-- Instructions ask for commands that compile or convert what they register. -/
theorem isNormal_follow (hw : w.IsNormal) (g : Nat) (name : String) (answer : Value) (index : Nat)
    (script : Script) : (follow g name answer index script w).1.IsNormal ∧
      (follow g name answer index script w).2.IsNormal := by
  induction script generalizing index w with
  | nil => exact isNormal_endScript (((Engine.acting_make _).acts w).sets.isNormal hw) g _
  | cons instruction rest ih =>
      cases instruction with
      | act action =>
          have hacts := ((Engine.acting_act action).acts w).sets.isNormal hw
          unfold follow
          rcases hexec : (Engine.act action).exec w with ⟨fault | _, w₁⟩
          · rw [hexec] at hacts
            exact isNormal_endScript hacts g _
          · rw [hexec] at hacts
            exact ih hacts (index + 1)
      | stop value => exact isNormal_endScript (((Engine.acting_make _).acts w).sets.isNormal hw) g _
      | ask request caught wanted =>
          have hacts := ((Engine.acting_make request.build).acts w).sets.isNormal hw
          unfold follow
          rcases hexec : (Engine.make request.build).exec w with ⟨fault | y, w₁⟩
          · rw [hexec] at hacts
            simp only
            split
            · exact ih (w := w₁.logCaught name index fault) hacts (index + 1)
            · exact isNormal_endScript hacts g _
          · rw [hexec] at hacts
            exact ⟨Yielded.isNormal_of_ne (of_exec_make (ne_setSpec_of_build request) hexec),
              isNormal_setProgress hacts g trivial⟩

/-- A script that is resumed comes to such a command, and has none but such commands left. -/
theorem isNormal_advance (hw : w.IsNormal) (g : Nat) (reply : Reply) :
    (w.advance g reply).1.IsNormal ∧ (w.advance g reply).2.IsNormal := by
  unfold advance
  split
  · exact ⟨trivial, hw⟩
  · next name answer progress hs =>
      split
      · exact ⟨trivial, hw⟩
      · exact ⟨trivial, hw⟩
      · exact isNormal_endScript hw g _
      · exact isNormal_follow hw g name answer _ _
      · exact isNormal_endScript hw g _
      · exact isNormal_endScript hw g _
      · next c rest _ =>
          have hleft : (Progress.commands (c :: rest)).IsNormal :=
            hw _ (List.mem_of_getElem? hs)
          obtain ⟨hc, hrest⟩ := List.forall_mem_cons.mp hleft
          refine ⟨?_, isNormal_setProgress hw g hrest⟩
          rintro _ ⟨⟩
          exact hc
      · split
        · exact isNormal_follow (w := w.logCaught name _ _) hw g name answer _ _
        · exact isNormal_endScript hw g _
      · simp only
        split
        · exact isNormal_endScript (w := w.logResult name _ _) hw g _
        · exact isNormal_follow (w := w.logResult name _ _) hw g name answer _ _

end World

/-! ## Frames -/

/-- Whether a frame gives the handlers of the first phase none but such commands. -/
def Frame.IsNormal : Frame → Prop
  | .begin (.process p y) => p.phase? = some .prepare → y.IsNormal
  | _ => True

theorem isNormal_resumed (p : Processor) (g : Nat) {adv : Advance} (h : adv.IsNormal) :
    ∀ f ∈ (resumed p g adv).frames, f.IsNormal := by
  unfold resumed
  split
  · simp [Turn.reply, Turn.frames]
  · simp [Turn.frames, Frame.IsNormal]
  · intro f hf
    rcases List.mem_cons.mp hf with rfl | hf
    · exact fun _ => h
    · rw [List.mem_singleton.mp hf]
      trivial

theorem Begins.isNormal {first : Option Command} {frames : List Frame} (h : Begins first frames) :
    ∀ f ∈ frames, f.IsNormal := by
  cases h <;> simp [Frame.IsNormal, Move.onPage, Processor.phase?]

theorem Calls.isNormal {head : Head} {frames : List Frame} (h : Calls head frames)
    (hfirst : head.first.IsNormal) : ∀ f ∈ frames, f.IsNormal := by
  cases h with
  | begin =>
      intro f hf
      rw [List.mem_singleton.mp hf]
      exact hfirst
  | opened h => exact h.isNormal
  | _ => simp [Frame.IsNormal]

theorem Commands.isNormal {phase : Phase} {c : Command} {frames : List Frame}
    (h : Commands phase c frames) : ∀ f ∈ frames, f.IsNormal := by
  cases h <;> simp [Frame.IsNormal]

theorem Asks.isNormal {head : Head} {w w' : World} {turn : Turn} (h : Asks head w turn w') :
    ∀ f ∈ turn.frames, f.IsNormal := by
  cases h <;> simp [Turn.frames, Frame.IsNormal]

theorem Spawns.isNormal {head : Head} {new : List (List Frame)} (h : Spawns head new) :
    ∀ fs ∈ new, ∀ f ∈ fs, f.IsNormal := by
  cases h <;> simp [Frame.IsNormal]

/-- Only scripts hand over commands. -/
theorem Rule.isNormal {head : Head} {w w' : World} {turn : Turn} (h : Rule head w turn w')
    (hfirst : head.first.IsNormal) (hhead : ∀ p g reply, head ≠ .work (.resume p g reply)) :
    ∀ f ∈ turn.frames, f.IsNormal := by
  have hgive (o : Outcome) : ∀ f ∈ (Turn.give o).frames, f.IsNormal := by simp [Turn.frames]
  cases h with
  | asks h => exact h.isNormal
  | call hcall h => exact hcall.isNormal hfirst
  | commanded hp hy hcall h => exact hcall.isNormal
  | ready hlabel h => exact h.isNormal
  | resume h => exact absurd rfl (hhead _ _ _)
  | drained h =>
      rename_i until? already last
      cases last <;> exact hgive _
  | assertedLast => exact hgive _
  | _ => simp [Turn.frames, Frame.IsNormal, Turn.done]

/-! ## Machines -/

namespace Machine

/-- Whether all commands that handlers of the first phase have got, and all that they may yet get,
register nothing but steps in normal form. -/
structure IsNormal (m : Machine) : Prop where
  scripts : m.world.IsNormal
  frames : ∀ t fs, m.frames t = some fs → ∀ f ∈ fs, f.IsNormal
  commands : ∀ c ∈ m.world.prepared, c.IsNormal

variable {m m' : Machine} {t : TaskId} {stack : List Frame} {turn : Turn} {w' : World}

theorem IsNormal.first {head : Head} (hm : m.IsNormal)
    (hcurrent : m.current = some (t, head.control stack)) : head.first.IsNormal := by
  refine hm.frames t (head.first :: stack) ?_ _ List.mem_cons_self
  rw [frames_current hcurrent, Head.frames_control]

/-- Whatever the scheduler has to handle makes scripts only. -/
theorem isNormal_handle {w : World} (hw : w.IsNormal) (h : Handle Job) :
    (Machine.handle w h).world.IsNormal := by
  have hturn (t : TaskId) (o : Outcome) : (beginTurn w t o).world.IsNormal := by
    unfold beginTurn
    split
    · exact hw
    · exact hw
  cases h with
  | turn t => exact hturn t .finished
  | wake t f => exact hturn t _
  | told | release => exact hw
  | job job =>
      cases job with
      | act actions => exact ((Engine.acting_perform actions).acts w).sets.isNormal hw
      | expire error =>
          have hacts : w.Act (w.tellMonitor (.expired error)) := .tell _
          exact hacts.isNormal hw

theorem IsNormal.next_scripts (hm : m.IsNormal) (h : m.step = some m') : m'.world.IsNormal := by
  rcases step_cases h with ⟨t, head, stack, turn, w', hcurrent, hrule, hfollow⟩ |
    ⟨t, o, hcurrent, rfl⟩ | ⟨handle, scheduler, hidle, hnext, rfl⟩
  · by_cases hresume : ∃ p g reply, head = .work (.resume p g reply)
    · obtain ⟨p, g, reply, rfl⟩ := hresume
      obtain ⟨w, current⟩ := m
      cases hcurrent
      have hresumed := (step_resume w t p g reply stack).symm.trans h
      rw [← Option.some.inj hresumed, world_follow]
      exact (World.isNormal_advance hm.scripts g reply).2
    · obtain ⟨w₁, hsame, hsets⟩ := hrule.generators fun p g reply heq => hresume ⟨p, g, reply, heq⟩
      have hw₁ : w₁.IsNormal := by
        unfold World.IsNormal
        rw [hsame]
        exact hm.scripts
      rw [hfollow, world_follow]
      exact hsets.isNormal hw₁
  · exact hm.scripts
  · exact isNormal_handle (w := { m.world with scheduler }) hm.scripts handle

/-- Only a script that goes on hands over a command. -/
theorem IsNormal.next_frames (hm : m.IsNormal) (hsound : m.Sound) (h : m.step = some m') :
    ∀ t fs, m'.frames t = some fs → ∀ f ∈ fs, f.IsNormal := by
  rcases hsound.moves_or_rests h with ⟨t, head, stack, turn₀, new₀, w₀, hmoves₀⟩ | hrests
  · obtain ⟨new, hmoves⟩ := hsound.moves_of_head h hmoves₀.current
    have hfirst := hm.first hmoves.current
    have hturn : ∀ f ∈ (head.run.run m.world).1.frames, f.IsNormal := by
      by_cases hresume : ∃ p g reply, head = .work (.resume p g reply)
      · obtain ⟨p, g, reply, rfl⟩ := hresume
        change ∀ f ∈ ((Move.resume p g reply).run m.world).1.frames, f.IsNormal
        rw [run_resume]
        exact isNormal_resumed p g (World.isNormal_advance hm.scripts g reply).1
      · exact hmoves.rule.isNormal hfirst fun p g reply heq => hresume ⟨p, g, reply, heq⟩
    intro u fs hfs f hf
    rcases hmoves.mem_frames hfs hf with ⟨-, hf⟩ | ⟨fs, hfs, hf⟩ | ⟨work, -, hnew⟩
    · exact hturn f hf
    · exact hm.frames u fs hfs f hf
    · exact hmoves.spawns.isNormal [f] hnew f (List.mem_singleton_self f)
  · intro u fs hfs
    rw [hrests.frames] at hfs
    exact hm.frames u fs hfs

theorem IsNormal.next_commands (hm : m.IsNormal) (h : m.step = some m') :
    ∀ c ∈ m'.world.prepared, c.IsNormal := by
  rcases registers_of_step h with hidles | ⟨t, head, stack, c, hcurrent, hgets, hprepared⟩
  · rw [hidles.prepared]
    exact hm.commands
  · rw [hprepared.prepared]
    intro c' hc'
    rcases List.mem_append.mp hc' with hc' | hc'
    · exact hm.commands c' hc'
    · rw [List.mem_singleton.mp hc']
      have hfirst := hm.first hcurrent
      cases hgets with
      | process hp hy => exact hfirst hp c hy

/-- Every step keeps all commands on their way in normal form. -/
theorem IsNormal.step (hm : m.IsNormal) (hsound : m.Sound) (h : m.step = some m') :
    m'.IsNormal := ⟨hm.next_scripts h, hm.next_frames hsound h, hm.next_commands h⟩

end Machine

/-! ## Tests -/

namespace Table

/-- Merging puts steps behind steps. -/
theorem isNormal_register {expects : Table Expectation} {row : String × Expectation}
    (h : ∀ known ∈ expects, known.2.IsNormal) (hrow : row.2.IsNormal) :
    ∀ known ∈ expects.register row, known.2.IsNormal := by
  intro known hknown
  unfold register at hknown
  rcases mem_put hknown with hknown | rfl
  · exact h known hknown
  · cases hget : expects.get? row.1 with
    | none => exact hrow
    | some current =>
        intro s hs
        rcases List.mem_append.mp hs with hs | hs
        · exact h _ (mem_of_get? hget) s hs
        · exact hrow s hs

/-- What is registered row by row is in normal form if the rows are. -/
theorem isNormal_foldl_register {expects : Table Expectation} {rows : List (String × Expectation)}
    (h : ∀ known ∈ expects, known.2.IsNormal) (hrows : ∀ row ∈ rows, row.2.IsNormal) :
    ∀ known ∈ rows.foldl register expects, known.2.IsNormal := by
  induction rows generalizing expects with
  | nil => exact h
  | cons row rows ih =>
      obtain ⟨hrow, hrest⟩ := List.forall_mem_cons.mp hrows
      exact ih (isNormal_register h hrow) hrest

end Table

namespace TestSetup

variable {setup : TestSetup} {subject : Subject} {g : Generator} {m : Machine}

/-- The script of a test installs a full spec, which was compiled, or asks for its commands. -/
theorem isNormal_generatorOf (h : setup.generatorOf subject = .ok g) : g.progress.IsNormal := by
  cases subject with
  | script v =>
      unfold generatorOf at h
      split at h
      · cases h
        trivial
      · cases h
        trivial
      · obtain ⟨v, -, h⟩ := Spec.ok_of_bind h
        cases h
      · next heq => cases heq
  | spec v =>
      obtain ⟨v, -, h⟩ := Spec.ok_of_bind h
      obtain ⟨spec, hcompile, h⟩ := Spec.ok_of_bind h
      cases h
      obtain ⟨source, -, hcompile⟩ := Spec.ok_of_bind hcompile
      intro c hc
      rcases List.mem_cons.mp hc with rfl | hc
      · exact fun _ => Spec.isNormal_compile hcompile
      · obtain ⟨label, -, rfl⟩ := List.mem_map.mp hc
        exact Command.isNormal_of_ne (by simp)

theorem isNormal_machine (setup : TestSetup) (hg : g.progress.IsNormal) :
    (setup.machine g).IsNormal where
  scripts s hs := by
    rw [List.mem_singleton.mp hs]
    exact hg
  frames t fs hfs f hf := by
    rw [frames_machine] at hfs
    split at hfs
    · cases hfs
      rw [List.mem_singleton.mp hf]
      trivial
    · cases hfs
  commands c hc := by cases hc

/-- All commands on their way in a test register nothing but steps in normal form. -/
theorem Reaches.isNormal (hg : setup.generatorOf subject = .ok g) (h : setup.Reaches g m) :
    m.IsNormal := by
  refine (Machine.Steps.invariant (P := fun m => m.Sound ∧ m.IsNormal) h
    ⟨sound_machine setup g, isNormal_machine setup (isNormal_generatorOf hg)⟩ ?_).2
  rintro m m' hstep ⟨hsound, hm⟩
  exact ⟨hsound.step hstep, hm.step hsound hstep⟩

/-- Whatever is registered at any time of a test is in normal form: nothing changes by bringing it
into normal form once more, a text is its own normal form, and a literal token has visible ends, so
that it is met wherever it stands. -/
theorem registered_settled {label : String} {e : Expectation} {expected : Html.Expected}
    (hg : setup.generatorOf subject = .ok g) (h : setup.Reaches g m)
    (hrow : (label, e) ∈ m.world.session.expects) (hstep : Step.html expected ∈ e.steps) :
    expected.IsSettled := by
  have hcommands := (h.isNormal hg).commands
  rw [h.registered.1] at hrow
  have hrows : ∀ row ∈ m.world.prepared.flatMap (·.rows setup.file), row.2.IsNormal := by
    intro row hrow
    obtain ⟨c, hc, hmem⟩ := List.mem_flatMap.mp hrow
    exact hcommands c hc setup.file row hmem
  have hnormal := Table.isNormal_foldl_register (by simp) hrows (label, e) hrow
  exact (hnormal _ hstep).settled

end TestSetup

/-- The text of a literal token. -/
def Html.Token.literal? : Html.Token → Option String
  | .literal text => some text
  | .pattern _ => none

/-- The literal texts that a step asks for, between patterns. -/
def Step.literals : Step → List String
  | .html (.tokens tokens) => tokens.filterMap Html.Token.literal?
  | _ => []

/-- A script that asks for a literal with blanks around it, in front of a pattern. -/
def paddedScript : Script :=
  let expected : List Value :=
    [.text " <p> x </p> ", .regex (Regex.ofSource "[0-9]" default), .text "\n"]
  [.ask (.expect (.text "a") (.list expected)) false none]

/-- The literal is registered without its blanks. -/
theorem registered_settled_padded :
    ∃ e expected, ("a", e) ∈ (TestSetup.plainRun paddedScript 4).world.session.expects ∧
      Step.html expected ∈ e.steps ∧ (Step.html expected).literals = ["<p>x</p>"] ∧
      expected.IsSettled := by
  have hfound : (TestSetup.plainRun paddedScript 4).world.session.expects.any (fun row =>
      row.1 = "a" && row.2.steps.any fun s => s.literals = ["<p>x</p>"]) = true := by
    decide +kernel
  obtain ⟨⟨label, e⟩, hrow, hfound⟩ := List.any_eq_true.mp hfound
  obtain ⟨hlabel, hstep⟩ := Bool.and_eq_true_iff.mp hfound
  obtain rfl : label = "a" := by simpa using hlabel
  obtain ⟨s, hs, hliterals⟩ := List.any_eq_true.mp hstep
  have hliterals : s.literals = ["<p>x</p>"] := by simpa using hliterals
  cases s with
  | html expected =>
      have hg : TestSetup.plain.generatorOf (.script (.routine ⟨"script", paddedScript, .nothing⟩)) =
          .ok ⟨"script", .nothing, .before 0 paddedScript⟩ := rfl
      exact ⟨e, expected, hrow, hs, hliterals,
        TestSetup.registered_settled hg (TestSetup.reaches_plainRun paddedScript 4) hrow hs⟩
  | sub | function => cases hliterals

end HotSpec
