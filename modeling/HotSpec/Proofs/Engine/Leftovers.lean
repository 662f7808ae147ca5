import HotSpec.Proofs.Engine.Registering

/-!
# What a failed command leaves

A handler of the first phase may fail, and the script may go on all the same.  Nearly all handlers
check everything before they register anything.  Two of them register as they go: steps are appended
up to the first value that is no step, and what can be called is a template before it is called.

Main definition:

- `World.Leaves`: what a failed command has registered.

Main results:

- Theorem `failed_command_leaves`: a command that fails has registered this and nothing else.
- Theorem `failed_command_registers`: so there may be something left of a failed command.
-/

namespace HotSpec

/-- What a command that has failed in a world has registered. -/
inductive World.Leaves (w : World) (fault : Fault) : Command → World → Prop
  /-- The steps in front of the first value that is no step are there. -/
  | steps {done : List (String × Value)} {label : String} {value : Value}
      {rest : List (String × Value)} {w' : World}
      (hdone : ∀ pair ∈ done, ∃ step, Step.ofExpectation pair.2 = .ok step)
      (hvalue : Step.ofExpectation value = .error fault)
      (h : w'.session =
        { w.session with expects := (stepRows done).foldl Table.register w.session.expects }) :
      Leaves w fault (.expect (done ++ (label, value) :: rest)) w'
  /-- What can be called among the first files is a template. -/
  | templates {front back : Table Value} {w' : World}
      (h : w'.session.preparation = { w.session.preparation with
        templates := w.session.templates.merge (front.filter fun row => row.2.isCallable) }) :
      Leaves w fault (.init (.files (front ++ back))) w'
  /-- Nothing is left of any other command. -/
  | nothing {c : Command} {w' : World} (hexpect : ∀ pairs, c ≠ .expect pairs)
      (hfiles : ∀ files, c ≠ .init (.files files))
      (h : w'.session.preparation = w.session.preparation) : Leaves w fault c w'

/-- The first of several values that is no step. -/
theorem refused_of_mapM {pairs : List (String × Value)} {fault : Fault}
    (h : pairs.mapM (fun pair => Step.ofExpectation pair.2) = .error fault) :
    ∃ done label value rest, pairs = done ++ (label, value) :: rest ∧
      (∀ pair ∈ done, ∃ step, Step.ofExpectation pair.2 = .ok step) ∧
      Step.ofExpectation value = .error fault ∧ stepRows pairs = stepRows done := by
  induction pairs with
  | nil => cases h
  | cons pair pairs ih =>
      obtain ⟨label, value⟩ := pair
      rw [List.mapM_cons] at h
      cases hstep : Step.ofExpectation value with
      | error fault' =>
          rw [hstep] at h
          cases h
          refine ⟨[], label, value, pairs, rfl, by simp, hstep, ?_⟩
          unfold stepRows
          rw [hstep]
      | ok step =>
          rw [hstep] at h
          cases hrest : pairs.mapM fun pair => Step.ofExpectation pair.2 with
          | ok steps =>
              rw [hrest] at h
              cases h
          | error fault' =>
              rw [hrest] at h
              cases h
              obtain ⟨done, label', value', rest, rfl, hdone, hvalue, hrows⟩ := ih hrest
              refine ⟨(label, value) :: done, label', value', rest, rfl, ?_, hvalue, ?_⟩
              · intro pair hpair
                rcases List.mem_cons.mp hpair with rfl | hpair
                · exact ⟨step, hstep⟩
                · exact hdone pair hpair
              · unfold stepRows
                rw [hstep]
                simp only
                rw [← hrows]

namespace Engine

/-- A handler of the first phase that fails. -/
theorem leaves_prepare {c : Command} {w w' : World} {fault : Fault}
    (h : exec (prepare c) w = (.error fault, w')) : w.Leaves fault c w' := by
  have hworld : w' = (exec (prepare c) w).2 := by rw [h]
  have hreply : (exec (prepare c) w).1 = .error fault := by rw [h]
  have hnever {e : Engine Unit} {a : Unit} (he : (exec e w).1 = .ok a) :
      (exec (do e; return Value.nothing) w).1 ≠ .error fault := by
    rw [exec_nothing, he]
    rintro ⟨⟩
  cases c with
  | expect pairs =>
      change exec (do addSteps pairs; return Value.nothing) w = _ at h
      rw [exec_nothing, exec_addSteps] at h
      obtain ⟨hresult, rfl⟩ := Prod.mk.inj h
      cases hpairs : pairs.mapM fun pair => Step.ofExpectation pair.2 with
      | ok steps =>
          rw [hpairs] at hresult
          cases hresult
      | error fault' =>
          rw [hpairs] at hresult
          cases hresult
          obtain ⟨done, label, value, rest, rfl, hdone, hvalue, hrows⟩ := refused_of_mapM hpairs
          refine .steps hdone hvalue ?_
          rw [← hrows]
          rfl
  | init target =>
      cases target with
      | files inits =>
          change exec (do initFiles inits; return Value.nothing) w = _ at h
          rw [exec_nothing] at h
          obtain ⟨hresult, rfl⟩ := Prod.mk.inj h
          obtain ⟨front, back, inits', rfl, hprep, hsame⟩ := preparation_initFiles inits w
          have hinits : inits' = w.session.inits := by
            refine hsame ?_
            cases hexec : (exec (initFiles (front ++ back)) w).1 with
            | ok a =>
                rw [hexec] at hresult
                cases hresult
            | error fault' => exact ⟨fault', rfl⟩
          subst hinits
          exact .templates hprep
      | label label =>
          change exec (do initLabel label; return Value.nothing) w = _ at h
          rw [exec_nothing, exec_initLabel] at h
          cases hlabel : w.session.initLabel with
          | none =>
              rw [hlabel] at h
              cases h
          | some previous =>
              rw [hlabel] at h
              cases h
              exact .nothing (by simp) (by simp) rfl
  | spec source =>
      simp only [prepare, exec_bind, exec_get, exec_ofExcept] at h
      cases hcompile : Spec.compile source false w.session.file with
      | error fault' =>
          rw [hcompile] at h
          cases h
          exact .nothing (by simp) (by simp) rfl
      | ok compiled =>
          rw [hcompile] at h
          cases h
  | mapping contents =>
      simp only [prepare, exec_bind, exec_get, exec_ofExcept] at h
      cases hfiles : fileVariants w.session.file contents with
      | error fault' =>
          rw [hfiles] at h
          cases h
          exact .nothing (by simp) (by simp) rfl
      | ok files =>
          rw [hfiles] at h
          cases h
  | setSpec compiled => exact absurd hreply (hnever (e := install compiled) rfl)
  | hook after label sub => exact absurd hreply (hnever (e := setHook after label sub) rfl)
  | beforeLoad sub => cases h
  | templates table => cases h
  | ignore errors policy => cases h
  | _ =>
      refine .nothing (by simp) (by simp) ?_
      rw [hworld]
      simp only [prepare, exec_bind, exec_get]
      exact ((acting_configure (by simp) (by simp)).acts w).preparation

end Engine

/-- What is left depends on what was registered before, and on what is registered now. -/
theorem World.Leaves.congr {w₁ w₂ w₁' w₂' : World} {fault : Fault} {c : Command}
    (h : w₁.Leaves fault c w₁') (hbefore : w₂.session = w₁.session)
    (hafter : w₂'.session = w₁'.session) : w₂.Leaves fault c w₂' := by
  cases h with
  | steps hdone hvalue h => exact .steps hdone hvalue (by rw [hafter, hbefore, h])
  | templates h => exact .templates (by rw [hafter, hbefore, h])
  | nothing hexpect hfiles h => exact .nothing hexpect hfiles (by rw [hafter, hbefore, h])

/-- A command is answered at once or calls more work. -/
theorem Rule.gives_or_calls {head : Head} {c : Command} {w w' : World} {turn : Turn}
    (h : Rule head w turn w') (hhead : head.Prepares c) :
    (∃ o, turn = .give o) ∨ ∃ work frames, turn = .call work frames := by
  obtain ⟨hp, hy⟩ := hhead
  cases h with
  | asks h => cases h
  | reply | answered | discarded => exact .inl ⟨_, rfl⟩
  | call | commanded => exact .inr ⟨_, _, rfl⟩

/-- A rule by which a command fails that a handler of the first phase has got. -/
theorem Rule.leaves {head : Head} {c : Command} {w w' : World} {fault : Fault}
    (h : Rule head w (.give (.fault fault)) w') (hhead : head.Prepares c)
    (hgot : w'.prepared = w.prepared ++ [c]) : w.Leaves fault c w' := by
  have hidle (h : w.Idles w') : w.Leaves fault c w' := by
    have hlength := congrArg List.length (hgot.symm.trans h.prepared)
    simp at hlength
  obtain ⟨hp, hy⟩ := hhead
  generalize hturn : Turn.give (.fault fault) = turn at h
  cases h with
  | reply r hhead h => exact hidle (.of_acts h)
  | call hcall h => cases hturn
  | asks h => cases h
  | @answered _ _ phase c' _ _ r hp' hy' hc h =>
      obtain rfl : Phase.prepare = phase := Option.some.inj (hp.symm.trans hp')
      obtain rfl : _ = c' := Except.ok.inj (hy.symm.trans hy')
      have hr : r = .error fault := by
        cases r with
        | ok v => cases hturn
        | error fault' =>
            cases hturn
            rfl
      subst hr
      generalize hreply : Except.error fault = reply at h
      cases h with
      | acts hset h =>
          refine .nothing ?_ ?_ h.preparation
          · rintro pairs rfl
            cases hset
          · rintro files rfl
            cases hset
      | sets hset =>
          have hleaves := Engine.leaves_prepare (Prod.ext hreply.symm rfl :
            Engine.exec (Engine.prepare _) (w.record (.handled .prepare _)) = (.error fault, _))
          exact hleaves.congr rfl rfl
  | commanded hp' hy' hcall h => cases hturn
  | discarded hp' hy' hc =>
      rw [hp] at hp'
      cases hp'

/-- A command that its handler of the first phase has got, and that fails, has registered what the
handler did first, and nothing else. -/
theorem failed_command_leaves {m m' : Machine} {t : TaskId} {stack : List Frame} {c : Command}
    {fault : Fault} (hstep : m.step = some m')
    (hgot : m'.world.prepared = m.world.prepared ++ [c])
    (hfault : m'.current = some (t, .outcome (.fault fault) stack)) :
    m.world.Leaves fault c m'.world := by
  have hidle (h : m.world.Idles m'.world) : m.world.Leaves fault c m'.world := by
    have hlength := congrArg List.length (hgot.symm.trans h.prepared)
    simp at hlength
  rcases Machine.step_cases hstep with ⟨u, head, below, turn, w', hcurrent, hrule, rfl⟩ |
    ⟨u, o, hcurrent, rfl⟩ | ⟨handle, scheduler, hnone, hnext, rfl⟩
  · have hsession : (Machine.follow u below turn w').world.session = w'.session := by
      rw [Machine.world_follow]
    have hprepared : (Machine.follow u below turn w').world.prepared = w'.prepared :=
      World.trace_congr _ (by rw [Machine.world_follow])
    rcases hrule.registers with hidles | ⟨c', hhead, hgets⟩
    · refine hidle (hidles.trans ?_)
      rw [Machine.world_follow]
      exact .silent rfl rfl rfl
    · obtain rfl : c' = c := by
        have hlist := hgets.prepared.symm.trans (hprepared.symm.trans hgot)
        simpa using hlist
      rcases hrule.gives_or_calls hhead with ⟨o, rfl⟩ | ⟨work, frames, rfl⟩
      · cases hfault
        exact (hrule.leaves hhead hgets.prepared).congr rfl hsession
      · cases hfault
  · exact hidle (.silent rfl rfl rfl)
  · have hscheduler : m.world.Idles { m.world with scheduler } := .silent rfl rfl rfl
    exact hidle (hscheduler.trans (Machine.idles_handle _ handle))

/-- Whether a task has come to a fault. -/
def Machine.isFault (m : Machine) : Bool :=
  match m.current with
  | some (_, .outcome (.fault _) _) => true
  | _ => false

/-- A script that appends two steps, of which the second one is none, and goes on all the same. -/
def refusedScript : Script :=
  let idle : Value := .callback ⟨"idle", [], none, none, .nothing⟩
  [.ask (.expect (.list [.list [.text "a", idle], .list [.text "b", .int 5]]) .nothing) true none]

/-- The second value is refused. -/
theorem fault_refusedScript : ∃ (t : TaskId) (stack : List Frame) (fault : Fault),
    (TestSetup.plainRun refusedScript 3).current = some (t, .outcome (.fault fault) stack) := by
  have hfault : (TestSetup.plainRun refusedScript 3).isFault = true := by decide +kernel
  unfold Machine.isFault at hfault
  split at hfault
  · next t fault stack hcurrent => exact ⟨t, stack, fault, hcurrent⟩
  · cases hfault

/-- The first of the two steps is left of the command. -/
theorem failed_command_leaves_step : ∃ (c : Command) (fault : Fault),
    (TestSetup.plainRun refusedScript 3).world.prepared = [c] ∧
      (TestSetup.plainRun refusedScript 2).world.Leaves fault c
        (TestSetup.plainRun refusedScript 3).world := by
  obtain ⟨t, stack, fault, hcurrent⟩ := fault_refusedScript
  have hstep : (TestSetup.plainRun refusedScript 2).step =
      some (TestSetup.plainRun refusedScript 3) := TestSetup.step_plainRun (by decide +kernel)
  have hnone : (TestSetup.plainRun refusedScript 2).world.prepared = [] :=
    List.length_eq_zero_iff.mp (by decide +kernel)
  obtain ⟨c, hone⟩ : ∃ c, (TestSetup.plainRun refusedScript 3).world.prepared = [c] :=
    List.length_eq_one_iff.mp (by decide +kernel)
  exact ⟨c, fault, hone, failed_command_leaves hstep (by rw [hnone, hone]; rfl) hcurrent⟩

/-- A command that fails in the first phase, and changes the expectations for all that. -/
theorem failed_command_registers : ∃ (t : TaskId) (stack : List Frame) (fault : Fault),
    (TestSetup.plainRun refusedScript 2).world.session.started = false ∧
      (TestSetup.plainRun refusedScript 2).step = some (TestSetup.plainRun refusedScript 3) ∧
      (TestSetup.plainRun refusedScript 3).current = some (t, .outcome (.fault fault) stack) ∧
      (TestSetup.plainRun refusedScript 2).world.session.expects.keys = [] ∧
      (TestSetup.plainRun refusedScript 3).world.session.expects.keys = ["a"] := by
  obtain ⟨t, stack, fault, hcurrent⟩ := fault_refusedScript
  exact ⟨t, stack, fault, by decide +kernel, TestSetup.step_plainRun (by decide +kernel),
    hcurrent, by decide +kernel, by decide +kernel⟩

end HotSpec
