import HotSpec.Proofs.Script.Report

/-!
# The talk of a test

A script talks to the first phase until the environment has started anew, and from then on to the task
that loads the page.  No word of it is lost where the two change places, nothing is said twice, and what
the script ends with is what the test ends with.

Main definitions:

- `Machine.Conversing`: a test whose page was asked for, for a given state of the talk.
- `Machine.Talks`: a test in either phase.

Main results:

- Theorem `Conversing.step`, `Talks.step`: every step goes on with the talk.
- Theorem `script_conversed`: what is said in a smooth test is a talk, and the test ends as its script.
-/

namespace HotSpec

variable {r : Registry} {talk talk' : Talk} {m m' : Machine} {words : List Word}

/-- A talk that is over stays so. -/
theorem Talk.Run.gone_of_gone {reply : Reply} (h : Talk.Run r (.gone reply) words talk) :
    talk = .gone reply := by
  induction words with
  | nil =>
      cases h
      rfl
  | cons word words ih =>
      cases h with
      | cons hstep rest =>
          cases hstep
          exact ih rest

/-! ## Once the page is asked for -/

/-- A test whose page was asked for. -/
structure Machine.Conversing (r : Registry) (m : Machine) (load : FutureId) (talk : Talk) : Prop where
  loads : m.Loads load
  page : m.Paged r talk
  first : m.Hosting load talk
  /-- All other tasks run subs, which leave the script alone. -/
  others : ∀ t, 1 < t → ∀ fs, m.frames t = some fs → Foreign fs

/-! ## Steps -/

open Machine

variable {setup : TestSetup} {g : Generator} {load : FutureId}

/-- Every step goes on with the talk, once the page is asked for. -/
theorem Machine.Conversing.step (h : m.Conversing setup.session.registry load talk)
    (hreach : setup.Reaches g m) (hsmooth : setup.Smooth g)
    (hlt : scriptNumber < m.world.generators.length)
    (hended : ∀ reply, talk = .gone reply → m.world.Ended) (hstep : m.step = some m') :
    ∃ talk', Talk.Run setup.session.registry talk m.words talk' ∧
      m'.Conversing setup.session.registry load talk' := by
  have hm := hreach.sound
  obtain ⟨labels, hopened⟩ : ∃ labels, m.Opened labels := by
    rcases hreach.preparing_or_opened with hprep | ⟨labels, -, hopened⟩
    · have hone := hm.threads.lt_of_ending h.loads.kind
      rw [hprep.tasks] at hone
      exact absurd hone (Nat.lt_irrefl 1)
    · exact ⟨labels, hopened⟩
  have hloads := h.loads.step hm hopened hstep
  have hheeds (i : FutureId) (hi : m.world.Heeds i) : m'.world.Heeds i :=
    (hm.heeds_of_started hstep hopened.started).mpr hi
  rcases hm.moves_or_rests hstep with ⟨t, head, stack, turn, new, w', hmoves⟩ | hrests
  · have hframes {u : TaskId} (hu : u ≠ t) {fs : List Frame} (hfs : m'.frames u = some fs) :
        m.frames u = some fs ∨ Foreign fs := by
      rcases hmoves.frames_cases hfs with ⟨heq, -⟩ | ⟨-, hfs⟩ | ⟨-, hnew⟩
      · exact absurd heq hu
      · exact .inl hfs
      · obtain ⟨p, sub, rfl⟩ := hopened.begins hmoves hnew
        exact .inr (foreign_single rfl rfl)
    have hkept {u : TaskId} (hu : u ≠ t) (hlt : u < m.world.scheduler.tasks.length) :
        m'.frames u = m.frames u := hmoves.frames_of_ne hu hlt
    have hone := hm.threads.lt_of_ending h.loads.kind
    have hothers (ht : t < 2) (u : TaskId) (hu : 1 < u) (fs : List Frame)
        (hfs : m'.frames u = some fs) : Foreign fs := by
      have hne : u ≠ t := Nat.ne_of_gt (Nat.lt_of_lt_of_le ht hu)
      exact (hframes hne hfs).elim (h.others u hu fs) id
    match t, hmoves.lt hm with
    | 0, _ =>
        obtain ⟨hrun, hfirst⟩ := h.first.moves_self hreach hsmooth h.loads h.page hopened.started
          hended hstep hmoves.current
        exact ⟨_, hrun, hloads, h.page.moves_other hm h.loads hmoves Nat.zero_ne_one, hfirst,
          hothers Nat.two_pos⟩
    | 1, _ =>
        obtain ⟨talk', hrun, hpage⟩ := h.page.moves_self hreach hsmooth h.loads hopened.started hlt
          hended hstep hmoves.current
        refine ⟨_, hrun, hloads, hpage, ?_, hothers Nat.one_lt_two⟩
        refine h.first.moves_other hmoves Nat.one_ne_zero hheeds
          (hkept Nat.zero_ne_one (Nat.zero_lt_of_lt hone)) ?_
        rintro reply rfl
        exact hrun.gone_of_gone
    | u + 2, ht =>
        have hself : Foreign (head.first :: stack) :=
          h.others _ (Nat.succ_lt_succ (Nat.succ_pos u)) _ hmoves.before
        obtain ⟨hwords, above, hfs, habove⟩ := hsmooth.foreign_step hreach hself hstep hmoves.current
          (List.append_nil _).symm hopened.started hlt
        rw [List.append_nil] at hfs
        rw [hwords]
        refine ⟨_, .nil, hloads, h.page.moves_other hm h.loads hmoves (Nat.succ_succ_ne_one u), ?_, ?_⟩
        · have hne : u + 2 ≠ 0 := Nat.succ_ne_zero _
          exact h.first.moves_other hmoves hne hheeds (hkept hne.symm (Nat.zero_lt_of_lt hone))
            fun _ => id
        · intro v hv fs hfs'
          by_cases hvt : v = u + 2
          · subst hvt
            cases hfs.symm.trans hfs'
            exact habove
          · exact (hframes hvt hfs').elim (h.others v hv fs) id
  · rw [hrests.words]
    refine ⟨_, .nil, hloads, h.page.rests hrests ?_, h.first.rests hrests hheeds hreach.running.1, ?_⟩
    · intro o fs hout
      exact (hreach.step hstep).unstopped hsmooth.fine (.inr rfl) hout
    · intro t ht fs hfs
      exact h.others t ht fs ((hrests.frames t).symm.trans hfs)

/-- The page is asked for when the environment has started anew, with the talk as it stands. -/
theorem Machine.Prepares.conversing (h : m.Prepares setup.session.registry talk)
    (hreach : setup.Reaches g m) (hreset : m.IsReset) (hstep : m.step = some m') :
    m.words = [] ∧ ∃ load, m'.Conversing setup.session.registry load talk := by
  have hm := hreach.sound
  have hprep := hreach.preparing hreset
  obtain ⟨t, first, v, rest, hcurrent⟩ := hreset
  have ht : t = 0 := by
    have hlt := hm.lt hcurrent
    rw [hprep.tasks] at hlt
    exact Nat.lt_one_iff.mp hlt
  subst ht
  have hfs : m.frames 0 = some (.reset first :: rest) := frames_current hcurrent
  have hs := h.starting (hprep.started hfs) hfs
  obtain ⟨new, hmoves⟩ := hm.moves_of_frame hstep hcurrent
  rw [words_of_silent hmoves.current rfl]
  generalize ((Frame.reset first).take (.value v)).run m.world = result at hmoves
  obtain ⟨turn, w'⟩ := result
  simp only at hmoves
  have hloads := hprep.loads hmoves
  have hframes : m'.frames 1 = some [.begin (.load first)] :=
    (hprep.frames_iff hmoves Nat.one_ne_zero).mpr ⟨rfl, rfl⟩
  have hready : .ready ∉ m'.world.events := fun he =>
    (hmoves.mem_events he).elim hprep.fresh.1 (by simp [Event.isOf])
  have hjoined : turn.control rest = none ∧ turn.frames = [.joined m.world.racers false, .raced] := by
    cases World.asks_of_reset hmoves.rule with
    | opened => exact ⟨rfl, rfl⟩
  refine ⟨rfl, _, hloads, .coming (.fresh hframes ?_ ?_ hready) hs, ?_, ?_⟩
  · rw [hmoves.next, hjoined.1]
    simp
  · rw [hmoves.awaiting, if_neg Nat.one_ne_zero]
    unfold Scheduler.awaiting Scheduler.task?
    rw [List.getElem?_eq_none (Nat.le_of_eq hprep.tasks)]
    rfl
  · have hwaits : m'.frames 0 = some (.joined m.world.racers false :: .raced :: rest) := by
      rw [hmoves.frames_self, hjoined.2]
      rfl
    exact .waits hwaits hs.resuming (List.mem_cons_self ..)
  · intro u hu fs hfs
    exact absurd ((hprep.frames_iff hmoves (Nat.ne_zero_of_lt hu)).mp hfs).1 (Nat.ne_of_gt hu)

/-! ## Runs -/

/-- A test in either phase. -/
inductive Machine.Talks (r : Registry) (m : Machine) (talk : Talk) : Prop
  | prepares (h : m.Prepares r talk) (hprep : m.Preparing)
  | converses {load : FutureId} (h : m.Conversing r load talk)

/-- Every step goes on with the talk. -/
theorem Machine.Talks.step (h : m.Talks setup.session.registry talk) (hreach : setup.Reaches g m)
    (hsmooth : setup.Smooth g) (hlt : scriptNumber < m.world.generators.length)
    (hended : ∀ reply, talk = .gone reply → m.world.Ended) (hstep : m.step = some m') :
    ∃ talk', Talk.Run setup.session.registry talk m.words talk' ∧
      m'.Talks setup.session.registry talk' := by
  have hm := hreach.sound
  cases h with
  | converses h =>
      obtain ⟨talk', hrun, hconversing⟩ := h.step hreach hsmooth hlt hended hstep
      exact ⟨talk', hrun, .converses hconversing⟩
  | prepares h hprep =>
      have hone (t : TaskId) (c : Control) (hcurrent : m.current = some (t, c)) : t = 0 := by
        have hlt := hm.lt hcurrent
        rw [hprep.tasks] at hlt
        exact Nat.lt_one_iff.mp hlt
      rcases hprep.step hm hstep with ⟨hnot, hprep'⟩ | ⟨hreset, -⟩
      · have hreset (o : Outcome) (first : Option Command) (rest : List Frame) :
            m.current ≠ some (0, .outcome o (.reset first :: rest)) := by
          intro hcurrent
          have hvalue := hsmooth.resets m hreach _ _ _ _ hcurrent
          cases o with
          | value v => exact hnot ⟨0, first, v, rest, hcurrent⟩
          | fault | stopped => cases hvalue
        obtain ⟨talk', hrun, hprepares⟩ := h.step hm hone hreach.registry
          (fun o fs => hreach.unstopped hsmooth.fine (.inl rfl)) hreach.running hreset hstep
        exact ⟨talk', hrun, .prepares hprepares hprep'⟩
      · obtain ⟨hwords, load, hconversing⟩ := h.conversing hreach hreset hstep
        rw [hwords]
        exact ⟨talk, .nil, .converses hconversing⟩

/-- What is said in a smooth test is a talk, and where that is over the script is. -/
theorem TestSetup.Smooth.talks (hsmooth : setup.Smooth g) (h : (setup.machine g).Tells words m) :
    ∃ talk, Talk.Run setup.session.registry (.due .prepare (.ok .nothing)) words talk ∧
      m.Talks setup.session.registry talk := by
  suffices hall : scriptNumber < m.world.generators.length ∧ ∃ talk,
      Talk.Run setup.session.registry (.due .prepare (.ok .nothing)) words talk ∧
      m.Talks setup.session.registry talk ∧ ∀ reply, talk = .gone reply → m.world.Ended from by
    obtain ⟨-, talk, hrun, htalks, -⟩ := hall
    exact ⟨talk, hrun, htalks⟩
  induction h with
  | refl =>
      refine ⟨Nat.zero_lt_one, _, .nil, ?_, by rintro reply ⟨⟩⟩
      exact .prepares (.before (.begins rfl) rfl) (preparing_machine setup g)
  | @step m₁ m₂ words hbefore hstep ih =>
      obtain ⟨hlt, talk, hrun, htalks, hended⟩ := ih
      obtain ⟨talk', hrun', htalks'⟩ := htalks.step hbefore.steps hsmooth hlt hended hstep
      refine ⟨(script_of_step (s := g) hstep).2 hlt, talk', hrun.append hrun', htalks', ?_⟩
      intro reply hover
      exact ended_of_run hstep hlt hrun' hended hover

/-! ## Ends of tests -/

/-- A test whose first task has come to an outcome has heard its script to the end, and tells of it. -/
theorem Machine.Closes.reports {reply : Reply} {o : Outcome} (h : m.Closes reply)
    (houtcome : m.world.scheduler.outcome? 0 = some o) : o.Reports reply := by
  cases h with
  | ends _ hopen => cases hopen.symm.trans houtcome
  | ended _ houtcome' ho =>
      cases houtcome.symm.trans houtcome'
      exact ho

/-- A test is not over before its script is. -/
theorem Machine.Talks.reports (h : m.Talks r talk) (hreach : setup.Reaches g m) {o : Outcome}
    (houtcome : m.world.scheduler.outcome? 0 = some o) :
    ∃ reply, talk = .gone reply ∧ o.Reports reply := by
  have hframes {fs : List Frame} (hfs : m.frames 0 = some fs) : fs = [] := by
    cases fs with
    | nil => rfl
    | cons f fs => cases houtcome.symm.trans (hreach.running.2 f fs hfs)
  have hcurrent {c : Control} (h : m.current = some (0, c)) : c.frames = [] := hframes (frames_current h)
  cases h with
  | prepares h hprep =>
      cases h with
      | before h =>
          cases h with
          | begins h | due h | asked h | refused h | starts h | prepared h => cases hcurrent h
          | busy hfs => cases (List.append_eq_nil_iff.mp (hframes hfs)).2
      | resets hfs => cases (List.append_eq_nil_iff.mp (hframes hfs)).2
      | closes h => exact ⟨_, rfl, h.reports houtcome⟩
  | converses h =>
      cases h.first with
      | waits hfs | collects hfs => cases hframes hfs
      | reports htalk h =>
          refine ⟨_, htalk, ?_⟩
          rcases h.cases_current with ⟨c, hc, hne⟩ | hcloses
          · exact absurd (hcurrent hc) hne
          · exact hcloses.reports houtcome

/-- What is said in a smooth test is a talk: all that the script yields is resolved once, in turn, by the
handler of its phase, and the script hears what came of it.  The test does not end before the script
does, and where that ends with a fault, the test ends with the same. -/
theorem script_conversed (hsmooth : setup.Smooth g) (h : (setup.machine g).Tells words m) :
    ∃ talk, Talk.Run setup.session.registry (.due .prepare (.ok .nothing)) words talk ∧
      ∀ o, m.world.scheduler.outcome? 0 = some o → ∃ reply, talk = .gone reply ∧
        ∀ fault, reply = .error fault → o = .fault fault := by
  obtain ⟨talk, hrun, htalks⟩ := hsmooth.talks h
  exact ⟨talk, hrun, fun o ho => htalks.reports h.steps ho⟩

/-- A script that says something in either phase: what is no command, nothing, commands of the first
phase and of the second, and at last one that comes too late. -/
def talkingScript : Script :=
  let ask (r : Request) (caught : Bool) : Instr := .ask r caught none
  let idle : Value := .callback ⟨"idle", [], none, none, .nothing⟩
  [ask (.bare (.int 1)) true, ask (.bare .nothing) false, ask (.hook false (.text "a") idle) false,
    ask (.page ["title"] [] []) false, ask (.bare .nothing) false, ask (.bare (.int 2)) true,
    ask (.hook false (.text "b") idle) false]

/-- The phase of a handler, with the type of the command that it gets. -/
private def Word.handler? : Word → Option (Phase × String)
  | .handled phase c => some (phase, c.type)
  | _ => none

/-- Whether a test has ended with a fault of use. -/
private def endsMisused (m : Machine) : Bool :=
  match m.world.scheduler.outcome? 0 with
  | some (.fault (.usage _)) => true
  | _ => false

/-- The script that talks in both phases has two of its commands handled, one in each, and the test ends
with the misuse that it does not catch. -/
theorem script_conversed_talking :
    let g : Generator := ⟨"script", .nothing, .before 0 talkingScript⟩
    let words := Machine.said 49 (TestSetup.plain.machine g)
    words.length = 26 ∧
    words.filterMap Word.handler? = [(.prepare, "spec.before"), (.run, "page")] ∧
    TestSetup.plain.Smooth g ∧
    (TestSetup.plain.machine g).Tells words (TestSetup.plainRun talkingScript 49) ∧
    ∃ cause reply, (TestSetup.plainRun talkingScript 49).world.scheduler.outcome? 0 =
        some (.fault (.usage cause)) ∧
      Talk.Run TestSetup.plain.session.registry (.due .prepare (.ok .nothing)) words (.gone reply) := by
  intro g words
  have hsmooth : TestSetup.plain.Smooth g :=
    TestSetup.smooth_of_runsSmooth (show (TestSetup.plain.machine g).runsSmooth 50 = true by decide +kernel)
  have htells : (TestSetup.plain.machine g).Tells words (TestSetup.plainRun talkingScript 49) :=
    Machine.tells_after 49 _
  refine ⟨by decide +kernel, by decide +kernel, hsmooth, htells, ?_⟩
  obtain ⟨talk, hrun, hends⟩ := script_conversed hsmooth htells
  have hmisused : endsMisused (TestSetup.plainRun talkingScript 49) = true := by decide +kernel
  unfold endsMisused at hmisused
  split at hmisused
  · next cause houtcome =>
      obtain ⟨reply, rfl, -⟩ := hends _ houtcome
      exact ⟨cause, reply, houtcome, hrun⟩
  · cases hmisused

end HotSpec
