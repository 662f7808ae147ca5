import HotSpec.Proofs.Expectation.Failure

/-!
# Nothing is stopped in a test that its page does not fail

The race of the page is between the load, the verdict of the monitor and the fail signal.  As long as
neither of the last two fails, the load is not cancelled: it is settled by then, or nothing is.

Main results:

- Theorem `Reaches.racers`: who takes part in the race.
- Theorem `Reaches.load_settled`: where the race is over, the load is.
- Theorem `Reaches.unstopped`: neither the first task nor the one that loads the page is stopped.
-/

namespace HotSpec

/-- A future that leads to tasks belongs to the end of one. -/
theorem Scheduler.Below.task {Stack Job : Type} {s : Scheduler Stack Job} {f : FutureId} {u : TaskId}
    (h : s.Below f u) : ∃ t, s.kind f = .task t := by
  induction h with
  | here hk => exact ⟨_, hk⟩
  | further _ _ _ _ ih => exact ih

/-- The first task waits for the race, and for no other tasks. -/
theorem Driven.not_together {p : Processor} {subs : List Value} {stack : List Frame}
    (h : Driven (.begin (.together p subs) :: stack)) : False := by
  generalize hfs : Frame.begin (.together p subs) :: stack = fs at h
  cases h with
  | waits above habove hrest =>
      cases above with
      | nil => rcases hrest with rfl | rfl <;> cases hfs
      | cons f above =>
          obtain ⟨rfl, -⟩ := List.cons.inj hfs
          cases habove _ (List.mem_cons_self ..)
  | resets above habove hrest =>
      cases above with
      | nil => cases hfs
      | cons f above =>
          obtain ⟨rfl, -⟩ := List.cons.inj hfs
          cases habove _ (List.mem_cons_self ..)
  | _ => cases hfs

/-- The futures by which a page can fail the test are signals. -/
theorem World.Signals.of_heeds {w : World} (h : w.Signals) {f : FutureId} (hf : w.Heeds f) :
    w.scheduler.kind f = .signal ∧ f < w.scheduler.futures.length :=
  hf.elim (h.verdict f) (h.failSignal f)

namespace TestSetup

variable {setup : TestSetup} {g : Generator} {m m' : Machine}

/-- A wait for several futures does not fail by itself. -/
theorem Reaches.joined_outcome (h : setup.Reaches g m) {t : TaskId} {o : Outcome}
    {members : List FutureId} {results : Bool} {fs : List Frame}
    (hcurrent : m.current = some (t, .outcome o (.joined members results :: fs))) :
    o.isFault = false := by
  rcases h.cases_tail with rfl | ⟨m₀, hreach, hstep⟩
  · cases hcurrent
  · have hreach : setup.Reaches g m₀ := hreach
    obtain ⟨parent, hit, hspared⟩ := hreach.spared
    rcases hreach.sound.moves_or_rests hstep with ⟨u, head, stack, turn, new, w', hmoves⟩ | hrests
    · have hnext := hmoves.next.symm.trans hcurrent
      cases turn with
      | give o' =>
          cases hnext
          cases hspared.inner t _ _ hmoves.before _ (List.mem_cons_self ..)
      | _ => cases hnext
    · have hfs : m₀.frames t = some (.joined members results :: fs) := by
        rw [← hrests.frames]
        exact Machine.frames_current hcurrent
      have hidle := (hrests.current t _ hcurrent).1
      obtain ⟨i, hwait, hform⟩ :=
        hspared.joined t members results fs hfs (by rw [hidle]; simp)
      rcases hrests.given t _ _ hcurrent with ⟨rfl, -⟩ | ⟨rfl, -⟩ | ⟨i', hwait', ho⟩
      · rfl
      · rfl
      · cases hwait.symm.trans hwait'
        have hdecided := hreach.sound.groups.decided i _ ho
        unfold Scheduler.Decided at hdecided
        rw [hform] at hdecided
        exact hdecided.1

/-- The race of the first task is between the load of the page and the futures by which the page can
fail the test. -/
theorem Reaches.racers (h : setup.Reaches g m) {members : List FutureId} {results : Bool}
    {fs : List Frame} (hfs : m.frames 0 = some (.joined members results :: fs)) :
    ∀ i ∈ members, m.world.scheduler.kind i = .task 1 ∨ m.world.Heeds i := by
  induction h generalizing members results fs with
  | refl =>
      rw [frames_machine] at hfs
      cases hfs
  | @tail m₁ m₂ hfirst hlast ih =>
      have hreach : setup.Reaches g m₁ := hfirst
      have hm := hreach.sound
      have hold (hfs₁ : m₁.frames 0 = some (.joined members results :: fs))
          (htask : ∀ i, m₁.world.scheduler.kind i = .task 1 → m₂.world.scheduler.kind i = .task 1) :
          ∀ i ∈ members, m₂.world.scheduler.kind i = .task 1 ∨ m₂.world.Heeds i := by
        have hstarted : m₁.world.session.started = true := by
          rcases hreach.preparing_or_opened with hprep | ⟨labels, -, hopened⟩
          · cases hprep.early _ hfs₁ _ (List.mem_cons_self ..)
          · exact hopened.started
        intro i hi
        exact (ih hfs₁ i hi).imp (htask i) (hm.heeds_of_started hlast hstarted).mpr
      rcases hm.moves_or_rests hlast with ⟨t, head, stack, turn, new, w', hmoves⟩ | hrests
      · rcases hmoves.frames_old (Nat.zero_lt_of_lt (hmoves.lt hm)) hfs with ⟨rfl, heq⟩ | ⟨-, hfs⟩
        · obtain ⟨parent, hit, hspared⟩ := hreach.spared
          have hmem : .joined members results ∈ turn.frames := hspared.mem_of_wait hmoves heq rfl
          rcases hmoves.rule.quiet_or_asks with ⟨-, -, hplain⟩ | hasks
          · cases hplain _ hmem
          · cases hasks with
            | together => exact (hreach.driven hmoves.before).not_together.elim
            | @opened first v =>
                have hprep : m₁.Preparing := by
                  rcases hreach.preparing_or_opened with hprep | ⟨labels, -, hopened⟩
                  · exact hprep
                  · cases hopened.resets 0 _ hmoves.before _ (List.mem_cons_self ..)
                have hstarted := hprep.started hmoves.before
                obtain ⟨hmembers, -⟩ : members = m₁.world.racers ∧ results = false := by
                  simpa [Turn.frames] using hmem
                rw [hmembers]
                intro i hi
                unfold World.racers at hi
                rcases List.mem_append.mp hi with hi | hi
                · rcases List.mem_cons.mp hi with rfl | hi
                  · exact .inl (hprep.racing hmoves).kind
                  · refine .inr ((hm.heeds_of_started hlast hstarted).mpr (.inl ?_))
                    exact Option.mem_toList.mp hi
                · refine .inr ((hm.heeds_of_started hlast hstarted).mpr (.inr ?_))
                  exact Option.mem_toList.mp hi
            | _ => simp [Turn.frames] at hmem
        · exact hold hfs fun i hk => hmoves.grows.task hk
      · rw [hrests.frames] at hfs
        exact hold hfs fun i hk => hrests.grows.task hk

/-- Where the race is over and the page has not failed the test, the load is settled. -/
theorem Reaches.load_settled (h : setup.Reaches g m) (hfine : ¬m.world.Failed) {o : Outcome}
    {members : List FutureId} {results : Bool} {fs : List Frame}
    (hcurrent : m.current = some (0, .outcome o (.joined members results :: fs))) :
    (∃ v, o = .value v) ∧ ∀ i ∈ members, m.world.scheduler.kind i = .task 1 →
      m.world.scheduler.outcome? i ≠ none := by
  obtain ⟨parent, hit, hspared⟩ := h.spared
  have hfs := Machine.frames_current hcurrent
  cases o with
  | fault fault => cases h.joined_outcome hcurrent
  | stopped => exact absurd (hspared.stopped 0 _ hcurrent) hspared.root
  | value v =>
      refine ⟨⟨v, rfl⟩, fun i hi hkind => ?_⟩
      rcases hspared.value 0 v members results fs hcurrent with hall | ⟨j, hj, hfault⟩
      · exact hall i hi
      · rcases h.racers hfs j hj with hk | hheeds
        · have hthreads := h.sound.threads
          rw [hthreads.task_unique hkind hk]
          exact Scheduler.settled_of_faulted hfault
        · exact absurd ⟨j, hheeds, hfault⟩ hfine

/-- In a test that its page does not fail, the load of the page is not cancelled. -/
theorem Reaches.spared_load (h : setup.Reaches g m)
    (hfine : ∀ m, setup.Reaches g m → ¬m.world.Failed) :
    ∃ parent hit, m.Spared parent hit ∧ ¬hit 1 := by
  induction h with
  | refl => exact ⟨_, _, spared_machine setup g, id⟩
  | @tail m₁ m₂ hfirst hlast ih =>
      have hreach : setup.Reaches g m₁ := hfirst
      have hm := hreach.sound
      obtain ⟨parent, hit, hspared, hone⟩ := ih
      rcases hm.moves_or_rests hlast with ⟨t, head, stack, turn, new, w', hmoves⟩ | hrests
      · obtain ⟨hit', hspared', hhits⟩ := hspared.moves hm hmoves
        refine ⟨_, hit', hspared', fun hit₁ => ?_⟩
        rcases hhits 1 hit₁ with hold | ⟨members, results, o, rfl, i, hi, hbelow⟩
        · exact hone hold
        · obtain ⟨himem, hiopen⟩ := List.mem_filter.mp hi
          -- Only the first task waits for the one that loads the page.
          have ht : t = 0 := Nat.lt_one_iff.mp
            (hspared.below hmoves.before (List.mem_cons_self ..) himem hbelow).1
          subst ht
          have hsettled := (hreach.load_settled (hfine m₁ hreach) hmoves.current).2 i himem
          rcases hreach.racers hmoves.before i himem with hk | hheeds
          · rw [Scheduler.isSettled_eq] at hiopen
            exact hsettled hk (by simpa using hiopen)
          · obtain ⟨u, hu⟩ := hbelow.task
            cases (hm.signals.of_heeds hheeds).1.symm.trans hu
      · exact ⟨parent, hit, hspared.rests hm hrests, hone⟩

/-- In a test that its page does not fail, neither the first task nor the one that loads the page is
stopped. -/
theorem Reaches.unstopped (h : setup.Reaches g m)
    (hfine : ∀ m, setup.Reaches g m → ¬m.world.Failed) {t : TaskId} (ht : t = 0 ∨ t = 1)
    {o : Outcome} {fs : List Frame} (hcurrent : m.current = some (t, .outcome o fs)) :
    o ≠ .stopped := by
  rintro rfl
  obtain ⟨parent, hit, hspared, hone⟩ := h.spared_load hfine
  have hhit := hspared.stopped t fs hcurrent
  rcases ht with rfl | rfl
  · exact hspared.root hhit
  · exact hone hhit

end TestSetup

end HotSpec
