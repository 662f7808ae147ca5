import HotSpec.Proofs.Engine.Joins

/-!
# Which fault is raised

A task that waits for several futures goes on with a fault if one of them has failed.  It is told of
the first failure, but looks at all of them only when it has its turn and those that were open are
settled too.  So what counts is the order in which the futures stand, not the one in which they failed.

Main definitions:

- `Machine.FailsFirst`: a future that was the first of several to fail.

Main results:

- Theorem `raised_in_order`: the fault of the first failed future in their order is raised; the future
  that failed first in time is outdone by those in front of it that have failed by the end of the wait.
- Theorem `raised_late`: a race in which the load is not the first to fail, but its fault is raised.
-/

namespace HotSpec

/-- Whether a future was the first of several to fail, on the way from a machine to a later one. -/
def Machine.FailsFirst (m m' : Machine) (members : List FutureId) (i : FutureId) (f : Fault) : Prop :=
  ∃ m₁, m.Steps m₁ ∧ m₁.Steps m' ∧ m₁.world.scheduler.outcome? i = some (.fault f) ∧
    ∀ j ∈ members, m₁.world.scheduler.faulted j = true → j = i

theorem Scheduler.faulted_iff {Stack Job : Type} {s : Scheduler Stack Job} {i : FutureId} :
    s.faulted i = true ↔ ∃ f, s.outcome? i = some (.fault f) := by
  unfold Scheduler.faulted
  cases s.outcome? i with
  | none => simp
  | some o => cases o <;> simp [Outcome.isFault]

/-- Where several futures are settled and some have failed, the first fault in their order is the
outcome of all. -/
theorem World.jointOutcome_of_find {w : World} {members : List FutureId} (results : Bool) {i : FutureId}
    (hfind : members.find? (w.scheduler.faulted ·) = some i) :
    w.scheduler.outcome? i = some (w.jointOutcome members results) := by
  obtain ⟨f, hf⟩ := Scheduler.faulted_iff.mp (List.find?_some hfind)
  rw [hf]
  unfold jointOutcome Move.outcomeOf
  obtain ⟨before, behind, hmembers, hbefore⟩ := (List.find?_eq_some_iff_append.mp hfind).2
  have hnone : ∀ o ∈ before.filterMap w.scheduler.outcome?, o.isFault = false := by
    intro o' ho'
    obtain ⟨j, hj, hjo⟩ := List.mem_filterMap.mp ho'
    have hnot := hbefore j hj
    unfold Scheduler.faulted at hnot
    rw [hjo] at hnot
    simpa using hnot
  have hfirst : (members.filterMap w.scheduler.outcome?).find? Outcome.isFault = some (.fault f) := by
    rw [hmembers, List.filterMap_append, List.filterMap_cons, hf, List.find?_append,
      List.find?_eq_none.mpr (by simpa using hnone)]
    rfl
  rw [hfirst]

variable {w : World} {work : Work} {m m₁ m' : Machine} {t : TaskId} {stack : List Frame}
  {members : List FutureId} {results : Bool} {o : Outcome}

/-- Where some of several futures have failed, the fault of the first of these in their order is raised,
whichever failed first in time, unless the task was cancelled in the meantime.  So the future that
failed first is outdone exactly by those in front of it that have failed by the end of the wait. -/
theorem raised_in_order (h : w.Runs work m) (hjoins : m.Joins t members results stack m₁)
    (hduring : Machine.During t stack m₁ m') (hdone : m'.current = some (t, .outcome o stack))
    (hfailed : ∃ i ∈ members, m'.world.scheduler.faulted i = true) :
    (o = .stopped ∧ m.CancelledTo m' t) ∨
      (∃ i, members.find? (m'.world.scheduler.faulted ·) = some i ∧
        m'.world.scheduler.outcome? i = some o) ∧
      ∀ before i behind f, members = before ++ i :: behind → m₁.FailsFirst m' members i f →
        ((∀ j ∈ before, m'.world.scheduler.faulted j = false) → o = .fault f) ∧
        ((∃ j ∈ before, m'.world.scheduler.faulted j = true) →
          ∃ j ∈ before, m'.world.scheduler.outcome? j = some o) := by
  obtain ⟨-, hjoint | hstop, hstopped⟩ := h.joint hjoins hduring hdone
  swap
  · exact .inl ⟨hstop, hstopped hstop⟩
  have hfirst {i : FutureId} (hfind : members.find? (m'.world.scheduler.faulted ·) = some i) :
      m'.world.scheduler.outcome? i = some o := by
    rw [hjoint]
    exact World.jointOutcome_of_find results hfind
  refine .inr ⟨?_, ?_⟩
  · obtain ⟨i, hfind⟩ := Option.isSome_iff_exists.mp (List.find?_isSome.mpr hfailed)
    exact ⟨i, hfind, hfirst hfind⟩
  · rintro before i behind f rfl ⟨m₂, hbefore, hafter, hfault, -⟩
    have hm₂ := (h.trans (.single hjoins.step)).trans hbefore
    obtain ⟨more, hgrows⟩ := hafter.grows hm₂.sound
    have hfault' := hgrows.settled i _ hfault
    have hfaulted : m'.world.scheduler.faulted i = true := Scheduler.faulted_iff.mpr ⟨f, hfault'⟩
    refine ⟨fun hnone => ?_, fun hsome => ?_⟩
    · have hfind : (before ++ i :: behind).find? (m'.world.scheduler.faulted ·) = some i := by
        rw [List.find?_append, List.find?_eq_none.mpr (by simpa using hnone)]
        simp [hfaulted]
      exact Option.some.inj ((hfirst hfind).symm.trans hfault')
    · obtain ⟨j, hfind⟩ := Option.isSome_iff_exists.mp (List.find?_isSome.mpr hsome)
      refine ⟨j, List.mem_of_find?_eq_some hfind, hfirst ?_⟩
      rw [List.find?_append, hfind]
      rfl

/-! ## A fault that comes late -/

open TestSetup

/-- A script with an effect that tells the test to fail and fails by itself after that. -/
def lateScript : Script :=
  [.ask (.effect (.own [.fail none "boom"] (some ⟨.value, "late"⟩) .nothing)) false none]

/-- Whether a task waits for the first fault of a race. -/
private def racesFor (m : Machine) (t : TaskId) (members : List FutureId) (depth : Nat) : Bool :=
  match m.frames t with
  | some (.joined members' false :: fs) => members' = members && fs.length = depth
  | _ => false

/-- Whether a task has come to a fault of a script's own. -/
private def raises (m : Machine) (t : TaskId) (message : String) (depth : Nat) : Bool :=
  match m.current with
  | some (u, .outcome (.fault (.given ⟨.value, message'⟩)) fs) =>
    u = t && message' = message && fs.length = depth
  | _ => false

/-- The run phase of the script: the load, the verdict and the fail signal race from the ninth step on,
and the race ends with the fault of the load. -/
theorem late_race : ∃ stack,
    (plainRun lateScript 8).Joins 0 [3, 1, 2] false stack (plainRun lateScript 9) ∧
      Machine.During 0 stack (plainRun lateScript 9) (plainRun lateScript 30) ∧
      (plainRun lateScript 30).current =
        some (0, .outcome (.fault (.given ⟨.value, "late"⟩)) stack) := by
  have hsound := (reaches_plainRun lateScript 9).sound
  have hraces : racesFor (plainRun lateScript 9) 0 [3, 1, 2] 3 = true := by decide +kernel
  have hraises : raises (plainRun lateScript 30) 0 "late" 3 = true := by decide +kernel
  unfold racesFor at hraces
  split at hraces
  · next members' stack hfs =>
      simp only [Bool.and_eq_true, decide_eq_true_eq] at hraces
      obtain ⟨rfl, hlength⟩ := hraces
      unfold raises at hraises
      split at hraises
      · next u message' stack' hcurrent =>
          simp only [Bool.and_eq_true, decide_eq_true_eq] at hraises
          obtain ⟨⟨rfl, rfl⟩, hlength'⟩ := hraises
          have hduring : Machine.During 0 stack (plainRun lateScript 9) (plainRun lateScript 30) := by
            have hlater : plainRun lateScript 30 = Machine.after 21 (plainRun lateScript 9) :=
              Machine.after_add 9 21 _
            rw [hlater]
            exact Machine.during_after [.joined [3, 1, 2] false] hsound hfs 21
              (by rw [hlength]; decide +kernel)
          have hsame : stack' = stack := hduring.eq_of_length [.joined [3, 1, 2] false] hsound hfs
            (Machine.frames_current hcurrent) (hlength'.trans hlength.symm)
          subst hsame
          exact ⟨stack', ⟨by decide +kernel, step_plainRun (by decide +kernel), hfs⟩, hduring, hcurrent⟩
      · cases hraises
  · cases hraces

/-- Whether a future has failed as the test was told to. -/
private def failsAs (m : Machine) (i : FutureId) (message : String) : Bool :=
  match m.world.scheduler.outcome? i with
  | some (.fault (.failure message')) => message' = message
  | _ => false

/-- The fail signal is the first of the race to fail. -/
theorem late_signal : (plainRun lateScript 9).FailsFirst (plainRun lateScript 30) [3, 1, 2] 2
    (.failure "boom") := by
  have hfails : failsAs (plainRun lateScript 18) 2 "boom" = true := by decide +kernel
  unfold failsAs at hfails
  split at hfails
  · next message' houtcome =>
      obtain rfl : message' = "boom" := by simpa using hfails
      exact ⟨plainRun lateScript 18, steps_plainRun lateScript 9 9, steps_plainRun lateScript 18 12,
        houtcome, by decide +kernel⟩
  · cases hfails

/-- What the race ends with is the fault of a future in front of the fail signal. -/
theorem raised_in_order_race : ∃ j ∈ [3, 1], (plainRun lateScript 30).world.scheduler.outcome? j =
    some (.fault (.given ⟨.value, "late"⟩)) := by
  obtain ⟨stack, hjoins, hduring, hdone⟩ := late_race
  rcases raised_in_order (reaches_plainRun lateScript 8).runs hjoins hduring hdone
    ⟨3, by simp, by decide +kernel⟩ with ⟨hstop, -⟩ | ⟨-, hplace⟩
  · cases hstop
  · exact (hplace [3, 1] 2 [] _ rfl late_signal).2 ⟨3, by simp, by decide +kernel⟩

/-- The fail signal is the first of the race to fail, but the fault of the load is raised. -/
theorem raised_late : ∃ stack,
    (plainRun lateScript 8).Joins 0 [3, 1, 2] false stack (plainRun lateScript 9) ∧
      Machine.During 0 stack (plainRun lateScript 9) (plainRun lateScript 30) ∧
      (plainRun lateScript 9).FailsFirst (plainRun lateScript 30) [3, 1, 2] 2 (.failure "boom") ∧
      (plainRun lateScript 30).current =
        some (0, .outcome (.fault (.given ⟨.value, "late"⟩)) stack) := by
  obtain ⟨stack, hjoins, hduring, hdone⟩ := late_race
  exact ⟨stack, hjoins, hduring, late_signal, hdone⟩

end HotSpec
