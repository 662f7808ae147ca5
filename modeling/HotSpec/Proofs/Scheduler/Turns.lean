import HotSpec.Proofs.Scheduler.Growth

/-!
# What a turn changes

At the beginning of a turn a task is given what it goes on with, and at the end of the turn it gets
that back.  Other tasks go on with what they had.

Main results:

- Theorems `stack?_park`, `stack?_pause`: what a task goes on with after a turn.
- Theorem `beginTurn_spec`: what it is given at the beginning of one.
- Theorem `outcome?_finish`: the end of a task settles nothing but the future of its end.
-/

namespace HotSpec

namespace Scheduler

variable {Stack Job : Type} {s s' : Scheduler Stack Job} {t : TaskId}

theorem exists_task (ht : t < s.tasks.length) : ∃ task, s.task? t = some task :=
  ⟨s.tasks[t], List.getElem?_eq_getElem ht⟩

/-! ## Tasks that go on with something else -/

theorem awaiting_congr (h : s'.tasks = s.tasks) (u : TaskId) : s'.awaiting u = s.awaiting u := by
  unfold awaiting task?
  rw [h]

theorem stack?_setTask {task : Task Stack} (ht : t < s.tasks.length) (u : TaskId) :
    (s.setTask t task).stack? u = if u = t then some task.stack else s.stack? u := by
  unfold stack?
  rw [task?_setTask _ ht]
  split <;> rfl

/-- A task may go on with anything else. -/
theorem extends_setTask {old : Task Stack} (task : Task Stack) (hold : s.task? t = some old)
    (hfuture : task.future = old.future) : s.Extends 0 (s.setTask t task) where
  length := Nat.le_refl _
  form _ _ := rfl
  settled _ _ ho := ho
  tasks := List.length_set
  ending? u _ := ending?_setTask hold hfuture u

/-- Nothing but the futures and the tasks matters. -/
theorem extends_of_eq (hfutures : s'.futures = s.futures) (htasks : s'.tasks = s.tasks) :
    s.Extends 0 s' where
  length := Nat.le_of_eq (by rw [hfutures])
  form f _ := by rw [kind_congr hfutures]
  settled f o ho := by
    rw [outcome?_congr hfutures]
    exact ho
  tasks := by rw [htasks]; rfl
  ending? u _ := by simp only [Scheduler.ending?, task?, htasks]

theorem extends_enqueue (hs : List (Handle Job)) : s.Extends 0 (s.enqueue hs) :=
  extends_of_eq rfl rfl

/-! ## The end of a turn -/

theorem stack?_park (ht : t < s.tasks.length) (f : FutureId) (stack : Stack) (u : TaskId) :
    (s.park t f stack).stack? u = if u = t then some stack else s.stack? u := by
  obtain ⟨task, htask⟩ := exists_task ht
  have hwatch (u : TaskId) : (s.watch f (.task t)).stack? u = s.stack? u := by
    simp only [stack?, task?, tasks_watch]
  unfold park
  rw [htask]
  simp only
  rw [stack?_setTask (by rw [tasks_watch]; exact ht), hwatch]

theorem stack?_pause (ht : t < s.tasks.length) (stack : Stack) (u : TaskId) :
    (s.pause t stack).stack? u = if u = t then some stack else s.stack? u := by
  obtain ⟨task, htask⟩ := exists_task ht
  unfold pause
  rw [htask]
  exact stack?_setTask ht u

theorem awaiting_park (ht : t < s.tasks.length) (f : FutureId) (stack : Stack) (u : TaskId) :
    (s.park t f stack).awaiting u = if u = t then some f else s.awaiting u := by
  obtain ⟨task, htask⟩ := exists_task ht
  unfold park
  rw [htask]
  simp only
  rw [awaiting_setTask _ (by rw [tasks_watch]; exact ht), awaiting_congr (tasks_watch f _)]

theorem awaiting_pause (t : TaskId) (stack : Stack) (u : TaskId) :
    (s.pause t stack).awaiting u = s.awaiting u := by
  unfold pause
  cases htask : s.task? t with
  | none => rfl
  | some task =>
      change (s.setTask t { task with stack }).awaiting u = _
      rw [awaiting_setTask _ (lt_of_task htask)]
      split
      · next hu =>
          rw [hu]
          unfold awaiting
          rw [htask]
          rfl
      · rfl

theorem kind_park (t : TaskId) (f : FutureId) (stack : Stack) (g : FutureId) :
    (s.park t f stack).kind g = s.kind g := by
  unfold park
  cases s.task? t with
  | none => rfl
  | some task => exact kind_watch f _ g

theorem kind_pause (t : TaskId) (stack : Stack) (g : FutureId) :
    (s.pause t stack).kind g = s.kind g := by
  unfold pause
  cases s.task? t with
  | none => rfl
  | some task => rfl

theorem outcome?_park (t : TaskId) (f : FutureId) (stack : Stack) (g : FutureId) :
    (s.park t f stack).outcome? g = s.outcome? g := by
  unfold park
  cases s.task? t with
  | none => rfl
  | some task => exact outcome?_watch f _ g

theorem outcome?_pause (t : TaskId) (stack : Stack) (g : FutureId) :
    (s.pause t stack).outcome? g = s.outcome? g := by
  unfold pause
  cases s.task? t with
  | none => rfl
  | some task => rfl

theorem extends_park (t : TaskId) (f : FutureId) (stack : Stack) :
    s.Extends 0 (s.park t f stack) := by
  unfold park
  cases htask : s.task? t with
  | none => exact (Grows.refl s).toExtends
  | some task =>
      have htask' : (s.watch f (.task t)).task? t = some task := by
        unfold task?
        rw [tasks_watch]
        exact htask
      exact (Grows.watch s f (.task t)).toExtends.trans
        (extends_setTask { task with stack, awaiting := some f } htask' rfl)

theorem extends_pause (t : TaskId) (stack : Stack) : s.Extends 0 (s.pause t stack) := by
  unfold pause
  cases htask : s.task? t with
  | none => exact (Grows.refl s).toExtends
  | some task => exact (extends_setTask { task with stack } htask rfl).trans (extends_enqueue _)

/-! ## The beginning of a turn -/

/-- What a task is given at the beginning of a turn, which nothing else changes at. -/
theorem beginTurn_spec [Inhabited Stack] {o : Outcome} {given : Stack × Outcome}
    (h : s.beginTurn t o = some (given, s')) :
    s.stack? t = some given.1 ∧
      (∀ u, s'.stack? u = if u = t then some default else s.stack? u) ∧
      (∀ u, s'.awaiting u = if u = t then none else s.awaiting u) ∧
      s'.futures = s.futures ∧ s.Extends 0 s' := by
  unfold beginTurn at h
  obtain ⟨task, htask, heq⟩ := Option.map_eq_some_iff.mp h
  cases heq
  refine ⟨?_, stack?_setTask (lt_of_task htask), ?_, rfl, extends_setTask _ htask rfl⟩
  · unfold stack?
    rw [htask]
    rfl
  · intro u
    rw [awaiting_setTask _ (lt_of_task htask)]

/-- A task is given what it should be, unless it is to be stopped. -/
theorem given_beginTurn [Inhabited Stack] {o : Outcome} {given : Stack × Outcome}
    (h : s.beginTurn t o = some (given, s')) :
    given.2 = o ∨ given.2 = .stopped ∧ s.stopping t = true := by
  unfold beginTurn at h
  obtain ⟨task, htask, heq⟩ := Option.map_eq_some_iff.mp h
  cases heq
  simp only
  split
  · next hstop =>
      refine .inr ⟨rfl, ?_⟩
      unfold stopping
      rw [htask]
      exact hstop
  · exact .inl rfl

/-- A task that there is can be given a turn. -/
theorem exists_beginTurn [Inhabited Stack] (ht : t < s.tasks.length) (o : Outcome) :
    ∃ given s', s.beginTurn t o = some (given, s') := by
  obtain ⟨task, htask⟩ := exists_task ht
  unfold beginTurn
  rw [htask]
  exact ⟨_, _, rfl⟩

/-! ## The end of a task -/

/-- The end of a task settles nothing but the future of its end. -/
theorem outcome?_finish {f : FutureId} (hending : s.ending? t = some f) (o : Outcome)
    (hlt : f < s.futures.length) (g : FutureId) :
    (s.finish t o).outcome? g = if g = f ∧ s.outcome? f = none then some o else s.outcome? g := by
  unfold ending? at hending
  obtain ⟨task, htask, rfl⟩ := Option.map_eq_some_iff.mp hending
  unfold finish
  rw [htask]
  by_cases hopen : s.outcome? task.future = none
  · simp only
    rw [outcome?_settle o hopen hlt]
    simp [hopen]
  · rw [if_neg fun h => hopen h.2]
    exact congrArg (·.outcome? g) (settle_of_settled fun h => hopen h.1)

theorem tasks_finish (t : TaskId) (o : Outcome) : (s.finish t o).tasks = s.tasks := by
  unfold finish
  cases s.task? t with
  | none => rfl
  | some task => exact tasks_settle _ _

theorem kind_finish (t : TaskId) (o : Outcome) (f : FutureId) :
    (s.finish t o).kind f = s.kind f := by
  unfold finish
  cases s.task? t with
  | none => rfl
  | some task => exact kind_settle _ _ f

/-- The end of a task is told to those who have waited for it. -/
theorem Groups.finish {busy : Option TaskId} (hg : s.Groups) (hs : s.Threads busy) (t : TaskId)
    (o : Outcome) : (s.finish t o).Groups := by
  unfold Scheduler.finish
  cases htask : s.task? t with
  | none => exact hg
  | some task =>
      refine hg.settle_of_not_group ?_ o
      rw [(hs.ending t task.future).mp (by unfold ending?; rw [htask]; rfl)]
      rfl

theorem extends_finish (t : TaskId) (o : Outcome) : s.Extends 0 (s.finish t o) := by
  have htasks := tasks_finish (s := s) t o
  refine ⟨?_, fun f _ => by rw [kind_finish], ?_, by rw [htasks]; rfl, ?_⟩
  · unfold finish
    cases s.task? t with
    | none => exact Nat.le_refl _
    | some task => exact Nat.le_of_eq (length_settle _ _).symm
  · intro f o' ho
    unfold finish
    cases s.task? t with
    | none => exact ho
    | some task => exact outcome?_settle_of_some ho _ _
  · intro u _
    simp only [Scheduler.ending?, task?, htasks]

end Scheduler

end HotSpec
