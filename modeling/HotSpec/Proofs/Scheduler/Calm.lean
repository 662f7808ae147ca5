import HotSpec.Proofs.Scheduler.Cancel

/-!
# Tasks that nobody has stopped

A task is stopped only if it was hit by a cancellation.  Which tasks were hit is not part of the
scheduler: it is enough that there are such tasks.

Main results:

- Theorem `Calm.cancel`: a cancellation stops nothing but what it hits.
- Theorems `Calm.settle`, `Calm.tell`, `Calm.park`: nothing else stops anybody.
-/

namespace HotSpec

namespace Scheduler

variable {Stack Job : Type} {s s' : Scheduler Stack Job} {hit hit' : TaskId → Prop}

/-- Every task that has been stopped, or is going to be, was hit. -/
structure Calm (s : Scheduler Stack Job) (hit : TaskId → Prop) : Prop where
  ended : ∀ t f, s.kind f = .task t → s.outcome? f = some .stopped → hit t
  stopping : ∀ t, s.stopping t = true → hit t
  awaited : ∀ t f, s.awaiting t = some f → s.outcome? f = some .stopped → hit t
  group : ∀ t f members left, s.awaiting t = some f → s.kind f = .all members left true → hit t

/-- More tasks may have been hit. -/
theorem Calm.mono (h : s.Calm hit) (hsub : ∀ t, hit t → hit' t) : s.Calm hit' where
  ended t f hk ho := hsub t (h.ended t f hk ho)
  stopping t ht := hsub t (h.stopping t ht)
  awaited t f hwait ho := hsub t (h.awaited t f hwait ho)
  group t f members left hwait hk := hsub t (h.group t f members left hwait hk)

/-- Nothing but a few views matters for who was stopped. -/
theorem Calm.congr (h : s.Calm hit)
    (hkind : ∀ f k, s'.kind f = k → s.kind f = k ∨
      s'.outcome? f ≠ some .stopped ∧ ∀ members left, k ≠ .all members left true)
    (houtcome : ∀ f, s'.outcome? f = some .stopped → s.outcome? f = some .stopped)
    (hstopping : ∀ t, s'.stopping t = true → s.stopping t = true)
    (hawaiting : ∀ t f, s'.awaiting t = some f → s.awaiting t = some f ∨
      s'.outcome? f ≠ some .stopped ∧ ∀ members left, s'.kind f ≠ .all members left true) :
    s'.Calm hit where
  ended t f hk ho := by
    rcases hkind f _ hk with hk' | ⟨hno, -⟩
    · exact h.ended t f hk' (houtcome f ho)
    · exact absurd ho hno
  stopping t ht := h.stopping t (hstopping t ht)
  awaited t f hwait ho := by
    rcases hawaiting t f hwait with hwait' | ⟨hno, -⟩
    · exact h.awaited t f hwait' (houtcome f ho)
    · exact absurd ho hno
  group t f members left hwait hk := by
    rcases hawaiting t f hwait with hwait' | ⟨-, hno⟩
    · rcases hkind f _ hk with hk' | ⟨-, hno⟩
      · exact h.group t f members left hwait' hk'
      · exact absurd rfl (hno members left)
    · exact absurd hk (hno members left)

/-- Two schedulers with the same futures. -/
theorem kind_congr (h : s'.futures = s.futures) (f : FutureId) : s'.kind f = s.kind f := by
  unfold kind future
  rw [h]

theorem outcome?_congr (h : s'.futures = s.futures) (f : FutureId) :
    s'.outcome? f = s.outcome? f := by
  unfold outcome? future
  rw [h]

/-- Only futures and tasks matter. -/
theorem Calm.of_eq (h : s.Calm hit) (hfutures : s'.futures = s.futures)
    (htasks : s'.tasks = s.tasks) : s'.Calm hit := by
  refine h.congr (fun f k hk => .inl ?_) (fun f ho => ?_) (fun t ht => ?_) fun t f hw => .inl ?_
  · rw [← hk, kind_congr hfutures]
  · rw [← ho, outcome?_congr hfutures]
  · unfold Scheduler.stopping task? at ht ⊢
    rw [← htasks]
    exact ht
  · unfold awaiting task? at hw ⊢
    rw [← htasks]
    exact hw

theorem Calm.takes {handle : Handle Job} (h : s.Calm hit) (ht : s.Takes handle s') :
    s'.Calm hit := h.of_eq ht.futures ht.tasks

/-! ## Futures -/

/-- A future may be settled at will, but be stopped only for a task that was hit. -/
theorem Calm.settle (h : s.Calm hit) (f : FutureId) {o : Outcome}
    (htask : ∀ t, s.kind f = .task t → o = .stopped → hit t)
    (hwait : ∀ t, s.awaiting t = some f → o = .stopped → hit t) : (s.settle f o).Calm hit := by
  have hstopping (t : TaskId) : (s.settle f o).stopping t = s.stopping t := by
    unfold Scheduler.stopping task?
    rw [tasks_settle]
  by_cases hopen : s.outcome? f = none ∧ f < s.futures.length
  swap
  · rw [settle_of_settled hopen]
    exact h
  obtain ⟨hopen, hlt⟩ := hopen
  refine ⟨?_, ?_, ?_, ?_⟩
  · intro t g hk ho
    rw [kind_settle] at hk
    rw [outcome?_settle o hopen hlt] at ho
    split at ho
    · next hg =>
        subst hg
        exact htask t hk (Option.some.inj ho)
    · exact h.ended t g hk ho
  · intro t ht
    rw [hstopping] at ht
    exact h.stopping t ht
  · intro t g hw ho
    rw [awaiting_settle] at hw
    rw [outcome?_settle o hopen hlt] at ho
    split at ho
    · next hg =>
        subst hg
        exact hwait t hw (Option.some.inj ho)
    · exact h.awaited t g hw ho
  · intro t g members left hw hk
    rw [awaiting_settle] at hw
    rw [kind_settle] at hk
    exact h.group t g members left hw hk

theorem Calm.settle_of_ne (h : s.Calm hit) (f : FutureId) {o : Outcome} (ho : o ≠ .stopped) :
    (s.settle f o).Calm hit :=
  h.settle f (fun _ _ heq => absurd heq ho) fun _ _ heq => absurd heq ho

theorem Calm.release (h : s.Calm hit) (f : FutureId) : (s.release f).Calm hit := by
  unfold Scheduler.release
  split
  · exact h.settle_of_ne f (by simp [Outcome.finished])
  · exact h

/-- Nobody is stopped by a signal. -/
theorem Calm.settle_signal {busy : Option TaskId} (h : s.Calm hit) (hs : s.Threads busy)
    {f : FutureId} (hf : s.kind f = .signal) (o : Outcome) : (s.settle f o).Calm hit := by
  refine h.settle f (fun t hk => ?_) fun t hw => ?_
  · rw [hf] at hk
    cases hk
  · have hmember := hs.awaited t f hw
    rw [hf] at hmember
    cases hmember

theorem Calm.newFuture (h : s.Calm hit) {k : FutureKind}
    (hk : ∀ members left, k ≠ .all members left true) : (s.newFuture k).2.Calm hit := by
  refine h.congr ?_ ?_ (fun _ ht => ht) fun _ _ hw => .inl hw
  · intro f k' hf
    rw [kind_newFuture] at hf
    split at hf
    · next hlength =>
        subst hlength hf
        refine .inr ⟨?_, hk⟩
        rw [outcome?_newFuture, outcome?_length]
        simp
    · exact .inl hf
  · intro f ho
    rw [outcome?_newFuture] at ho
    exact ho

theorem Calm.watch (h : s.Calm hit) (f : FutureId) (w : Watcher) : (s.watch f w).Calm hit := by
  refine h.congr (fun g k hk => .inl ?_) (fun g ho => ?_) (fun t ht => ?_) fun t g hw => .inl ?_
  · rw [kind_watch] at hk
    exact hk
  · rw [outcome?_watch] at ho
    exact ho
  · unfold Scheduler.stopping task? at ht ⊢
    rw [tasks_watch] at ht
    exact ht
  · unfold awaiting task? at hw ⊢
    rw [tasks_watch] at hw
    exact hw

theorem Calm.watchAll (h : s.Calm hit) (g : FutureId) (members : List FutureId) :
    (s.watchAll g members).Calm hit := by
  induction members generalizing s with
  | nil => exact h
  | cons m ms ih => exact ih (h.watch m _)

theorem Calm.gather (h : s.Calm hit) {k : FutureKind}
    (hk : ∀ members left, k ≠ .all members left true) (members : List FutureId) :
    (s.gather k members).2.Calm hit :=
  (h.newFuture hk).watchAll _ members

/-- Futures that wait for others may come to wait in another way, but to be stopping only for tasks
that were hit. -/
theorem Calm.setKind (h : s.Calm hit) {f : FutureId} {k : FutureKind}
    (hf : (s.kind f).isGroup = true)
    (htask : ∀ t, k ≠ .task t)
    (hk : ∀ members left, k = .all members left true → ∀ t, s.awaiting t = some f → hit t) :
    (s.setKind f k).Calm hit := by
  have hlt : f < s.futures.length := lt_of_group hf
  refine ⟨?_, h.stopping, ?_, ?_⟩
  · intro t g hkg ho
    rw [kind_setKind k hlt] at hkg
    rw [outcome?_setKind] at ho
    split at hkg
    · exact absurd hkg (htask t)
    · exact h.ended t g hkg ho
  · intro t g hw ho
    rw [outcome?_setKind] at ho
    exact h.awaited t g hw ho
  · intro t g members left hw hkg
    rw [kind_setKind k hlt] at hkg
    split at hkg
    · next hg =>
        subst hg
        exact hk members left hkg t hw
    · exact h.group t g members left hw hkg

/-- A future that is told of others is stopped only if it was stopping. -/
theorem Calm.tell (h : s.Calm hit) (g m : FutureId) : (s.tell g m).Calm hit := by
  cases hkind : s.kind g with
  | firstFault members left =>
      have hset : (s.setKind g (.firstFault members (left - 1))).Calm hit :=
        h.setKind (by rw [hkind]; rfl) (by simp) (by simp)
      rw [tell_firstFault hkind]
      split
      · exact hset.settle_of_ne g (by simp [Outcome.finished])
      · exact hset
  | all members left stopping =>
      have hlt : g < s.futures.length := lt_of_kind (by rw [hkind]; simp)
      have hset : (s.setKind g (.all members (left - 1) stopping)).Calm hit := by
        refine h.setKind (by rw [hkind]; rfl) (by simp) ?_
        rintro _ _ ⟨⟩ t hw
        exact h.group t g members left hw hkind
      rw [tell_all hkind]
      split
      · refine hset.settle g ?_ ?_
        · intro t hk
          rw [kind_setKind _ hlt, if_pos rfl] at hk
          cases hk
        · intro t hw ho
          cases stopping with
          | true => exact h.group t g members left hw hkind
          | false => cases ho
      · exact hset
  | signal | released | task t =>
      unfold kind at hkind
      simpa [Scheduler.tell, hkind] using h

/-! ## Tasks -/

/-- A task may go on with anything else, if it waits for nothing that was stopped. -/
theorem Calm.setTask (h : s.Calm hit) {t : TaskId} {task : Task Stack} (hlt : t < s.tasks.length)
    (hstopping : task.stopping = true → hit t)
    (hawaiting : ∀ f, task.awaiting = some f → s.awaiting t = some f ∨
      s.outcome? f ≠ some .stopped ∧ ∀ members left, s.kind f ≠ .all members left true) :
    (s.setTask t task).Calm hit := by
  have hwait (u : TaskId) (f : FutureId) (hw : (s.setTask t task).awaiting u = some f) :
      s.awaiting u = some f ∨
        s.outcome? f ≠ some .stopped ∧ ∀ members left, s.kind f ≠ .all members left true := by
    rw [awaiting_setTask _ hlt] at hw
    split at hw
    · next hu =>
        subst hu
        exact hawaiting f hw
    · exact .inl hw
  refine ⟨h.ended, ?_, ?_, ?_⟩
  · intro u hu
    unfold Scheduler.stopping at hu
    rw [task?_setTask _ hlt] at hu
    split at hu
    · next hut =>
        subst hut
        exact hstopping hu
    · exact h.stopping u hu
  · intro u f hw ho
    rcases hwait u f hw with hw | ⟨hno, -⟩
    · exact h.awaited u f hw ho
    · exact absurd ho hno
  · intro u f members left hw hk
    rcases hwait u f hw with hw | ⟨-, hno⟩
    · exact h.group u f members left hw hk
    · exact absurd hk (hno members left)

theorem Calm.newTask (h : s.Calm hit) (stack : Stack) : (s.newTask stack).2.Calm hit := by
  refine h.congr ?_ ?_ ?_ ?_
  · intro f k hk
    rw [kind_newTask] at hk
    split at hk
    · next hf =>
        subst hf hk
        refine .inr ⟨?_, by simp⟩
        change (s.newFuture _).2.outcome? _ ≠ _
        rw [outcome?_newFuture, outcome?_length]
        simp
    · exact .inl hk
  · intro f ho
    change (s.newFuture _).2.outcome? _ = _ at ho
    rw [outcome?_newFuture] at ho
    exact ho
  · intro t ht
    unfold Scheduler.stopping at ht ⊢
    rw [task?_newTask] at ht
    split at ht
    · cases ht
    · exact ht
  · intro t f hw
    rw [awaiting_newTask] at hw
    exact .inl hw

theorem Calm.spawn (h : s.Calm hit) (stack : Stack) : (s.spawn stack).2.Calm hit :=
  (h.newTask stack).of_eq rfl rfl

theorem Calm.beginTurn [Inhabited Stack] (h : s.Calm hit) {t : TaskId} {o : Outcome}
    {given : Stack × Outcome} (hbegin : s.beginTurn t o = some (given, s')) :
    s'.Calm hit ∧ (given.2 = .stopped → o = .stopped ∨ hit t) := by
  unfold Scheduler.beginTurn at hbegin
  obtain ⟨task, htask, heq⟩ := Option.map_eq_some_iff.mp hbegin
  cases heq
  refine ⟨h.setTask (lt_of_task htask) (by simp) (by simp), ?_⟩
  intro hgiven
  simp only at hgiven
  split at hgiven
  · next hstop =>
      refine .inr (h.stopping t ?_)
      unfold Scheduler.stopping
      rw [htask]
      exact hstop
  · exact .inl hgiven

theorem Calm.pause (h : s.Calm hit) (t : TaskId) (stack : Stack) : (s.pause t stack).Calm hit := by
  unfold Scheduler.pause
  cases htask : s.task? t with
  | none => exact h
  | some task =>
      refine (h.setTask (lt_of_task htask) ?_ ?_).of_eq rfl rfl
      · intro hs
        refine h.stopping t ?_
        unfold Scheduler.stopping
        rw [htask]
        exact hs
      · intro f hw
        unfold awaiting
        rw [htask]
        exact .inl hw

theorem Calm.park (h : s.Calm hit) (t : TaskId) {f : FutureId} (stack : Stack)
    (hopen : s.outcome? f = none) (hk : ∀ members left, s.kind f ≠ .all members left true) :
    (s.park t f stack).Calm hit := by
  unfold Scheduler.park
  cases htask : s.task? t with
  | none => exact h
  | some task =>
      have htask' : (s.watch f (.task t)).task? t = some task := by
        unfold task?
        rw [tasks_watch]
        exact htask
      refine (h.watch f (.task t)).setTask (lt_of_task htask') ?_ ?_
      · intro hs
        refine h.stopping t ?_
        unfold Scheduler.stopping
        rw [htask]
        exact hs
      · rintro g ⟨⟩
        rw [outcome?_watch, hopen]
        simp only [kind_watch]
        exact .inr ⟨by simp, hk⟩

theorem Calm.finish (h : s.Calm hit) {busy : Option TaskId} (hs : s.Threads busy) {t : TaskId}
    {o : Outcome} (ho : o = .stopped → hit t) : (s.finish t o).Calm hit := by
  unfold Scheduler.finish
  cases htask : s.task? t with
  | none => exact h
  | some task =>
      have hkind : s.kind task.future = .task t := by
        rw [← hs.ending]
        unfold ending?
        rw [htask]
        rfl
      refine h.settle _ ?_ ?_
      · intro u hu hstop
        rw [hkind] at hu
        cases hu
        exact ho hstop
      · intro u hu
        have hmember := hs.awaited u _ hu
        rw [hkind] at hmember
        cases hmember

/-! ## Cancellations -/

/-- A cancellation stops nothing but what it hits. -/
theorem Calm.cancel {busy : Option TaskId} (h : s.Calm hit) (hs : s.Threads busy)
    (hsteps : CancelSteps hit s s') : s'.Calm hit := by
  have hboth : s'.Threads busy ∧ s'.Calm hit := by
    refine hsteps.keeps (P := fun s => s.Threads busy ∧ s.Calm hit) ?_ ⟨hs, h⟩
    rintro s₁ s₂ hstep ⟨ht₁, hc₁⟩
    refine ⟨hstep.steps.threads ht₁, ?_⟩
    cases hstep with
    | signal hk => exact hc₁.settle_signal ht₁ hk _
    | @awaited t f ht hwait hall =>
        refine hc₁.settle f ?_ ?_
        · intro u hu
          have hmember := ht₁.awaited t f hwait
          rw [hu] at hmember
          cases hmember
        · intro u hu _
          rw [ht₁.once u t f hu hwait]
          exact ht
    | @task t ht =>
        cases htask : s₁.task? t with
        | none =>
            rw [stopNext_of_none htask]
            exact hc₁
        | some task =>
            rw [stopNext_eq htask]
            refine hc₁.setTask (lt_of_task htask) (fun _ => ht) ?_
            intro f hw
            unfold awaiting
            rw [htask]
            exact .inl hw
    | @group t g ht hwait =>
        cases hk : s₁.kind g with
        | all members left stopping =>
            rw [markStopping_all hk]
            refine hc₁.setKind (by rw [hk]; rfl) (by simp) ?_
            intro _ _ _ u hu
            rw [ht₁.once u t g hu hwait]
            exact ht
        | signal | released | task u | firstFault members left =>
            unfold kind at hk
            have heq : s₁.markStopping g = s₁ := by simp [markStopping, hk]
            rw [heq]
            exact hc₁
  exact hboth.2

end Scheduler

end HotSpec
