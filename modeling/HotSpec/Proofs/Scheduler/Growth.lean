import HotSpec.Proofs.Scheduler.Signals

/-!
# What a scheduler comes to have

While a task has its turn, a scheduler comes to have new futures and new tasks.  Those that it had
keep waiting for what they wait for, and no task comes to its end.

Main definitions:

- `Extends`, `Grows`: a scheduler that came to have new futures and tasks.
- `Asked`: a scheduler that was asked for a future that a task may wait for.

Main results:

- Theorem `Asked.park`: the task that asked may wait for the future.
- Theorems `asked_sleep`, `asked_gather`: timers and several futures may be waited for.
-/

namespace HotSpec

namespace Scheduler

variable {Stack Job : Type} {s s' s₁ s₂ s₃ : Scheduler Stack Job} {t : TaskId} {f : FutureId}
  {hit : TaskId → Prop}

/-- A scheduler that came to have more tasks, by number, and perhaps more futures. -/
structure Extends (s : Scheduler Stack Job) (more : Nat) (s' : Scheduler Stack Job) : Prop where
  length : s.futures.length ≤ s'.futures.length
  form : ∀ f, f < s.futures.length → (s'.kind f).form = (s.kind f).form
  settled : ∀ f o, s.outcome? f = some o → s'.outcome? f = some o
  tasks : s'.tasks.length = s.tasks.length + more
  ending? : ∀ u, u < s.tasks.length → s'.ending? u = s.ending? u

/-- A scheduler that came to have new tasks with these stacks, while no task came to its end. -/
structure Grows (s : Scheduler Stack Job) (new : List Stack) (s' : Scheduler Stack Job) : Prop
    extends s.Extends new.length s' where
  ended : ∀ f u, s.kind f = .task u → s'.outcome? f = s.outcome? f
  awaiting : ∀ u, s'.awaiting u = s.awaiting u
  stack? : ∀ u, s'.stack? u = if u < s.tasks.length then s.stack? u else new[u - s.tasks.length]?

theorem stack?_of_le {u : TaskId} (h : s.tasks.length ≤ u) : s.stack? u = none := by
  unfold stack? task?
  rw [List.getElem?_eq_none h]
  rfl

namespace Extends

variable {more more₁ more₂ : Nat}

theorem trans (h₁ : s₁.Extends more₁ s₂) (h₂ : s₂.Extends more₂ s₃) :
    s₁.Extends (more₁ + more₂) s₃ where
  length := Nat.le_trans h₁.length h₂.length
  form f hf := (h₂.form f (Nat.lt_of_lt_of_le hf h₁.length)).trans (h₁.form f hf)
  settled f o ho := h₂.settled f o (h₁.settled f o ho)
  tasks := by rw [h₂.tasks, h₁.tasks, Nat.add_assoc]
  ending? u hu := by
    have hu₂ : u < s₂.tasks.length := by
      rw [h₁.tasks]
      exact Nat.lt_add_right _ hu
    exact (h₂.ending? u hu₂).trans (h₁.ending? u hu)

theorem task (h : s.Extends more s') {u : TaskId} (hk : s.kind f = .task u) :
    s'.kind f = .task u := by
  have hform := h.form f (lt_of_kind (by rw [hk]; simp))
  rw [hk] at hform
  exact kind_eq_task.mp hform

theorem of_task (h : s.Extends more s') (hf : f < s.futures.length) {u : TaskId}
    (hk : s'.kind f = .task u) : s.kind f = .task u := by
  have hform := h.form f hf
  rw [hk] at hform
  exact kind_eq_task.mp hform.symm

theorem signal (h : s.Extends more s') (hf : f < s.futures.length) (hk : s.kind f = .signal) :
    s'.kind f = .signal := by
  have hform := h.form f hf
  rw [hk] at hform
  cases hk' : s'.kind f <;> simp_all [FutureKind.form]

theorem isMember (h : s.Extends more s') (hf : f < s.futures.length) :
    (s'.kind f).isMember = (s.kind f).isMember := by
  rw [← FutureKind.isMember_form, h.form f hf, FutureKind.isMember_form]

theorem members (h : s.Extends more s') (hf : f < s.futures.length) :
    (s'.kind f).members = (s.kind f).members := by
  rw [← FutureKind.members_form, h.form f hf, FutureKind.members_form]

end Extends

namespace Grows

/-- Where the tasks are the same, only futures matter. -/
theorem of_tasks (htasks : s'.tasks = s.tasks) (hlength : s.futures.length ≤ s'.futures.length)
    (hform : ∀ f, f < s.futures.length → (s'.kind f).form = (s.kind f).form)
    (hsettled : ∀ f o, s.outcome? f = some o → s'.outcome? f = some o)
    (hended : ∀ f u, s.kind f = .task u → s'.outcome? f = s.outcome? f) : s.Grows [] s' where
  length := hlength
  form := hform
  settled := hsettled
  ended := hended
  awaiting u := by simp only [Scheduler.awaiting, task?, htasks]
  tasks := by simp [htasks]
  ending? u _ := by simp only [Scheduler.ending?, task?, htasks]
  stack? u := by
    split
    · simp only [Scheduler.stack?, task?, htasks]
    · next hu => exact stack?_of_le (by rw [htasks]; exact Nat.not_lt.mp hu)

theorem refl (s : Scheduler Stack Job) : s.Grows [] s :=
  of_tasks rfl (Nat.le_refl _) (fun _ _ => rfl) (fun _ _ h => h) (fun _ _ _ => rfl)

theorem trans {new₁ new₂ : List Stack} (h₁ : s₁.Grows new₁ s₂) (h₂ : s₂.Grows new₂ s₃) :
    s₁.Grows (new₁ ++ new₂) s₃ where
  toExtends := by
    rw [List.length_append]
    exact h₁.toExtends.trans h₂.toExtends
  ended f u hk := (h₂.ended f u (h₁.task hk)).trans (h₁.ended f u hk)
  awaiting u := (h₂.awaiting u).trans (h₁.awaiting u)
  stack? u := by
    rw [h₂.stack? u, h₁.stack? u, h₁.tasks]
    by_cases hu : u < s₁.tasks.length
    · rw [if_pos (Nat.lt_add_right _ hu)]
      simp [hu]
    · rw [if_neg hu, if_neg hu, List.getElem?_append]
      have hle := Nat.not_lt.mp hu
      by_cases hu₂ : u < s₁.tasks.length + new₁.length
      · rw [if_pos hu₂, if_pos ((Nat.sub_lt_iff_lt_add' hle).mpr hu₂)]
      · rw [if_neg hu₂, if_neg fun h => hu₂ ((Nat.sub_lt_iff_lt_add' hle).mp h), Nat.sub_add_eq]

theorem settle (hk : ∀ u, s.kind f ≠ .task u) (o : Outcome) : s.Grows [] (s.settle f o) := by
  refine of_tasks (tasks_settle f o) (Nat.le_of_eq (length_settle f o).symm) ?_ ?_ ?_
  · intro g _
    rw [kind_settle]
  · intro g o' ho
    exact outcome?_settle_of_some ho f o
  · intro g u hu
    by_cases hopen : s.outcome? f = none ∧ f < s.futures.length
    · rw [outcome?_settle o hopen.1 hopen.2, if_neg]
      rintro rfl
      exact hk u hu
    · rw [settle_of_settled hopen]

theorem newFuture (s : Scheduler Stack Job) (k : FutureKind) : s.Grows [] (s.newFuture k).2 := by
  refine of_tasks rfl (by rw [length_newFuture]; exact Nat.le_succ _) ?_ ?_ ?_
  · intro g hg
    rw [kind_newFuture, if_neg (Nat.ne_of_lt hg)]
  · intro g o ho
    rw [outcome?_newFuture]
    exact ho
  · intro g u _
    exact outcome?_newFuture k g

theorem watch (s : Scheduler Stack Job) (f : FutureId) (w : Watcher) :
    s.Grows [] (s.watch f w) := by
  refine of_tasks (tasks_watch f w) (Nat.le_of_eq (length_watch f w).symm) ?_ ?_ ?_
  · intro g _
    rw [kind_watch]
  · intro g o ho
    rw [outcome?_watch]
    exact ho
  · intro g u _
    exact outcome?_watch f w g

theorem watchAll (s : Scheduler Stack Job) (g : FutureId) (members : List FutureId) :
    s.Grows [] (s.watchAll g members) := by
  induction members generalizing s with
  | nil => exact refl s
  | cons m ms ih => exact (watch s m _).trans (ih _)

theorem gather (s : Scheduler Stack Job) (k : FutureKind) (members : List FutureId) :
    s.Grows [] (s.gather k members).2 := (newFuture s k).trans (watchAll _ _ _)

theorem after (s : Scheduler Stack Job) (delay : Float) (h : Handle Job) :
    s.Grows [] (s.after delay h) :=
  of_tasks rfl (Nat.le_refl _) (fun _ _ => rfl) (fun _ _ h => h) (fun _ _ _ => rfl)

theorem spawn (s : Scheduler Stack Job) (stack : Stack) : s.Grows [stack] (s.spawn stack).2 where
  length := (newFuture s (.task s.tasks.length)).length
  form := (newFuture s (.task s.tasks.length)).form
  settled := (newFuture s (.task s.tasks.length)).settled
  ended := (newFuture s (.task s.tasks.length)).ended
  awaiting := awaiting_newTask stack
  tasks := by simp [Scheduler.spawn, newTask, Scheduler.newFuture, enqueue]
  ending? u hu := by
    change ((s.newTask stack).2.task? u).map Task.future = _
    rw [task?_newTask, if_neg (Nat.ne_of_lt hu)]
    rfl
  stack? u := by
    change ((s.newTask stack).2.task? u).map Task.stack = _
    rw [task?_newTask]
    rcases Nat.lt_trichotomy u s.tasks.length with hu | rfl | hu
    · rw [if_neg (Nat.ne_of_lt hu), if_pos hu]
      rfl
    · simp
    · rw [if_neg (Nat.ne_of_gt hu), if_neg (Nat.not_lt.mpr (Nat.le_of_lt hu))]
      have hnone : s.stack? u = none := stack?_of_le (Nat.le_of_lt hu)
      have hpos : [stack].length ≤ u - s.tasks.length := Nat.sub_pos_of_lt hu
      rw [List.getElem?_eq_none hpos]
      exact hnone

theorem signals (h : s.SignalSteps s') : s.Grows [] s' := by
  refine of_tasks h.tasks (Nat.le_of_eq h.sameWaits.length.symm) ?_ h.sameWaits.settled ?_
  · intro g _
    rw [h.kind]
  · intro g u hk
    exact h.outcome? (by rw [hk]; simp)

theorem setKind {k : FutureKind} (hk : k.form = (s.kind f).form) : s.Grows [] (s.setKind f k) := by
  refine of_tasks rfl (Nat.le_of_eq (length_setKind f k).symm) ?_ ?_ ?_
  · intro g hg
    by_cases hf : f < s.futures.length
    · rw [kind_setKind k hf]
      split
      · next heq =>
          subst heq
          exact hk
      · rfl
    · simp only [Scheduler.setKind, setFuture, List.set_eq_of_length_le (Nat.not_lt.mp hf)]
  · intro g o ho
    rw [outcome?_setKind]
    exact ho
  · intro g u _
    exact outcome?_setKind f k g

theorem tell (s : Scheduler Stack Job) (g m : FutureId) : s.Grows [] (s.tell g m) := by
  have hset {k : FutureKind} (hk : k.form = (s.kind g).form) (hgroup : k.isGroup = true)
      (hlt : g < s.futures.length) (o : Outcome) : s.Grows [] ((s.setKind g k).settle g o) := by
    refine (setKind hk).trans (settle ?_ o)
    intro u hu
    rw [kind_setKind k hlt, if_pos rfl] at hu
    rw [hu] at hgroup
    cases hgroup
  cases hkind : s.kind g with
  | firstFault members left =>
      have hlt : g < s.futures.length := lt_of_kind (by rw [hkind]; simp)
      have hform : (FutureKind.firstFault members (left - 1)).form = (s.kind g).form := by
        rw [hkind]
        rfl
      rw [tell_firstFault hkind]
      split
      · exact hset hform rfl hlt _
      · exact setKind hform
  | all members left stopping =>
      have hlt : g < s.futures.length := lt_of_kind (by rw [hkind]; simp)
      have hform : (FutureKind.all members (left - 1) stopping).form = (s.kind g).form := by
        rw [hkind]
        rfl
      rw [tell_all hkind]
      split
      · exact hset hform rfl hlt _
      · exact setKind hform
  | signal | released | task u =>
      have heq : s.tell g m = s := by
        unfold kind at hkind
        simp [Scheduler.tell, hkind]
      rw [heq]
      exact refl s

theorem release (s : Scheduler Stack Job) (f : FutureId) : s.Grows [] (s.release f) := by
  unfold Scheduler.release
  split
  · next hk =>
      refine settle ?_ _
      intro u hu
      unfold kind at hu
      rw [hk] at hu
      cases hu
  · exact refl s

/-- A cancellation brings no task to its end at once. -/
theorem cancel {busy : Option TaskId} (h : CancelSteps hit s s') (hs : s.Threads busy) :
    s.Grows [] s' := by
  have hboth : s'.Threads busy ∧ s.Grows [] s' := by
    refine h.keeps (P := fun s' => s'.Threads busy ∧ s.Grows [] s') ?_ ⟨hs, refl s⟩
    rintro s₁ s₂ hstep ⟨ht₁, hg₁⟩
    refine ⟨hstep.steps.threads ht₁, hg₁.trans ?_⟩
    cases hstep with
    | signal hk => exact settle (by rw [hk]; simp) _
    | @awaited t f ht hwait hall =>
        refine settle ?_ _
        intro u hu
        have hmember := ht₁.awaited t f hwait
        rw [hu] at hmember
        cases hmember
    | @task t ht =>
        have hsame := sameWaits_stopNext s₁ t
        have htasks : (s₁.stopNext t).tasks.length = s₁.tasks.length := by
          unfold stopNext
          split
          · exact List.length_set
          · rfl
        refine ⟨⟨Nat.le_of_eq hsame.length.symm, fun g _ => hsame.form g, hsame.settled,
          by simpa using htasks, fun u _ => hsame.ending? u⟩, ?_, hsame.awaiting, ?_⟩
        · intro g u _
          unfold outcome?
          rw [future_stopNext]
        · intro u
          rw [hsame.stack?]
          split
          · rfl
          · next hu => exact stack?_of_le (Nat.not_lt.mp hu)
    | @group t g ht hwait =>
        cases hk : s₁.kind g with
        | all members left stopping =>
            rw [markStopping_all hk]
            exact setKind (by rw [hk]; rfl)
        | signal | released | task u | firstFault members left =>
            unfold kind at hk
            have heq : s₁.markStopping g = s₁ := by simp [markStopping, hk]
            rw [heq]
            exact refl s₁
  exact hboth.2

end Grows

/-! ## Waiting for something new -/

/-- Somebody who waits for a future waits for one that there is. -/
theorem Threads.lt_of_awaiting {busy : Option TaskId} (h : s.Threads busy) {u : TaskId}
    (hwait : s.awaiting u = some f) : f < s.futures.length :=
  lt_of_not_member (h.awaited u f hwait)

/-- A scheduler that was asked for a future, by the task that has its turn. -/
structure Asked (s : Scheduler Stack Job) (t : TaskId) (f : FutureId) (new : List Stack)
    (s' : Scheduler Stack Job) : Prop where
  threads : s'.Threads (some t)
  groups : s'.Groups
  grows : s.Grows new s'
  member : (s'.kind f).isMember = false
  fresh : s.futures.length ≤ f
  opened : s'.outcome? f = none

/-- A timer may be waited for. -/
theorem asked_sleep (hs : s.Threads (some t)) (hg : s.Groups) (d : Float) :
    s.Asked t s.futures.length []
      ((s.newFuture .released).2.after d (.release s.futures.length)) where
  threads := (hs.newFuture (by simp)).after d rfl
  groups := (hg.newFuture rfl).after d rfl
  grows := (Grows.newFuture s _).trans (.after _ _ _)
  member := by
    change ((s.newFuture .released).2.kind _).isMember = _
    rw [kind_newFuture, if_pos rfl]
    rfl
  fresh := Nat.le_refl _
  opened := by
    change (s.newFuture .released).2.outcome? _ = _
    rw [outcome?_newFuture, outcome?_length]

/-- Several futures may be waited for. -/
theorem asked_gather (hs : s.Threads (some t)) (hg : s.Groups) {k : FutureKind}
    {members : List FutureId} (hmembers : k.members = members)
    (hleft : k.left? = some members.length) (hnodup : members.Nodup)
    (hmember : ∀ m ∈ members, (s.kind m).isMember = true ∧ m < s.futures.length) :
    s.Asked t (s.gather k members).1 [] (s.gather k members).2 where
  threads := hs.gather (by rintro u rfl; cases hleft) members
  groups := hg.gather hmembers hleft hnodup hmember
  grows := .gather s k members
  member := by
    rw [kind_gather, gather_eq, if_pos rfl]
    cases k <;> simp_all [FutureKind.left?, FutureKind.isMember]
  fresh := Nat.le_refl _
  opened := by rw [outcome?_gather, gather_eq, outcome?_length]

/-- A future that is released by a timer, or by a signal that is told before, may be waited for. -/
theorem asked_hear (hs : s.Threads (some t)) (hg : s.Groups) (d : Float) (g : FutureId) :
    s.Asked t s.futures.length []
      (((s.newFuture .released).2.after d (.release s.futures.length)).watch g
        (.release s.futures.length)) := by
  have hsleep := asked_sleep hs hg d
  refine ⟨hsleep.threads.watch g rfl, hsleep.groups.watch g rfl, hsleep.grows.trans (.watch _ _ _),
    ?_, hsleep.fresh, ?_⟩
  · rw [kind_watch]
    exact hsleep.member
  · rw [outcome?_watch]
    exact hsleep.opened

/-- A signal is cancelled at once. -/
theorem cancel_signal (hk : s.kind f = .signal) (hopen : s.outcome? f = none) :
    s.cancel f = (true, s.settle f .stopped) := by
  have hset : s.isSettled f = false := by
    rw [isSettled_eq, hopen]
    rfl
  unfold kind at hk
  simp [cancel, cancelWithin, hset, hk]

/-- A signal is cancelled at once, also where it releases a new future. -/
theorem cancel_heard (hk : s.kind f = .signal) (hlt : f < s.futures.length)
    (hopen : s.outcome? f = none) :
    ((s.newFuture .released).2.watch f (.release s.futures.length)).cancel f =
      (true, ((s.newFuture .released).2.watch f (.release s.futures.length)).settle f .stopped) := by
  refine cancel_signal ?_ ?_
  · rw [kind_watch, kind_newFuture, if_neg (Nat.ne_of_lt hlt)]
    exact hk
  · rw [outcome?_watch, outcome?_newFuture]
    exact hopen

/-- A future that is released by a signal may be waited for, though the signal is cancelled. -/
theorem asked_heard (hs : s.Threads (some t)) (hg : s.Groups) (hk : s.kind f = .signal)
    (hlt : f < s.futures.length) (hopen : s.outcome? f = none) :
    s.Asked t s.futures.length []
      (((s.newFuture .released).2.watch f (.release s.futures.length)).cancel f).2 := by
  have hkind (g : FutureId) : ((s.newFuture .released).2.watch f
      (.release s.futures.length)).kind g = if g = s.futures.length then .released else s.kind g := by
    rw [kind_watch, kind_newFuture]
  have hne : f ≠ s.futures.length := Nat.ne_of_lt hlt
  have hkf : ((s.newFuture .released).2.watch f (.release s.futures.length)).kind f = .signal := by
    rw [hkind, if_neg hne]
    exact hk
  have houtcome (g : FutureId) : ((s.newFuture .released).2.watch f
      (.release s.futures.length)).outcome? g = s.outcome? g := by
    rw [outcome?_watch, outcome?_newFuture]
  have hopen' := (houtcome f).trans hopen
  rw [cancel_heard hk hlt hopen]
  refine ⟨((hs.newFuture (by simp)).watch f rfl).settle f _,
    ((hg.newFuture rfl).watch f rfl).settle_of_not_group (by rw [hkf]; rfl) _,
    ((Grows.newFuture s _).trans (.watch _ _ _)).trans (.settle (by rw [hkf]; simp) _), ?_,
    Nat.le_refl _, ?_⟩
  · rw [kind_settle, hkind, if_pos rfl]
    rfl
  · rw [outcome?_settle _ hopen' (by rw [length_watch, length_newFuture]; exact Nat.lt_succ_of_lt hlt),
      if_neg (Ne.symm hne), houtcome, outcome?_length]

/-- What was asked for later is asked for all the same. -/
theorem Asked.of_grows {new₁ new₂ : List Stack} (h₁ : s₁.Grows new₁ s₂)
    (h₂ : s₂.Asked t f new₂ s₃) : s₁.Asked t f (new₁ ++ new₂) s₃ where
  threads := h₂.threads
  groups := h₂.groups
  grows := h₁.trans h₂.grows
  member := h₂.member
  fresh := Nat.le_trans h₁.length h₂.fresh
  opened := h₂.opened

end Scheduler

end HotSpec
