import HotSpec.Proofs.Scheduler.Views

/-!
# Every task is in one place

A task has its turn, is due for one, or waits for a single future; while it waits, that future and
nothing else can give it a turn.  The invariant is kept by every operation of the scheduler.

Main results:

- Theorem `Threads.settle`: whoever waits for a future is due once it is settled.
- Theorem `Threads.beginTurn`: a task whose turn begins is nowhere else.
- Theorems `Threads.park`, `Threads.pause`, `Threads.finish`: a turn ends in one place.
-/

namespace HotSpec

namespace Scheduler

variable {Stack Job : Type} {s s' : Scheduler Stack Job} {busy : Option TaskId}

/-- Every task is in one place; `busy` is the task that has its turn. -/
structure Threads (s : Scheduler Stack Job) (busy : Option TaskId) : Prop where
  /-- Tasks and the futures of their ends belong to each other. -/
  ending : ∀ t f, s.ending? t = some f ↔ s.kind f = .task t
  /-- Tasks wait for timers and for several futures, and never for the same. -/
  awaited : ∀ t f, s.awaiting t = some f → (s.kind f).isMember = false
  once : ∀ t u f, s.awaiting t = some f → s.awaiting u = some f → t = u
  /-- A future that is watched by a task is open, and the task waits for it. -/
  waiter : ∀ t f, t ∈ s.waiters f → s.awaiting t = some f ∧ s.outcome? f = none
  waiters : ∀ f, (s.waiters f).Nodup
  /-- A task that is due waits for a settled future, or for nothing. -/
  turn : ∀ t w, (t, w) ∈ s.turns →
    s.awaiting t = w ∧ t < s.tasks.length ∧ ∀ f, w = some f → s.outcome? f ≠ none
  turns : (s.turns.map Prod.fst).Nodup
  /-- The task that has its turn waits for nothing and is not due for another. -/
  busy : ∀ t, busy = some t → s.awaiting t = none ∧ t < s.tasks.length ∧ ∀ w, (t, w) ∉ s.turns

/-- A task has one end. -/
theorem Threads.task_unique (h : s.Threads busy) {t : TaskId} {f f' : FutureId}
    (hf : s.kind f = .task t) (hf' : s.kind f' = .task t) : f = f' :=
  Option.some.inj (((h.ending t f).mpr hf).symm.trans ((h.ending t f').mpr hf'))

/-- What is taken from what is to be handled, while nothing else changes. -/
structure Takes (s : Scheduler Stack Job) (h : Handle Job) (s' : Scheduler Stack Job) : Prop where
  perm : s.handles.Perm (h :: s'.handles)
  futures : s'.futures = s.futures
  tasks : s'.tasks = s.tasks

theorem takes_next {h : Handle Job} (hnext : s.next = some (h, s')) : s.Takes h s' := by
  obtain ⟨hperm, hfutures, htasks⟩ := handles_next hnext
  exact ⟨hperm, hfutures, htasks⟩

namespace Takes

variable {h : Handle Job}

theorem kind (ht : s.Takes h s') (f : FutureId) : s'.kind f = s.kind f := by
  unfold Scheduler.kind future
  rw [ht.futures]

theorem outcome? (ht : s.Takes h s') (f : FutureId) : s'.outcome? f = s.outcome? f := by
  unfold Scheduler.outcome? future
  rw [ht.futures]

theorem watchers (ht : s.Takes h s') (f : FutureId) : s'.watchers f = s.watchers f := by
  unfold Scheduler.watchers future
  rw [ht.futures]

theorem waiters (ht : s.Takes h s') (f : FutureId) : s'.waiters f = s.waiters f := by
  unfold Scheduler.waiters
  rw [ht.watchers]

theorem awaiting (ht : s.Takes h s') (t : TaskId) : s'.awaiting t = s.awaiting t := by
  unfold Scheduler.awaiting task?
  rw [ht.tasks]

theorem ending? (ht : s.Takes h s') (t : TaskId) : s'.ending? t = s.ending? t := by
  unfold Scheduler.ending? task?
  rw [ht.tasks]

theorem mem (ht : s.Takes h s') {h' : Handle Job} (hmem : h' ∈ s'.handles) : h' ∈ s.handles :=
  ht.perm.mem_iff.mpr (List.mem_cons_of_mem _ hmem)

theorem turns (ht : s.Takes h s') : s.turns.Perm (h.turn?.toList ++ s'.turns) := by
  have hperm := ht.perm.filterMap Handle.turn?
  unfold Scheduler.turns
  cases hturn : h.turn? with
  | none => simpa [List.filterMap_cons, hturn] using hperm
  | some turn => simpa [List.filterMap_cons, hturn] using hperm

end Takes

/-! ## Same views -/

/-- Nothing but a few views matters for who gets a turn. -/
theorem Threads.congr (h : s.Threads busy)
    (hending : ∀ t f, s'.ending? t = some f ↔ s'.kind f = .task t)
    (hkind : ∀ f, (s.kind f).isMember = false → (s'.kind f).isMember = false)
    (houtcome : ∀ f, s'.outcome? f = s.outcome? f) (hwaiters : ∀ f, s'.waiters f = s.waiters f)
    (hawaiting : ∀ t, s'.awaiting t = s.awaiting t) (hlength : s'.tasks.length = s.tasks.length)
    (hturns : s'.turns.Perm s.turns) : s'.Threads busy where
  ending := hending
  awaited t f hwait := hkind f (h.awaited t f (hawaiting t ▸ hwait))
  once t u f := by
    rw [hawaiting, hawaiting]
    exact h.once t u f
  waiter t f hw := by
    rw [hwaiters] at hw
    rw [hawaiting, houtcome]
    exact h.waiter t f hw
  waiters f := by
    rw [hwaiters]
    exact h.waiters f
  turn t w hw := by
    obtain ⟨hwait, hlt, hsettled⟩ := h.turn t w (hturns.mem_iff.mp hw)
    rw [hawaiting, hlength]
    refine ⟨hwait, hlt, ?_⟩
    intro f hf
    rw [houtcome]
    exact hsettled f hf
  turns := (hturns.map Prod.fst).nodup_iff.mpr h.turns
  busy t ht := by
    obtain ⟨hwait, hlt, hnot⟩ := h.busy t ht
    rw [hawaiting, hlength]
    exact ⟨hwait, hlt, fun w hw => hnot w (hturns.mem_iff.mp hw)⟩

/-- What is handled without a turn leaves all tasks where they are. -/
theorem Threads.takes {h : Handle Job} (hthreads : s.Threads busy) (ht : s.Takes h s')
    (hturn : h.turn? = none) : s'.Threads busy := by
  refine hthreads.congr ?_ ?_ ht.outcome? ht.waiters ht.awaiting (by rw [ht.tasks]) ?_
  · intro t f
    rw [ht.ending?, ht.kind]
    exact hthreads.ending t f
  · intro f hf
    rw [ht.kind]
    exact hf
  · have hperm := ht.turns
    rw [hturn] at hperm
    exact hperm.symm

/-! ## Futures -/

theorem Threads.newFuture (h : s.Threads busy) {k : FutureKind} (hk : ∀ t, k ≠ .task t) :
    (s.newFuture k).2.Threads busy := by
  have hfresh (f : FutureId) (hf : f = s.futures.length) : s.kind f = .signal :=
    kind_fresh (Nat.le_of_eq hf.symm)
  refine h.congr ?_ ?_ (outcome?_newFuture k) ?_ (fun _ => rfl) rfl (.refl _)
  · intro t f
    rw [kind_newFuture]
    split
    · next hf =>
        have hnone : s.ending? t ≠ some f := by
          rw [ne_eq, h.ending, hfresh f hf]
          simp
        exact iff_of_false hnone (hk t)
    · exact h.ending t f
  · intro f hf
    rw [kind_newFuture, if_neg]
    · exact hf
    · intro heq
      rw [hfresh f heq] at hf
      cases hf
  · intro f
    unfold Scheduler.waiters
    rw [watchers_newFuture]

/-- The turns that come of a future that is settled are those of its waiters. -/
theorem turns_settle {f : FutureId} (o : Outcome) (hopen : s.outcome? f = none) :
    (s.settle f o).turns = s.turns ++ (s.waiters f).map fun t => (t, some f) := by
  unfold turns waiters
  rw [handles_settle o hopen, List.filterMap_append, List.filterMap_map, List.map_filterMap]
  congr 2
  funext w
  cases w <;> rfl

theorem awaiting_settle (f : FutureId) (o : Outcome) (t : TaskId) :
    (s.settle f o).awaiting t = s.awaiting t := by
  unfold awaiting task?
  rw [tasks_settle]

theorem ending?_settle (f : FutureId) (o : Outcome) (t : TaskId) :
    (s.settle f o).ending? t = s.ending? t := by
  unfold ending? task?
  rw [tasks_settle]

theorem Threads.settle (h : s.Threads busy) (f : FutureId) (o : Outcome) :
    (s.settle f o).Threads busy := by
  by_cases hopen : s.outcome? f = none ∧ f < s.futures.length
  swap
  · rw [settle_of_settled hopen]
    exact h
  obtain ⟨hopen, hlt⟩ := hopen
  -- whoever waits for an open future is not due
  have hwaiting (t : TaskId) (ht : t ∈ s.waiters f) (w : Option FutureId) : (t, w) ∉ s.turns := by
    intro hmem
    obtain ⟨hwait, -⟩ := h.waiter t f ht
    obtain ⟨hwait', -, hsettled⟩ := h.turn t w hmem
    exact hsettled f (hwait' ▸ hwait) hopen
  have hwaiters (g : FutureId) :
      (s.settle f o).waiters g = if g = f then [] else s.waiters g := by
    unfold Scheduler.waiters
    rw [watchers_settle o hopen hlt]
    split <;> rfl
  constructor
  case ending =>
    intro t g
    rw [ending?_settle, kind_settle]
    exact h.ending t g
  case awaited =>
    intro t g hwait
    rw [awaiting_settle] at hwait
    rw [kind_settle]
    exact h.awaited t g hwait
  case once =>
    intro t u g
    rw [awaiting_settle, awaiting_settle]
    exact h.once t u g
  case waiter =>
    intro t g hw
    rw [hwaiters] at hw
    split at hw
    · cases hw
    · next hg =>
        rw [awaiting_settle, outcome?_settle o hopen hlt, if_neg hg]
        exact h.waiter t g hw
  case waiters =>
    intro g
    rw [hwaiters]
    split
    · exact List.nodup_nil
    · exact h.waiters g
  case turn =>
    intro t w hw
    rw [turns_settle o hopen, List.mem_append, List.mem_map] at hw
    rw [awaiting_settle, tasks_settle]
    rcases hw with hw | ⟨u, hu, heq⟩
    · obtain ⟨hwait, hlt', hsettled⟩ := h.turn t w hw
      refine ⟨hwait, hlt', ?_⟩
      intro g hg
      rw [outcome?_settle o hopen hlt]
      split
      · simp
      · exact hsettled g hg
    · cases heq
      have hwait := (h.waiter t f hu).1
      obtain ⟨task, htask, -⟩ := Option.bind_eq_some_iff.mp hwait
      refine ⟨hwait, lt_of_task htask, ?_⟩
      rintro g ⟨⟩
      rw [outcome?_settle o hopen hlt]
      simp
  case turns =>
    rw [turns_settle o hopen, List.map_append, List.nodup_append']
    refine ⟨h.turns, ?_, ?_⟩
    · rw [List.map_map]
      exact (List.map_id _).symm ▸ h.waiters f
    · intro t hmem ht
      rw [List.map_map] at ht
      obtain ⟨u, hu, rfl⟩ := List.mem_map.mp ht
      obtain ⟨⟨t', w⟩, hturn, rfl : t' = u⟩ := List.mem_map.mp hmem
      exact hwaiting t' hu w hturn
  case busy =>
    intro t ht
    obtain ⟨hwait, hlt', hnot⟩ := h.busy t ht
    rw [awaiting_settle, tasks_settle]
    refine ⟨hwait, hlt', ?_⟩
    intro w hmem
    rw [turns_settle o hopen, List.mem_append, List.mem_map] at hmem
    rcases hmem with hmem | ⟨u, hu, heq⟩
    · exact hnot w hmem
    · cases heq
      rw [(h.waiter t f hu).1] at hwait
      cases hwait

theorem Threads.release (h : s.Threads busy) (f : FutureId) : (s.release f).Threads busy := by
  unfold Scheduler.release
  split
  · exact h.settle f _
  · exact h

/-- Whoever watches a future without being a task changes nothing for tasks. -/
theorem Threads.watch (h : s.Threads busy) (f : FutureId) {w : Watcher} (hw : w.task? = none) :
    (s.watch f w).Threads busy := by
  have hhandle : (handleOf f w : Handle Job).turn? = none := by
    cases w <;> simp_all [handleOf, Handle.turn?, Watcher.task?]
  refine h.congr ?_ ?_ (outcome?_watch f w) ?_ (awaiting_watch f w) (by rw [tasks_watch]) ?_
  · intro t g
    rw [kind_watch, ending?_watch]
    exact h.ending t g
  · intro g hg
    rw [kind_watch]
    exact hg
  · intro g
    unfold Scheduler.waiters Scheduler.watchers
    rw [future_watch]
    split
    · next hg =>
        rw [hg.1, List.filterMap_append]
        simp [hw, Scheduler.watchers]
    · rfl
  · unfold Scheduler.turns
    rw [handles_watch, List.filterMap_append]
    split
    · simp
    · simp [hhandle]

theorem Threads.watchAll (h : s.Threads busy) (g : FutureId) (members : List FutureId) :
    (s.watchAll g members).Threads busy := by
  induction members generalizing s with
  | nil => exact h
  | cons m ms ih => exact ih (h.watch m rfl)

theorem Threads.gather (h : s.Threads busy) {k : FutureKind} (hk : ∀ t, k ≠ .task t)
    (members : List FutureId) : (s.gather k members).2.Threads busy :=
  (h.newFuture hk).watchAll _ members

/-- Futures that wait for others may come to wait in another way. -/
theorem Threads.setKind (h : s.Threads busy) {f : FutureId} {k : FutureKind}
    (hf : (s.kind f).isGroup = true) (hk : k.isGroup = true) : (s.setKind f k).Threads busy := by
  have hlt : f < s.futures.length := lt_of_group hf
  refine h.congr ?_ ?_ (outcome?_setKind f k) ?_ (fun _ => rfl) rfl (.refl _)
  · intro t g
    rw [kind_setKind k hlt]
    split
    · next hg =>
        subst hg
        have hnone : s.ending? t ≠ some g := by
          rw [ne_eq, h.ending]
          intro htask
          rw [htask] at hf
          cases hf
        refine iff_of_false hnone ?_
        intro htask
        rw [htask] at hk
        cases hk
    · exact h.ending t g
  · intro g hg
    rw [kind_setKind k hlt]
    split
    · cases k <;> simp_all [FutureKind.isGroup, FutureKind.left?, FutureKind.isMember]
    · exact hg
  · intro g
    unfold Scheduler.waiters
    rw [watchers_setKind]

theorem Threads.tell (h : s.Threads busy) (g m : FutureId) : (s.tell g m).Threads busy := by
  cases hkind : s.kind g with
  | firstFault members left =>
      have hset : (s.setKind g (.firstFault members (left - 1))).Threads busy :=
        h.setKind (by rw [hkind]; rfl) rfl
      rw [tell_firstFault hkind]
      split
      · exact hset.settle g _
      · exact hset
  | all members left stopping =>
      have hset : (s.setKind g (.all members (left - 1) stopping)).Threads busy :=
        h.setKind (by rw [hkind]; rfl) rfl
      rw [tell_all hkind]
      split
      · exact hset.settle g _
      · exact hset
  | signal | released | task t =>
      unfold Scheduler.kind at hkind
      simpa [Scheduler.tell, hkind] using h

/-! ## Tasks -/

theorem Threads.stopNext (h : s.Threads busy) (t : TaskId) : (s.stopNext t).Threads busy := by
  refine h.congr ?_ ?_ ?_ ?_ (awaiting_stopNext t) ?_ ?_
  · intro u f
    unfold Scheduler.kind
    rw [ending?_stopNext, future_stopNext]
    exact h.ending u f
  · intro f hf
    unfold Scheduler.kind
    rw [future_stopNext]
    exact hf
  · intro f
    unfold Scheduler.outcome?
    rw [future_stopNext]
  · intro f
    unfold Scheduler.waiters Scheduler.watchers
    rw [future_stopNext]
  · unfold Scheduler.stopNext
    split
    · simp [setTask]
    · rfl
  · unfold Scheduler.turns
    rw [handles_stopNext]

/-- What a timer does without a turn changes nothing for tasks. -/
theorem Threads.after (h : s.Threads busy) (delay : Float) {handle : Handle Job}
    (hturn : handle.turn? = none) : (s.after delay handle).Threads busy := by
  refine h.congr h.ending (fun _ hf => hf) (fun _ => rfl) (fun _ => rfl) (fun _ => rfl) rfl ?_
  have hperm := (handles_after delay handle (s := s)).filterMap Handle.turn?
  rw [List.filterMap_cons_none hturn] at hperm
  exact hperm

theorem task?_newTask (stack : Stack) (t : TaskId) :
    (s.newTask stack).2.task? t =
      if t = s.tasks.length then some ⟨stack, s.futures.length, none, false⟩ else s.task? t := by
  change (s.tasks ++ [_])[t]? = _
  unfold task?
  by_cases h : t = s.tasks.length
  · subst h
    simp
  · rcases Nat.lt_or_gt_of_ne h with hlt | hgt
    · simp [h, List.getElem?_append_left hlt]
    · rw [if_neg h, List.getElem?_append_right (Nat.le_of_lt hgt),
        List.getElem?_eq_none (Nat.le_of_lt hgt),
        List.getElem?_eq_none (Nat.sub_pos_of_lt hgt)]

theorem kind_newTask (stack : Stack) (f : FutureId) :
    (s.newTask stack).2.kind f =
      if f = s.futures.length then .task s.tasks.length else s.kind f :=
  kind_newFuture _ f

theorem awaiting_newTask (stack : Stack) (t : TaskId) :
    (s.newTask stack).2.awaiting t = s.awaiting t := by
  unfold awaiting
  rw [task?_newTask]
  split
  · next h =>
      subst h
      simp [task?]
  · rfl

theorem task?_length : s.task? s.tasks.length = none := by simp [task?]

/-- A new task is nowhere yet. -/
theorem Threads.newTask (h : s.Threads busy) (stack : Stack) :
    (s.newTask stack).2.Threads busy := by
  have hlength : (s.newTask stack).2.tasks.length = s.tasks.length + 1 := by
    simp [Scheduler.newTask]
  have hmono (t : TaskId) (ht : t < s.tasks.length) : t < (s.newTask stack).2.tasks.length := by
    rw [hlength]
    exact Nat.lt_succ_of_lt ht
  have hwaiters (f : FutureId) : (s.newTask stack).2.waiters f = s.waiters f := by
    unfold Scheduler.waiters
    exact congrArg _ (watchers_newFuture _ f)
  have houtcome (f : FutureId) : (s.newTask stack).2.outcome? f = s.outcome? f :=
    outcome?_newFuture _ f
  have hkind (f : FutureId) (hf : f < s.futures.length) :
      (s.newTask stack).2.kind f = s.kind f := by
    rw [kind_newTask, if_neg (Nat.ne_of_lt hf)]
  constructor
  case ending =>
    intro t f
    unfold Scheduler.ending?
    rw [task?_newTask, kind_newTask]
    by_cases ht : t = s.tasks.length
    · subst ht
      have hold : s.kind f ≠ .task s.tasks.length := by
        rw [ne_eq, ← h.ending]
        simp [Scheduler.ending?, task?_length]
      by_cases hf : f = s.futures.length
      · simp [hf]
      · simp [hf, hold, Ne.symm hf]
    · by_cases hf : f = s.futures.length
      · have hnone : s.ending? t ≠ some f := by
          rw [ne_eq, h.ending]
          intro hk
          have hlt := lt_of_kind (f := f) (by rw [hk]; simp)
          exact absurd hlt (hf ▸ Nat.lt_irrefl _)
        rw [if_neg ht, if_pos hf]
        refine iff_of_false hnone ?_
        intro heq
        cases heq
        exact ht rfl
      · rw [if_neg ht, if_neg hf]
        exact h.ending t f
  case awaited =>
    intro t f hwait
    rw [awaiting_newTask] at hwait
    have hmember := h.awaited t f hwait
    rw [hkind f (lt_of_not_member hmember)]
    exact hmember
  case once =>
    intro t u f
    rw [awaiting_newTask, awaiting_newTask]
    exact h.once t u f
  case waiter =>
    intro t f hw
    rw [hwaiters] at hw
    rw [awaiting_newTask, houtcome]
    exact h.waiter t f hw
  case waiters =>
    intro f
    rw [hwaiters]
    exact h.waiters f
  case turn =>
    intro t w hw
    obtain ⟨hwait, hlt, hsettled⟩ := h.turn t w hw
    rw [awaiting_newTask]
    refine ⟨hwait, hmono t hlt, ?_⟩
    intro f hf
    rw [houtcome]
    exact hsettled f hf
  case turns => exact h.turns
  case busy =>
    intro t ht
    obtain ⟨hwait, hlt, hnot⟩ := h.busy t ht
    rw [awaiting_newTask]
    exact ⟨hwait, hmono t hlt, hnot⟩

/-- A task that is nowhere becomes due. -/
theorem Threads.enqueueTurn (h : s.Threads busy) {t : TaskId} (hwait : s.awaiting t = none)
    (hlt : t < s.tasks.length) (hnot : ∀ w, (t, w) ∉ s.turns) (hbusy : busy ≠ some t) :
    (s.enqueue [.turn t]).Threads busy := by
  have hturns : (s.enqueue [.turn t]).turns = s.turns ++ [(t, none)] := by
    unfold Scheduler.turns
    rw [handles_enqueue, List.filterMap_append]
    rfl
  refine ⟨h.ending, h.awaited, h.once, h.waiter, h.waiters, ?_, ?_, ?_⟩
  · intro u w hw
    rw [hturns, List.mem_append, List.mem_singleton] at hw
    rcases hw with hw | hw
    · exact h.turn u w hw
    · cases hw
      exact ⟨hwait, hlt, fun f hf => nomatch hf⟩
  · rw [hturns, List.map_append, List.nodup_append']
    refine ⟨h.turns, List.nodup_singleton t, ?_⟩
    intro u hmem hu
    obtain rfl : u = t := by simpa using hu
    obtain ⟨⟨u', w⟩, hturn, rfl : u' = u⟩ := List.mem_map.mp hmem
    exact hnot w hturn
  · intro u hu
    obtain ⟨hwait', hlt', hnot'⟩ := h.busy u hu
    refine ⟨hwait', hlt', ?_⟩
    intro w hw
    rw [hturns, List.mem_append, List.mem_singleton] at hw
    rcases hw with hw | hw
    · exact hnot' w hw
    · cases hw
      exact hbusy hu

/-- A new task that begins in the next round is due. -/
theorem Threads.spawn (h : s.Threads busy) (stack : Stack) : (s.spawn stack).2.Threads busy := by
  have hnot (w : Option FutureId) : (s.tasks.length, w) ∉ s.turns := by
    intro hw
    exact absurd (h.turn _ w hw).2.1 (Nat.lt_irrefl _)
  refine (h.newTask stack).enqueueTurn ?_ ?_ hnot ?_
  · rw [awaiting_newTask]
    simp [Scheduler.awaiting, task?_length]
  · simp [Scheduler.newTask, Scheduler.newFuture]
  · intro hbusy
    exact absurd (h.busy _ hbusy).2.1 (Nat.lt_irrefl _)

/-- Nobody has a turn any more. -/
theorem Threads.idle (h : s.Threads busy) : s.Threads none :=
  ⟨h.ending, h.awaited, h.once, h.waiter, h.waiters, h.turn, h.turns, fun _ ht => nomatch ht⟩

/-! ## Turns -/

theorem awaiting_setTask {t : TaskId} (task : Task Stack) (hlt : t < s.tasks.length) (u : TaskId) :
    (s.setTask t task).awaiting u = if u = t then task.awaiting else s.awaiting u := by
  unfold awaiting
  rw [task?_setTask _ hlt]
  split <;> rfl

theorem ending?_setTask {t : TaskId} {old task : Task Stack} (hold : s.task? t = some old)
    (hfuture : task.future = old.future) (u : TaskId) :
    (s.setTask t task).ending? u = s.ending? u := by
  unfold ending?
  rw [task?_setTask _ (lt_of_task hold)]
  split
  · next hu =>
      subst hu
      rw [hold]
      exact congrArg some hfuture
  · rfl

/-- A task that has its turn, or gets it, may go on with anything else. -/
theorem Threads.setTask (h : s.Threads busy) {t : TaskId} {old task : Task Stack}
    (hold : s.task? t = some old) (hfuture : task.future = old.future)
    (hawaiting : task.awaiting = none) (hnot : ∀ w, (t, w) ∉ s.turns)
    (hwaiter : ∀ f, t ∉ s.waiters f) : (s.setTask t task).Threads (some t) := by
  have hlt := lt_of_task hold
  have hlength : (s.setTask t task).tasks.length = s.tasks.length := by simp [Scheduler.setTask]
  have hwaiting (u : TaskId) (f : FutureId) (hwait : (s.setTask t task).awaiting u = some f) :
      s.awaiting u = some f := by
    rw [awaiting_setTask _ hlt, hawaiting] at hwait
    split at hwait
    · cases hwait
    · exact hwait
  constructor
  case ending =>
    intro u f
    rw [ending?_setTask hold hfuture]
    exact h.ending u f
  case awaited =>
    intro u f hwait
    exact h.awaited u f (hwaiting u f hwait)
  case once =>
    intro u v f hu hv
    exact h.once u v f (hwaiting u f hu) (hwaiting v f hv)
  case waiter =>
    intro u f hw
    rw [awaiting_setTask _ hlt, if_neg]
    · exact h.waiter u f hw
    · rintro rfl
      exact hwaiter f hw
  case waiters => exact h.waiters
  case turn =>
    intro u w hw
    rw [awaiting_setTask _ hlt, if_neg, hlength]
    · exact h.turn u w hw
    · rintro rfl
      exact hnot w hw
  case turns => exact h.turns
  case busy =>
    rintro u ⟨⟩
    rw [awaiting_setTask _ hlt, if_pos rfl, hlength]
    exact ⟨hawaiting, hlt, hnot⟩

/-- A task whose turn begins is nowhere else, and what it has waited for is settled. -/
theorem Threads.beginTurn [Inhabited Stack] (h : s.Threads none) {handle : Handle Job}
    (ht : s.Takes handle s') {t : TaskId} {w : Option FutureId}
    (hhandle : handle.turn? = some (t, w)) {o : Outcome} {given : Stack × Outcome}
    {s'' : Scheduler Stack Job} (hbegin : s'.beginTurn t o = some (given, s'')) :
    s''.Threads (some t) := by
  have hperm : s.turns.Perm ((t, w) :: s'.turns) := by
    have hturns := ht.turns
    rw [hhandle] at hturns
    exact hturns
  have hfst : ((t, w) :: s'.turns).map Prod.fst |>.Nodup :=
    (hperm.map Prod.fst).nodup_iff.mp h.turns
  obtain ⟨hnot, hnodup⟩ := List.nodup_cons.mp hfst
  have hturn : (t, w) ∈ s.turns := hperm.mem_iff.mpr (List.mem_cons_self ..)
  obtain ⟨hwait, -, hsettled⟩ := h.turn t w hturn
  have hrest : s'.Threads none := by
    refine ⟨?_, ?_, ?_, ?_, ?_, ?_, hnodup, fun _ hu => nomatch hu⟩
    · intro u f
      rw [ht.ending?, ht.kind]
      exact h.ending u f
    · intro u f
      rw [ht.awaiting, ht.kind]
      exact h.awaited u f
    · intro u v f
      rw [ht.awaiting, ht.awaiting]
      exact h.once u v f
    · intro u f
      rw [ht.waiters, ht.awaiting, ht.outcome?]
      exact h.waiter u f
    · intro f
      rw [ht.waiters]
      exact h.waiters f
    · intro u v hv
      rw [ht.awaiting, ht.tasks]
      simp only [ht.outcome?]
      exact h.turn u v (hperm.mem_iff.mpr (List.mem_cons_of_mem _ hv))
  unfold Scheduler.beginTurn at hbegin
  obtain ⟨task, htask, heq⟩ := Option.map_eq_some_iff.mp hbegin
  cases heq
  refine hrest.setTask htask rfl rfl ?_ ?_
  · intro v hv
    exact hnot (List.mem_map.mpr ⟨_, hv, rfl⟩)
  · intro f hw
    rw [ht.waiters] at hw
    obtain ⟨hwait', hopen⟩ := h.waiter t f hw
    exact hsettled f (hwait ▸ hwait') hopen

/-- What a task that has its turn is not: waiting, or due for another turn. -/
theorem Threads.not_waiter (h : s.Threads (some t)) (f : FutureId) : t ∉ s.waiters f := by
  intro hw
  have hwait := (h.waiter t f hw).1
  rw [(h.busy t rfl).1] at hwait
  cases hwait

/-- A turn ends until the next round. -/
theorem Threads.pause {t : TaskId} (h : s.Threads (some t)) (stack : Stack) :
    (s.pause t stack).Threads none := by
  unfold Scheduler.pause
  cases htask : s.task? t with
  | none => exact h.idle
  | some task =>
      obtain ⟨hwait, hlt, hnot⟩ := h.busy t rfl
      have hnone : task.awaiting = none := by
        unfold Scheduler.awaiting at hwait
        rw [htask] at hwait
        exact hwait
      have hset : (s.setTask t { task with stack }).Threads (some t) :=
        h.setTask htask rfl hnone hnot h.not_waiter
      refine hset.idle.enqueueTurn (hset.busy t rfl).1 (hset.busy t rfl).2.1 hnot (by simp)

/-- A turn ends with the task. -/
theorem Threads.finish {t : TaskId} (h : s.Threads busy) (o : Outcome) :
    (s.finish t o).Threads none := by
  unfold Scheduler.finish
  split
  · exact h.idle
  · exact h.idle.settle _ o

theorem waiters_watch {f : FutureId} (hopen : s.outcome? f = none) (hlt : f < s.futures.length)
    (t : TaskId) (g : FutureId) :
    (s.watch f (.task t)).waiters g = if g = f then s.waiters f ++ [t] else s.waiters g := by
  unfold Scheduler.waiters
  rw [watchers_watch hopen hlt]
  split
  · rw [List.filterMap_append]
    rfl
  · rfl

theorem turns_watch {f : FutureId} (hopen : s.outcome? f = none) (w : Watcher) :
    (s.watch f w).turns = s.turns := by
  unfold Scheduler.turns
  rw [handles_watch, if_pos hopen, List.append_nil]

/-- A turn ends at an open future that nobody else waits for. -/
theorem Threads.park {t : TaskId} (h : s.Threads (some t)) {f : FutureId} (stack : Stack)
    (hmember : (s.kind f).isMember = false) (hopen : s.outcome? f = none)
    (hnobody : ∀ u, s.awaiting u ≠ some f) : (s.park t f stack).Threads none := by
  unfold Scheduler.park
  obtain ⟨hwait, hlt, hnot⟩ := h.busy t rfl
  cases htask : s.task? t with
  | none => exact h.idle
  | some task =>
      have hf : f < s.futures.length := lt_of_not_member hmember
      have htask' : (s.watch f (.task t)).task? t = some task := (task?_watch f _ t).trans htask
      have hlt' := lt_of_task htask'
      have hawaiting (u : TaskId) :
          ((s.watch f (.task t)).setTask t { task with stack, awaiting := some f }).awaiting u =
            if u = t then some f else s.awaiting u := by
        rw [awaiting_setTask _ hlt', awaiting_watch]
      have hlength : ((s.watch f (.task t)).setTask t
          { task with stack, awaiting := some f }).tasks.length = s.tasks.length := by
        simp [Scheduler.setTask]
      simp only
      constructor
      case ending =>
        intro u g
        rw [ending?_setTask htask' (by rfl)]
        change _ ↔ (s.watch f (.task t)).kind g = _
        rw [kind_watch, ending?_watch]
        exact h.ending u g
      case awaited =>
        intro u g hg
        rw [hawaiting] at hg
        change ((s.watch f (.task t)).kind g).isMember = false
        rw [kind_watch]
        split at hg
        · cases hg
          exact hmember
        · exact h.awaited u g hg
      case once =>
        intro u v g hu hv
        rw [hawaiting] at hu hv
        split at hu <;> split at hv
        · next hut hvt => rw [hut, hvt]
        · cases hu
          exact absurd hv (hnobody v)
        · cases hv
          exact absurd hu (hnobody u)
        · exact h.once u v g hu hv
      case waiter =>
        intro u g hw
        change u ∈ (s.watch f (.task t)).waiters g at hw
        change _ ∧ (s.watch f (.task t)).outcome? g = none
        rw [waiters_watch hopen hf] at hw
        rw [hawaiting, outcome?_watch]
        split at hw
        · next hg =>
            subst hg
            rw [List.mem_append, List.mem_singleton] at hw
            rcases hw with hw | rfl
            · exact absurd (h.waiter u g hw).1 (hnobody u)
            · exact ⟨if_pos rfl, hopen⟩
        · have hu : u ≠ t := by
            rintro rfl
            exact h.not_waiter g hw
          rw [if_neg hu]
          exact h.waiter u g hw
      case waiters =>
        intro g
        change ((s.watch f (.task t)).waiters g).Nodup
        rw [waiters_watch hopen hf]
        split
        · rw [List.nodup_append']
          refine ⟨h.waiters f, List.nodup_singleton t, ?_⟩
          intro u hw hu
          obtain rfl : u = t := by simpa using hu
          exact h.not_waiter f hw
        · exact h.waiters g
      case turn =>
        intro u w hw
        change (u, w) ∈ (s.watch f (.task t)).turns at hw
        rw [turns_watch hopen] at hw
        have hu : u ≠ t := by
          rintro rfl
          exact hnot w hw
        rw [hawaiting, if_neg hu, hlength]
        change _ ∧ _ ∧ ∀ g, w = some g → (s.watch f (.task t)).outcome? g ≠ none
        simp only [outcome?_watch]
        exact h.turn u w hw
      case turns =>
        change ((s.watch f (.task t)).turns.map Prod.fst).Nodup
        rw [turns_watch hopen]
        exact h.turns
      case busy => exact fun _ hu => nomatch hu

end Scheduler

end HotSpec
