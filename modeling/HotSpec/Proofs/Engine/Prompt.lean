import HotSpec.Proofs.Engine.Gathering
import HotSpec.Proofs.Scheduler.Flow

/-!
# Whoever waits is served

In a machine that can be reached everybody who waits for a future either watches it or is in the queue,
nothing but releases and jobs is put off until some time, and no future is forgotten that waits for
others.  So a task goes on after a number of steps that is known in advance, once all that it waits for
has come about.

Main definitions:

- `Machine.Prompt`: the invariant.

Main results:

- Theorem `Rule.proceeds`: what a rule puts at the end of the queue.
- Theorem `Reaches.prompt`: the invariant holds of every machine that can be reached.
- Theorems `Prompt.wake`, `Prompt.news_of_settled`, `Prompt.news_of_faulted`: what is in the queue for
  whom.
-/

namespace HotSpec

variable {head : Head} {w w' : World} {turn : Turn} {t : TaskId}

/-! ## Rules -/

theorem World.proceeds_spawnAll {p : Processor} {subs : List Value} {fs : List FutureId}
    (h : (Move.spawnAll p subs).run w = (fs, w')) :
    w.scheduler.Proceeds w'.scheduler ∧ fs.length = subs.length := by
  induction subs generalizing w fs with
  | nil =>
      cases h
      exact ⟨.refl _, rfl⟩
  | cons sub subs ih =>
      rw [World.spawnAll_cons] at h
      cases h
      obtain ⟨hproceeds, hlength⟩ :=
        ih (w := w.withScheduler fun s => (s.spawn [.begin (.sub p sub)]).2) rfl
      have hspawn := Scheduler.proceeds_spawn (s := w.scheduler) [Frame.begin (.sub p sub)]
      exact ⟨hspawn.trans hproceeds, congrArg (· + 1) hlength⟩

/-- What is asked of a scheduler is put at the end of its queue. -/
theorem Asks.proceeds (h : Asks head w turn w') (hs : w.scheduler.Threads (some t))
    (hg : w.scheduler.Groups) (hframe : head.first.Sound w.scheduler) :
    w.scheduler.Proceeds w'.scheduler := by
  have hsignal : FutureKind.signal.left? ≠ some 0 := nofun
  have hreleased : FutureKind.released.left? ≠ some 0 := nofun
  cases h with
  | sleep => exact (Scheduler.proceeds_newFuture hreleased).trans (Scheduler.proceeds_after _ rfl)
  | together hsubs hrun =>
      obtain ⟨hproceeds, hlength⟩ := World.proceeds_spawnAll hrun
      refine hproceeds.trans (Scheduler.proceeds_gather ?_)
      simp [FutureKind.left?, hlength, hsubs]
  | @cancelled members results o _ hopen =>
      have hmember : ∀ i ∈ w.open? members, (w.scheduler.kind i).isMember = true := fun i hi =>
        (hframe.member i (List.mem_of_mem_filter hi)).1
      refine (Scheduler.cancelSteps_below hs hg hmember).proceeds.trans (Scheduler.proceeds_gather ?_)
      simp [FutureKind.left?, hopen]
  | hear =>
      refine ((Scheduler.proceeds_newFuture hsignal).trans (Scheduler.proceeds_newFuture hreleased)).trans ?_
      exact (Scheduler.proceeds_after _ rfl).trans (Scheduler.proceeds_watch _ _)
  | @heard n found o _ hopen =>
      have hnone : w.scheduler.outcome? found = none := by
        rw [Scheduler.isSettled_eq] at hopen
        simpa using hopen
      have hwatch := (Scheduler.proceeds_newFuture (s := w.scheduler) hreleased).trans
        (Scheduler.proceeds_watch found (.release w.scheduler.futures.length))
      change w.scheduler.Proceeds (Scheduler.cancel _ found).2
      rw [Scheduler.cancel_heard hframe.1 hframe.2 hnone]
      exact hwatch.trans (Scheduler.proceeds_settle _ _)
  | start => exact (Scheduler.proceeds_newFuture hsignal).trans (Scheduler.proceeds_newFuture hsignal)
  | @opened first v =>
      refine (Scheduler.proceeds_spawn [.begin (.load first)]).trans (Scheduler.proceeds_gather ?_)
      simp [FutureKind.left?, World.racers]

/-- What a rule does puts more at the end of the queue. -/
theorem Rule.proceeds (h : Rule head w turn w') (hs : w.scheduler.Threads (some t))
    (hg : w.scheduler.Groups) (hsignals : w.Signals) (hframe : head.first.Sound w.scheduler) :
    w.scheduler.Proceeds w'.scheduler := by
  rcases h.quiet_or_asks with ⟨hquiet, -, -⟩ | hasks
  · exact (hquiet.scheduler hsignals).proceeds
  · exact hasks.proceeds hs hg hframe

namespace Scheduler

variable {Stack Job : Type} {s s' : Scheduler Stack Job} {f : FutureId} {stack : Stack}

theorem proceeds_pause : s.Proceeds (s.pause t stack) := by
  unfold pause
  split
  · exact .refl s
  · exact (proceeds_setTask _ _).trans (proceeds_enqueue _)

/-- A task that waits for an open future watches it. -/
theorem proceeds_park (ht : t < s.tasks.length) (hopen : s.outcome? f = none)
    (hlt : f < s.futures.length) :
    s.Proceeds (s.park t f stack) ∧ t ∈ (s.park t f stack).waiters f := by
  obtain ⟨task, htask⟩ := exists_task ht
  unfold park
  rw [htask]
  refine ⟨(proceeds_watch f (.task t)).trans (proceeds_setTask _ _), ?_⟩
  have hwatch : t ∈ (s.watch f (.task t)).waiters f := by
    rw [mem_waiters, watchers_watch hopen hlt, if_pos rfl]
    exact List.mem_append_right _ (List.mem_singleton.mpr rfl)
  exact hwatch

end Scheduler

/-! ## Machines -/

/-- Whether everybody who waits is served in time. -/
structure Machine.Prompt (m : Machine) : Prop where
  timers : ∀ x ∈ m.world.scheduler.timers, x.2.isLate = true
  /-- Who waits for a future watches it, or is in the queue. -/
  waits : ∀ t f, m.world.scheduler.awaiting t = some f →
    t ∈ m.world.scheduler.waiters f ∨ .wake t f ∈ m.world.scheduler.queue
  /-- An open future has still to be told of some of those that it waits for. -/
  going : ∀ g, ¬m.world.scheduler.Stalled g

namespace Machine

variable {m m' : Machine} {stack : List Frame}

/-! ### Steps -/

/-- A task that has its turn makes a step. -/
theorem exists_step {c : TaskId × Control} (hcurrent : m.current = some c) :
    ∃ m', m.step = some m' := by
  obtain ⟨t, control⟩ := c
  unfold step stepTask
  rw [hcurrent]
  cases control with
  | work work stack => exact ⟨_, rfl⟩
  | outcome o stack => cases stack <;> exact ⟨_, rfl⟩

/-- Where no task has its turn, the scheduler says what is handled. -/
theorem step_of_idle (hidle : m.current = none) : m.step =
    m.world.scheduler.next.map fun (handle, scheduler) =>
      Machine.handle { m.world with scheduler } handle := by
  have htask : m.stepTask = none := by
    unfold stepTask
    rw [hidle]
  unfold step
  rw [htask]

/-! ### The invariant -/

/-- What has to be checked of a scheduler that has more to handle. -/
theorem Prompt.of_proceeds (h : m.Prompt) (hproceeds : m.world.scheduler.Proceeds m'.world.scheduler)
    (hawaiting : ∀ t f, m'.world.scheduler.awaiting t = some f →
      m.world.scheduler.awaiting t = some f ∨ t ∈ m'.world.scheduler.waiters f) : m'.Prompt where
  timers x hx := (hproceeds.timers x hx).elim (h.timers x) id
  waits t f ht := by
    rcases hawaiting t f ht with hold | hwaits
    · exact (h.waits t f hold).elim (hproceeds.waiters t f) fun hwake => .inr (hproceeds.mem hwake)
    · exact .inl hwaits
  going g hg := h.going g (hproceeds.stalled g hg)

/-- The task whose turn begins waits for nothing any more. -/
theorem proceeds_beginTurn (w : World) (t : TaskId) (o : Outcome) :
    w.scheduler.Proceeds (beginTurn w t o).world.scheduler ∧
      ∀ u, (beginTurn w t o).world.scheduler.awaiting u =
        if u = t then none else w.scheduler.awaiting u := by
  unfold beginTurn
  cases hturn : w.scheduler.beginTurn t o with
  | none =>
      refine ⟨.refl _, fun u => ?_⟩
      have htask : w.scheduler.task? t = none := Option.map_eq_none_iff.mp hturn
      change w.scheduler.awaiting u = _
      by_cases hu : u = t
      · rw [if_pos hu, hu]
        simp [Scheduler.awaiting, htask]
      · rw [if_neg hu]
  | some given =>
      obtain ⟨given, s⟩ := given
      obtain ⟨-, -, hawaiting, -⟩ := Scheduler.beginTurn_spec hturn
      refine ⟨?_, hawaiting⟩
      obtain ⟨task, -, heq⟩ := Option.map_eq_some_iff.mp hturn
      cases heq
      exact Scheduler.proceeds_setTask _ _

/-- What is handled puts more at the end of the queue, and whoever is woken waits for nothing. -/
theorem proceeds_handle {handle : Handle Job} {w : World} (hsignals : w.Signals) :
    w.scheduler.Proceeds (Machine.handle w handle).world.scheduler ∧
      ∀ u f, (Machine.handle w handle).world.scheduler.awaiting u = some f →
        w.scheduler.awaiting u = some f ∧ ∀ f', handle ≠ .wake u f' := by
  have hbegin (t : TaskId) (o : Outcome) (u : TaskId) (f : FutureId)
      (hu : (beginTurn w t o).world.scheduler.awaiting u = some f) :
      w.scheduler.awaiting u = some f ∧ u ≠ t := by
    rw [(proceeds_beginTurn w t o).2] at hu
    split at hu
    · cases hu
    · next hne => exact ⟨hu, hne⟩
  have hsteady {w' : World} (hsteady : w.Steady w') : w.scheduler.Proceeds w'.scheduler ∧
      ∀ u f, w'.scheduler.awaiting u = some f → w.scheduler.awaiting u = some f := by
    have hgrows := hsteady.grows hsignals
    exact ⟨(hsteady.scheduler hsignals).proceeds, fun u f hu => hgrows.awaiting u ▸ hu⟩
  cases handle with
  | turn t =>
      exact ⟨(proceeds_beginTurn w t _).1, fun u f hu => ⟨(hbegin t _ u f hu).1, nofun⟩⟩
  | wake t g =>
      refine ⟨(proceeds_beginTurn w t _).1, fun u f hu => ⟨(hbegin t _ u f hu).1, ?_⟩⟩
      rintro f' ⟨⟩
      exact (hbegin t _ t f hu).2 rfl
  | told g member =>
      refine ⟨Scheduler.proceeds_tell g member, fun u f hu => ⟨?_, nofun⟩⟩
      exact (Scheduler.Grows.tell _ _ _).awaiting u ▸ hu
  | release g =>
      refine ⟨Scheduler.proceeds_release g, fun u f hu => ⟨?_, nofun⟩⟩
      exact (Scheduler.Grows.release _ _).awaiting u ▸ hu
  | job job =>
      cases job with
      | act actions =>
          obtain ⟨hproceeds, hawaiting⟩ := hsteady ((Engine.acting_perform actions).acts _).steady
          exact ⟨hproceeds, fun u f hu => ⟨hawaiting u f hu, nofun⟩⟩
      | expire error =>
          obtain ⟨hproceeds, hawaiting⟩ := hsteady (World.steady_tellMonitor _ _)
          exact ⟨hproceeds, fun u f hu => ⟨hawaiting u f hu, nofun⟩⟩

/-- What is handled keeps the invariant. -/
theorem Prompt.handle {handle : Handle Job} {s₁ : Scheduler (List Frame) Job} (h : m.Prompt)
    (hm : m.Sound) (hnext : m.world.scheduler.next = some (handle, s₁)) :
    (Machine.handle { m.world with scheduler := s₁ } handle).Prompt := by
  have htakes := Scheduler.takes_next hnext
  obtain ⟨hqueue, htimers⟩ := Scheduler.queue_of_next hnext
  have hsignals : ({ m.world with scheduler := s₁ } : World).Signals :=
    hm.signals.mono (extends_takes htakes) rfl rfl rfl
  obtain ⟨hproceeds, hawaiting⟩ := proceeds_handle hsignals
  refine ⟨fun x hx => ?_, fun u f hu => ?_, fun g hg => ?_⟩
  · exact (hproceeds.timers x hx).elim (fun hx => h.timers x (htimers x hx)) id
  · obtain ⟨hold, hother⟩ := hawaiting u f hu
    rw [htakes.awaiting] at hold
    rcases h.waits u f hold with hwaits | hwake
    · rw [← htakes.waiters] at hwaits
      exact hproceeds.waiters u f hwaits
    · rcases hqueue _ hwake with heq | hwake
      · exact absurd heq.symm (hother f)
      · exact .inr (hproceeds.mem hwake)
  · have hold := hproceeds.stalled g hg
    unfold Scheduler.Stalled at hold
    rw [htakes.outcome?, htakes.kind] at hold
    exact h.going g hold

/-- A task that has its turn puts more at the end of the queue, and watches what it waits for. -/
theorem Sound.proceeds (hm : m.Sound) {c : Control} (hcurrent : m.current = some (t, c))
    (hstep : m.step = some m') : m.world.scheduler.Proceeds m'.world.scheduler ∧
      ∀ u f, m'.world.scheduler.awaiting u = some f →
        m.world.scheduler.awaiting u = some f ∨ u ∈ m'.world.scheduler.waiters f := by
  rcases step_cases hstep with ⟨t, head, stack, turn, w', hcurrent, hrule, rfl⟩ |
    ⟨t, o, hcurrent, rfl⟩ | ⟨handle, s₁, hidle, hnext, rfl⟩
  · obtain ⟨new, hspawns, hserved⟩ := hm.served hcurrent hrule
    have hmoves := moves_of_rule hcurrent hrule hspawns hserved
    have hproceeds := hrule.proceeds (hm.threads_current hcurrent) hm.groups hm.signals
      (hm.frames t _ hmoves.before _ (List.mem_cons_self ..))
    have hold (u : TaskId) (f : FutureId)
        (hu : (Machine.follow t stack turn w').world.scheduler.awaiting u = some f) :
        turn.future? = some f ∧ u = t ∨ m.world.scheduler.awaiting u = some f := by
      rw [hmoves.awaiting] at hu
      split at hu
      · next hut => exact .inl ⟨hu, hut⟩
      · exact .inr hu
    cases turn with
    | give o | call work frames => exact ⟨hproceeds, fun u f hu => (hold u f hu).elim nofun .inl⟩
    | pause frames =>
        exact ⟨hproceeds.trans Scheduler.proceeds_pause, fun u f hu => (hold u f hu).elim nofun .inl⟩
    | await g frames =>
        obtain ⟨hmember, -, hopen⟩ := hserved.await g frames rfl
        have hlt : g < w'.scheduler.futures.length := Scheduler.lt_of_not_member hmember
        obtain ⟨-, ht, -⟩ := hserved.threads.busy t rfl
        obtain ⟨hpark, hwaits⟩ : w'.scheduler.Proceeds (w'.scheduler.park t g (frames ++ stack)) ∧
            t ∈ (w'.scheduler.park t g (frames ++ stack)).waiters g :=
          Scheduler.proceeds_park ht hopen hlt
        have hfollow : (Machine.follow t stack (.await g frames) w').world.scheduler =
            w'.scheduler.park t g (frames ++ stack) := by
          simp only [Machine.follow, hopen, World.withScheduler]
        refine ⟨hfollow ▸ hproceeds.trans hpark, fun u f hu => ?_⟩
        rcases hold u f hu with ⟨hf, rfl⟩ | hold
        · cases hf
          exact .inr (hfollow ▸ hwaits)
        · exact .inl hold
  · refine ⟨?_, fun u f hu => .inl ?_⟩
    · change m.world.scheduler.Proceeds (m.world.scheduler.finish t o)
      unfold Scheduler.finish
      split
      · exact .refl _
      · exact Scheduler.proceeds_settle _ _
    · exact (Scheduler.awaiting_congr (Scheduler.tasks_finish t o) u).symm.trans hu
  · cases hidle.symm.trans hcurrent

/-- Every step keeps the invariant. -/
theorem Prompt.step (h : m.Prompt) (hm : m.Sound) (hstep : m.step = some m') : m'.Prompt := by
  cases hcurrent : m.current with
  | some c =>
      obtain ⟨hproceeds, hawaiting⟩ := hm.proceeds hcurrent hstep
      exact h.of_proceeds hproceeds hawaiting
  | none =>
      rw [step_of_idle hcurrent] at hstep
      obtain ⟨⟨handle, s₁⟩, hnext, rfl⟩ := Option.map_eq_some_iff.mp hstep
      exact h.handle hm hnext

/-- What may not be put off is in the queue. -/
theorem Prompt.mem_queue (h : m.Prompt) {handle : Handle Job} (hmem : handle ∈ m.world.scheduler.handles)
    (hlate : handle.isLate = false) : handle ∈ m.world.scheduler.queue := by
  unfold Scheduler.handles at hmem
  rw [List.append_assoc] at hmem
  rcases List.mem_append.mp hmem with htimer | hqueue
  · obtain ⟨x, hx, rfl⟩ := List.mem_map.mp htimer
    cases hlate.symm.trans (h.timers x hx)
  · exact hqueue

/-- Whoever waits for a settled future is in the queue. -/
theorem Prompt.wake (h : m.Prompt) (hm : m.Sound) {f : FutureId}
    (hawait : m.world.scheduler.awaiting t = some f) (hsettled : m.world.scheduler.outcome? f ≠ none) :
    .wake t f ∈ m.world.scheduler.queue :=
  (h.waits t f hawait).resolve_left fun hwaits => hsettled (hm.threads.waiter t f hwaits).2

/-- News that are still to be told are in the queue. -/
theorem Prompt.told (h : m.Prompt) (hm : m.Sound) {g i : FutureId}
    (huntold : m.world.scheduler.Untold g i) (hsettled : m.world.scheduler.outcome? i ≠ none) :
    .told g i ∈ m.world.scheduler.queue := by
  have hnews := huntold.resolve_left fun hgroup => hsettled (hm.groups.group g i hgroup).2
  obtain ⟨handle, hmem, heq⟩ := List.mem_filterMap.mp hnews
  cases handle with
  | told g' i' =>
      cases heq
      exact h.mem_queue hmem rfl
  | turn | wake | release | job => cases heq

/-- An open future whose members are all settled has news to be told. -/
theorem Prompt.news_of_settled (h : m.Prompt) (hm : m.Sound) {g : FutureId}
    (hgroup : (m.world.scheduler.kind g).isGroup = true) (hopen : m.world.scheduler.outcome? g = none)
    (hsettled : ∀ i ∈ (m.world.scheduler.kind g).members, m.world.scheduler.outcome? i ≠ none) :
    ∃ i, .told g i ∈ m.world.scheduler.queue := by
  obtain ⟨n, hn⟩ := Option.isSome_iff_exists.mp hgroup
  obtain ⟨rest, -, hlength, hrest⟩ := (hm.groups.counts g hopen).left n hn
  cases rest with
  | nil =>
      subst hlength
      exact absurd ⟨hopen, hn⟩ (h.going g)
  | cons i rest =>
      have huntold := (hrest i).mp (List.mem_cons_self ..)
      have hmem : i ∈ (m.world.scheduler.kind g).members :=
        huntold.elim (fun hgroup => (hm.groups.group g i hgroup).1) fun hnews => (hm.groups.told g i hnews).1
      exact ⟨i, h.told hm huntold (hsettled i hmem)⟩

/-- An open future that is to be settled by the first fault has news of every fault. -/
theorem Prompt.news_of_faulted (h : m.Prompt) (hm : m.Sound) {g i : FutureId} {members : List FutureId}
    {left : Nat} (hkind : m.world.scheduler.kind g = .firstFault members left)
    (hopen : m.world.scheduler.outcome? g = none) (hi : i ∈ members)
    (hfault : m.world.scheduler.faulted i = true) : .told g i ∈ m.world.scheduler.queue := by
  refine h.told hm ?_ (Scheduler.settled_of_faulted hfault)
  by_contra huntold
  have hmem : i ∈ (m.world.scheduler.kind g).members := by
    rw [hkind]
    exact hi
  have hnot := ((hm.groups.counts g hopen).heard i hmem huntold).2 members left hkind
  cases hfault.symm.trans hnot

end Machine

/-! ## Tests -/

/-- Everybody who waits is served in time, in every machine that can be reached. -/
theorem World.Runs.prompt {work : Work} {m : Machine} (h : w.Runs work m) : m.Prompt := by
  refine h.invariant ?_ fun m m' hm hstep hprompt => hprompt.step hm.sound hstep
  unfold Machine.ofWork
  rw [h.fresh.scheduler]
  refine ⟨by simp [Scheduler.newTask, Scheduler.newFuture, Scheduler.empty], fun t f ht => ?_,
    fun i hi => ?_⟩
  · have hnone := (Scheduler.awaiting_newTask (s := .empty) [] t).symm.trans ht
    cases hnone
  · have hleft : ((Scheduler.empty.newTask []).2.kind i).left? = some 0 := hi.2
    rw [Scheduler.kind_newTask] at hleft
    split at hleft <;> cases hleft

/-- Everybody who waits is served in time, in every machine of a test. -/
theorem TestSetup.Reaches.prompt {setup : TestSetup} {g : Generator} {m : Machine}
    (h : setup.Reaches g m) : m.Prompt := h.runs.prompt

end HotSpec
