import HotSpec.Proofs.Engine.Course
import HotSpec.Proofs.Scheduler.Deadlines

/-!
# What is settled by whom

Whatever happens to a machine is made of elementary operations of its scheduler: signals are settled by
acts, a frame cancels only what it knows of, and only futures that are made on the spot come to be
released.  So a future that is released in time is released whatever else happens.

Main definitions:

- `Frame.Knows`: the futures that a frame may cancel.

Main results:

- Theorems `Asks.works`, `Rule.works`, `works_handle`: rules, and what is handled, by elementary
  operations.
- Theorem `Happens.works`: so is whatever happens.
- Theorems `Happens.releases`, `Happens.alarm`, `Happens.now_le_due`: what comes to be released, and
  when.
-/

namespace HotSpec

/-- Whether a frame may cancel a future. -/
def Frame.Knows (i : FutureId) : Frame → Prop
  | .joined members _ => i ∈ members
  | .heard _ found => i = found
  | _ => False

variable {head : Head} {w w' : World} {turn : Turn} {t : TaskId} {p : FutureId → Outcome → Prop}
  {q : FutureId → Prop}

/-! ## Rules -/

namespace World

/-- Subs start without anything being settled. -/
theorem works_spawnAll {proc : Processor} {subs : List Value} {fs : List FutureId}
    (h : (Move.spawnAll proc subs).run w = (fs, w')) : Scheduler.Works p q w.scheduler w'.scheduler := by
  induction subs generalizing w fs with
  | nil =>
      cases h
      exact .refl _
  | cons sub subs ih =>
      rw [spawnAll_cons] at h
      cases h
      exact (Scheduler.works_spawn _).trans
        (ih (w := w.withScheduler fun s => (s.spawn [.begin (.sub proc sub)]).2) rfl)

end World

/-- What is asked of a scheduler settles at most what the frame knows of. -/
theorem Asks.works (h : Asks head w turn w') (hs : w.scheduler.Threads (some t)) (hg : w.scheduler.Groups)
    (hframe : head.first.Sound w.scheduler) (hreached : w.scheduler.Reached p)
    (hknown : ∀ i, head.first.Knows i → p i .stopped)
    (hsignals : ∀ f, w.verdict = some f ∨ w.failSignal = some f → p f .stopped)
    (hnew : ∀ f, w.scheduler.futures.length ≤ f → f < w'.scheduler.futures.length → p f .stopped ∧ q f) :
    Scheduler.Works p q w.scheduler w'.scheduler := by
  have hsignal {s : Scheduler (List Frame) Job} :
      Scheduler.Works p q s (s.newFuture .signal).2 :=
    (Scheduler.WorkStep.newFuture .signal (by simp [FutureKind.members])).works
  have hreleased {s : Scheduler (List Frame) Job} :
      Scheduler.Works p q s (s.newFuture .released).2 :=
    (Scheduler.WorkStep.newFuture .released (by simp [FutureKind.members])).works
  cases h with
  | @sleep d =>
      have hfresh := (hnew w.scheduler.futures.length (Nat.le_refl _)
        (by rw [World.withScheduler]; exact Nat.lt_of_lt_of_eq (Nat.lt_succ_self _)
              (Scheduler.length_newFuture _).symm)).2
      refine hreleased.trans (Scheduler.WorkStep.after ?_).works
      rintro g ⟨⟩
      exact hfresh
  | @together proc subs fs _ w₁ hsubs hrun =>
      refine (World.works_spawnAll hrun).trans (Scheduler.works_gather fs fun m hm => ?_)
      obtain ⟨-, -, -, -, hfs⟩ := World.spawnAll_spec proc subs hs hg hrun
      obtain ⟨hle, u, -, hk⟩ := hfs m hm
      have hlt : m < w₁.scheduler.futures.length := Scheduler.lt_of_kind (by rw [hk]; simp)
      have hlength : (w₁.scheduler.firstFault fs).2.futures.length = w₁.scheduler.futures.length + 1 := by
        unfold Scheduler.firstFault
        rw [Scheduler.gather_eq, Scheduler.length_watchAll, Scheduler.length_newFuture]
      exact (hnew m hle (by rw [World.withScheduler, hlength]; exact Nat.lt_succ_of_lt hlt)).1
  | @cancelled members results o _ hopen =>
      have hmembers : ∀ i ∈ w.open? members, p i .stopped :=
        fun i hi => hknown i (List.mem_of_mem_filter hi)
      exact (Scheduler.works_cancelAll hreached hmembers).trans (Scheduler.works_gather _ hmembers)
  | @hear timeout matchers =>
      have hsecond : q w.secondFuture := by
        refine (hnew w.secondFuture (by rw [World.secondFuture_eq]; exact Nat.le_succ _) ?_).2
        change _ < (Scheduler.watch _ _ _).futures.length
        rw [Scheduler.length_watch]
        exact Nat.lt_of_lt_of_eq (Nat.lt_succ_self _) (Scheduler.length_newFuture _).symm
      refine ((hsignal.trans hreleased).trans (Scheduler.WorkStep.after ?_).works).trans
        (Scheduler.WorkStep.watch ?_).works
      · rintro g ⟨⟩
        exact hsecond
      · rintro g ⟨⟩
        exact hsecond
  | @heard n found o _ hopen =>
      have hnone : w.scheduler.outcome? found = none := by
        rw [Scheduler.isSettled_eq] at hopen
        simpa using hopen
      have hcancel := Scheduler.cancel_heard hframe.1 hframe.2 hnone
      have hfresh : q w.scheduler.futures.length := by
        refine (hnew _ (Nat.le_refl _) ?_).2
        change _ < (Scheduler.cancel _ found).2.futures.length
        rw [hcancel]
        change _ < (Scheduler.settle _ _ _).futures.length
        rw [Scheduler.length_settle, Scheduler.length_watch, Scheduler.length_newFuture]
        exact Nat.lt_succ_self _
      change Scheduler.Works p q _ (Scheduler.cancel _ found).2
      rw [hcancel]
      refine (hreleased.trans (Scheduler.WorkStep.watch ?_).works).trans
        (Scheduler.WorkStep.settle (hknown found rfl)).works
      rintro g ⟨⟩
      exact hfresh
  | start => exact hsignal.trans hsignal
  | @opened first v =>
      refine (Scheduler.works_spawn [.begin (.load first)]).trans (Scheduler.works_gather _ fun m hm => ?_)
      have hlength : ((w.scheduler.spawn [.begin (.load first)]).2.firstFault w.racers).2.futures.length =
          w.scheduler.futures.length + 1 + 1 := by
        unfold Scheduler.firstFault
        rw [Scheduler.gather_eq, Scheduler.length_watchAll, Scheduler.length_newFuture]
        exact congrArg (· + 1) (Scheduler.length_newFuture _)
      rcases List.mem_append.mp hm with hm | hm
      · rcases List.mem_cons.mp hm with rfl | hm
        · refine (hnew _ (Nat.le_refl _) ?_).1
          change _ < ((w.scheduler.spawn [.begin (.load first)]).2.firstFault w.racers).2.futures.length
          rw [hlength]
          exact Nat.lt_succ_of_lt (Nat.lt_succ_self _)
        · exact hsignals m (.inl (Option.mem_toList.mp hm))
      · exact hsignals m (.inr (Option.mem_toList.mp hm))

/-- A rule settles signals, and what the frame knows of. -/
theorem Rule.works (h : Rule head w turn w') (hs : w.scheduler.Threads (some t)) (hg : w.scheduler.Groups)
    (hsignals : w.Signals) (hframe : head.first.Sound w.scheduler) (hreached : w.scheduler.Reached p)
    (hknown : ∀ i, head.first.Knows i → p i .stopped)
    (hsignal : ∀ f, w.scheduler.kind f = .signal → ∀ o, p f o)
    (hnew : ∀ f, w.scheduler.futures.length ≤ f → f < w'.scheduler.futures.length → p f .stopped ∧ q f) :
    Scheduler.Works p q w.scheduler w'.scheduler := by
  rcases h.quiet_or_asks with ⟨hquiet, -, -⟩ | hasks
  · exact (hquiet.scheduler hsignals).works hsignal
  · refine hasks.works hs hg hframe hreached hknown (fun f hf => hsignal f ?_ _) hnew
    exact hf.elim (fun hf => (hsignals.verdict f hf).1) fun hf => (hsignals.failSignal f hf).1

/-! ## Machines -/

namespace Machine

variable {m m' : Machine} {stack : List Frame} {found waiter : FutureId} {due : Ticks}

/-- At the end of a turn nothing is settled. -/
theorem works_follow : Scheduler.Works p q w.scheduler (follow t stack turn w).world.scheduler := by
  cases turn with
  | give o | call work frames => exact .refl _
  | pause frames => exact Scheduler.works_pause _ _
  | await f frames =>
      unfold follow
      dsimp only
      split
      · exact .refl _
      · exact Scheduler.works_park _ _ _

theorem works_beginTurn (t : TaskId) (o : Outcome) :
    Scheduler.Works p q w.scheduler (beginTurn w t o).world.scheduler := by
  unfold beginTurn
  split
  · exact .refl _
  · next hturn => exact Scheduler.works_beginTurn hturn

/-- What is handled settles futures by those that they wait for, and what is released; and jobs settle
signals. -/
theorem works_handle {handle : Handle Job} (hsignals : w.Signals)
    (hgroup : ∀ g, (w.scheduler.kind g).isGroup = true → ∀ o, p g o)
    (hreleased : ∀ f, handle = .release f → w.scheduler.kind f = .released → p f .finished)
    (hsignal : ∀ job, handle = .job job → ∀ f, w.scheduler.kind f = .signal → ∀ o, p f o) :
    Scheduler.Works p q w.scheduler (Machine.handle w handle).world.scheduler := by
  have hjob {w' : World} {job : Job} (heq : handle = .job job) (hsteady : w.Steady w') :
      Scheduler.Works p q w.scheduler w'.scheduler := (hsteady.scheduler hsignals).works (hsignal job heq)
  cases handle with
  | turn t => exact works_beginTurn t _
  | wake t f => exact works_beginTurn t _
  | told g member => exact Scheduler.works_tell g member (hgroup g)
  | release f => exact Scheduler.works_release f (hreleased f rfl)
  | job job =>
      cases job with
      | act actions => exact hjob rfl ((Engine.acting_perform actions).acts _).steady
      | expire error => exact hjob rfl (World.steady_tellMonitor w (.expired error))

/-- Whatever happens is made of elementary operations: futures that are released are stopped at most,
but by their release. -/
theorem Happens.works (h : m.Happens m') (hm : m.Sound) (hstopped : ∀ f, p f .stopped)
    (hother : ∀ f, m.world.scheduler.kind f ≠ .released → ∀ o, p f o)
    (hnew : ∀ f, m.world.scheduler.futures.length ≤ f → f < m'.world.scheduler.futures.length → q f) :
    Scheduler.Works p q m.world.scheduler m'.world.scheduler ∨
      ∃ handle s₁, m.current = none ∧ m.world.scheduler.next = some (handle, s₁) ∧
        m' = Machine.handle { m.world with scheduler := s₁ } handle ∧
        ((∀ f, handle = .release f → p f .finished) → Scheduler.Works p q s₁ m'.world.scheduler) := by
  have hreached (s : Scheduler (List Frame) Job) : s.Reached p :=
    ⟨fun _ m _ => hstopped m, fun _ f _ => hstopped f⟩
  cases h with
  | step hstep =>
      rcases step_cases hstep with ⟨t, head, stack, turn, w', hcurrent, hrule, rfl⟩ |
        ⟨t, o, hcurrent, rfl⟩ | ⟨handle, s₁, hidle, hnext, rfl⟩
      · refine .inl (Scheduler.Works.trans ?_ works_follow)
        have hframe : head.first.Sound m.world.scheduler := by
          refine hm.frames t (head.first :: stack) ?_ _ (List.mem_cons_self ..)
          rw [frames_current hcurrent, Head.frames_control]
        refine hrule.works (hm.threads_current hcurrent) hm.groups hm.signals hframe (hreached _)
          (fun i _ => hstopped i) (fun f hk => hother f (by rw [hk]; simp)) fun f hle hlt =>
          ⟨hstopped f, hnew f hle (Nat.lt_of_lt_of_le hlt extends_follow.length)⟩
      · refine .inl (Scheduler.works_finish hm.threads t o fun f hk => hother f (by rw [hk]; simp) o)
      · refine .inr ⟨handle, s₁, hidle, hnext, rfl, fun hrelease => ?_⟩
        have htakes := Scheduler.takes_next hnext
        have hsignals : ({ m.world with scheduler := s₁ } : World).Signals :=
          hm.signals.mono (extends_takes htakes) rfl rfl rfl
        refine works_handle hsignals (fun g hgroup => ?_) (fun f heq _ => hrelease f heq)
          fun job _ f hk => ?_
        · refine hother g fun hreleased => ?_
          change (s₁.kind g).isGroup = true at hgroup
          rw [htakes.kind, hreleased] at hgroup
          cases hgroup
        · refine hother f fun hreleased => ?_
          change s₁.kind f = .signal at hk
          rw [htakes.kind, hreleased] at hk
          cases hk
  | @cancel i u hidle hk =>
      exact .inl (Scheduler.works_cancel i (hreached _) (hstopped i)).1

/-- Only futures that were made come to be released. -/
theorem Happens.releases (h : m.Happens m') (hm : m.Sound)
    (hs : m.world.scheduler.Releases (· < m.world.scheduler.futures.length)) :
    m'.world.scheduler.Releases (· < m'.world.scheduler.futures.length) := by
  have hlength : m.world.scheduler.futures.length ≤ m'.world.scheduler.futures.length := by
    rcases h.moves_or_leaves hm with ⟨t, head, stack, turn, new, w', hmoves⟩ | hleaves
    · exact hmoves.grows.length
    · exact hleaves.grows.length
  have hs' := hs.mono fun f hf => Nat.lt_of_lt_of_le hf hlength
  rcases h.works (p := fun _ _ => True) (q := (· < m'.world.scheduler.futures.length)) hm (by simp) (by simp)
    (fun f _ hf => hf) with hworks | ⟨handle, s₁, -, hnext, -, hworks⟩
  · exact hworks.releases hs'
  · exact (hworks (by simp)).releases (hs'.takes (Scheduler.takes_next hnext))

/-- Timers stay in the order of their times. -/
theorem Happens.sorted (h : m.Happens m') (hm : m.Sound) (hs : m.world.scheduler.Sorted) :
    m'.world.scheduler.Sorted := by
  rcases h.works (p := fun _ _ => True) (q := fun _ => True) hm (by simp) (by simp) (by simp) with
    hworks | ⟨handle, s₁, -, hnext, -, hworks⟩
  · exact hworks.sorted hs
  · obtain ⟨-, -, htimers, -⟩ := Scheduler.next_spec hnext
    exact (hworks (by simp)).sorted (hs.sublist htimers)

/-- Either elementary operations leave a future alone that is released, or its release is handled. -/
theorem Happens.works_or_release (h : m.Happens m') (hm : m.Sound)
    (hk : m.world.scheduler.kind waiter = .released) :
    (∃ s₁, (s₁ = m.world.scheduler ∨
        ∃ handle, handle ≠ .release waiter ∧ m.world.scheduler.next = some (handle, s₁)) ∧
      Scheduler.Works (fun f o => f = waiter → o = .stopped) (· ≠ waiter) s₁ m'.world.scheduler) ∨
    ∃ s₁, m.world.scheduler.next = some (.release waiter, s₁) ∧ s₁.kind waiter = .released ∧
      m'.world.scheduler = s₁.release waiter := by
  have hlt : waiter < m.world.scheduler.futures.length := Scheduler.lt_of_kind (by rw [hk]; simp)
  rcases h.works (p := fun f o => f = waiter → o = .stopped) (q := (· ≠ waiter)) hm (by simp)
    (fun f hother o heq => absurd (heq ▸ hk) hother)
    (fun f hle _ heq => Nat.not_lt.mpr hle (heq ▸ hlt)) with
    hworks | ⟨handle, s₁, -, hnext, rfl, hworks⟩
  · exact .inl ⟨m.world.scheduler, .inl rfl, hworks⟩
  · by_cases hrelease : handle = .release waiter
    · subst hrelease
      refine .inr ⟨s₁, hnext, ?_, rfl⟩
      rw [(Scheduler.takes_next hnext).kind]
      exact hk
    · refine .inl ⟨s₁, .inr ⟨handle, hrelease, hnext⟩, hworks fun f heq hf => ?_⟩
      exact absurd (heq.trans (congrArg _ hf)) hrelease

/-- A future that is going to be released stays so until it is, whatever happens. -/
theorem Happens.armed (h : m.Happens m') (hm : m.Sound) (hk : m.world.scheduler.kind waiter = .released)
    (hs : m.world.scheduler.Armed waiter) : m'.world.scheduler.Armed waiter := by
  rcases h.works_or_release hm hk with ⟨s₁, hs₁, hworks⟩ | ⟨s₁, -, hk₁, hrelease⟩
  · refine hworks.armed ?_
    rcases hs₁ with rfl | ⟨handle, hother, hnext⟩
    · exact hs
    · exact hs.next hnext hother
  · rw [hrelease]
    exact Scheduler.armed_release hk₁

/-- A future that is released in time stays so, whatever happens. -/
theorem Happens.alarm (h : m.Happens m') (hm : m.Sound)
    (hk : m.world.scheduler.kind waiter = .released)
    (ha : m.world.scheduler.Alarm found waiter due) : m'.world.scheduler.Alarm found waiter due := by
  rcases h.works_or_release hm hk with ⟨s₁, hs₁, hworks⟩ | ⟨s₁, hnext, hk₁, hrelease⟩
  · refine hworks.alarm ?_ (fun o ho => ho rfl) fun hne => hne rfl
    rcases hs₁ with rfl | ⟨handle, -, hnext⟩
    · exact ha
    · exact (ha.next hnext).1
  · rw [hrelease]
    obtain ⟨ha₁, hripe⟩ := ha.next hnext
    exact ha₁.release (hripe rfl) hk₁

/-- The clock never goes back. -/
theorem Happens.now_le (h : m.Happens m') (hm : m.Sound) :
    m.world.scheduler.now ≤ m'.world.scheduler.now := by
  rcases h.works (p := fun _ _ => True) (q := fun _ => True) hm (by simp) (by simp) (by simp) with
    hworks | ⟨handle, s₁, -, hnext, -, hworks⟩
  · exact Nat.le_of_eq hworks.now.symm
  · rw [(hworks (by simp)).now]
    exact (Scheduler.next_spec hnext).1

/-- The clock does not go past the time of a release, as long as nobody was told of one. -/
theorem Happens.now_le_due (h : m.Happens m') (hm : m.Sound)
    (ha : m.world.scheduler.Alarm found waiter due) (hs : m.world.scheduler.Armed waiter)
    (hle : m.world.scheduler.now ≤ due)
    (htold : m.world.scheduler.outcome? waiter ≠ none → m.world.scheduler.queue ≠ []) :
    m'.world.scheduler.now ≤ due := by
  rcases h.works (p := fun _ _ => True) (q := fun _ => True) hm (by simp) (by simp) (by simp) with
    hworks | ⟨handle, s₁, -, hnext, -, hworks⟩
  · rw [hworks.now]
    exact hle
  · rw [(hworks (by simp)).now]
    exact ha.next_now hs hle htold hnext

end Machine

end HotSpec
