import HotSpec.Proofs.Console.Listeners
import HotSpec.Proofs.Engine.Joins
import HotSpec.Proofs.Scheduler.Lulls

/-!
# A wait for a console message begins

A task that waits for a console message is at one of two places: it waits for its message, or, if it was
stopped or time is up, for the end of that wait.  At both places it waits for a future that is released in
time, and it goes on with a stop only if it was cancelled.

Main definitions:

- `Machine.Strikes`: whether a task is cancelled by what happens.
- `Hearing`: a wait for a console message, and what it is about.
- `Hearing.Place`: a task that is at a place of its wait, parked or with its turn.

Main results:

- Theorems `Rule.of_hear`, `Rule.of_heard`, `Rule.of_unheard`: what a task does at a wait.
- Theorem `Happens.calm`: nobody is stopped who is not cancelled.
- Theorem `Parked.happens`: a task that waits goes on with what it has waited for.
- Theorems `Hearing.begins`, `Hearing.attends`: how a wait begins.
-/

namespace HotSpec

variable {w w' : World} {turn : Turn} {o : Outcome} {n : Nat} {found : FutureId}

/-! ## What a task does at a wait -/

/-- A wait for a console message begins. -/
theorem Rule.of_hear {timeout : Float} {matchers : List Value}
    (h : Rule (.work (.hear timeout matchers)) w turn w') :
    turn = .await w.secondFuture [.heard w.waits.length w.scheduler.futures.length] ∧
      w' = w.hearing timeout matchers := by
  cases h with
  | asks h =>
      cases h with
      | hear => exact ⟨rfl, rfl⟩
  | reply r hhead => cases hhead
  | call hcall => cases hcall

/-- A message has come, or the wait for it is given up. -/
theorem Rule.of_heard (h : Rule (.frame (.heard n found) o) w turn w') :
    w.scheduler.outcome? found ≠ none ∧ turn = .give .finished ∧ w' = w.unhearing n ∨
      w.scheduler.outcome? found = none ∧
        turn = .await w.scheduler.futures.length [.unheard n o.isStopped] ∧
        w' = w.withScheduler fun s =>
          (((s.newFuture .released).2.watch found (.release s.futures.length)).cancel found).2 := by
  cases h with
  | asks h =>
      cases h with
      | heard hopen =>
          rw [Scheduler.isSettled_eq] at hopen
          exact .inr ⟨by simpa using hopen, rfl, rfl⟩
  | met hsettled =>
      rw [Scheduler.isSettled_eq] at hsettled
      exact .inl ⟨Option.isSome_iff_ne_none.mp hsettled, rfl, rfl⟩
  | reply r hhead => cases hhead
  | pass hf => cases hf
  | call hcall => cases hcall

/-- The wait for a message is over. -/
theorem Rule.of_unheard {stopped : Bool} (h : Rule (.frame (.unheard n stopped) o) w turn w') :
    turn = .give (if stopped || o.isStopped then .stopped else .fault .noMessage) ∧
      w' = w.unhearing n := by
  cases h with
  | unheard => exact ⟨rfl, rfl⟩
  | asks h => cases h
  | reply r hhead => cases hhead
  | pass hf => cases hf
  | call hcall => cases hcall

namespace Machine

variable {m m' : Machine} {t : TaskId} {f : FutureId} {fs : List Frame} {c : TaskId × Control}

/-! ## Who is stopped -/

/-- Whether a task is cancelled by what happens: by the task that has its turn, or from outside, be it
itself or one that waits for it. -/
def Strikes (m m' : Machine) (t : TaskId) : Prop :=
  m.Cancels t ∨ ∃ i u, m.current = none ∧ m.world.scheduler.kind i = .task u ∧
    m.world.scheduler.Below i t ∧ m' = ⟨m.world.withScheduler fun s => (s.cancel i).2, none⟩

/-- Nobody is stopped who is not cancelled. -/
theorem Happens.calm (h : m.Happens m') (hm : m.Sound) (hcalm : m.world.scheduler.Calm (· ≠ t))
    (hnot : ¬m.Strikes m' t) (hcurrent : ∀ o, m.current ≠ some (t, .outcome o [])) :
    m'.world.scheduler.Calm (· ≠ t) := by
  cases h with
  | cancel hidle hk =>
      refine hcalm.cancel (hm.threads_idle hidle) ((hm.cancelSteps hk).mono ?_)
      rintro u ⟨i, hi, hbelow⟩ rfl
      rw [List.mem_singleton.mp hi] at hbelow
      exact hnot (.inr ⟨_, _, hidle, hk, hbelow, rfl⟩)
  | step hstep =>
      rcases hm.moves_or_rests hstep with ⟨u, head, stack, turn, new, w', hmoves⟩ | hrests
      · have hfollow (hcalm' : w'.scheduler.Calm (· ≠ t)) (hwait : ∀ f frames, turn = .await f frames →
            ∀ members left, w'.scheduler.kind f ≠ .all members left true) :
            m'.world.scheduler.Calm (· ≠ t) := by
          rw [hmoves.follows]
          exact calm_follow hcalm' fun f frames heq =>
            ⟨(hmoves.served.await f frames heq).2.2, hwait f frames heq⟩
        rcases hmoves.waits hm with ⟨hturn, -, hkeeps⟩ | ⟨f, frames, rfl, hawaits⟩
        · exact hfollow (hkeeps _ hcalm) fun f frames heq => absurd heq (hturn f frames)
        · have hkind {k : FutureKind} (hk : w'.scheduler.kind f = k)
              (hno : ∀ members left, k ≠ .all members left true) (g : FutureId) (fs : List Frame)
              (heq : Turn.await f frames = .await g fs) (members : List FutureId) (left : Nat) :
              w'.scheduler.kind g ≠ .all members left true := by
            cases heq
            rw [hk]
            exact hno members left
          cases hawaits with
          | timer hk hkeeps | hears hk hkeeps | unhears hk hkeeps =>
              exact hfollow (hkeeps _ hcalm) (hkind hk (by simp))
          | joins hk _ _ _ hkeeps => exact hfollow (hkeeps _ hcalm) (hkind hk (by simp))
          | collects hopen hk hkeeps =>
              refine hfollow (hkeeps _ hcalm ?_) (hkind hk (by simp))
              rintro i hi v hbelow rfl
              exact hnot (.inl ⟨u, _, _, _, stack, hmoves.current, i, hi, hbelow⟩)
      · refine hrests.calm _ hcalm ?_
        rintro u hu rfl
        exact hcurrent _ hu

/-- As long as a task has its turn, the clock stands still. -/
theorem Happens.now_eq (h : m.Happens m') (hm : m.Sound) (hcurrent : m.current = some c) :
    m'.world.scheduler.now = m.world.scheduler.now := by
  rcases h.works (p := fun _ _ => True) (q := fun _ => True) hm (by simp) (by simp) (by simp) with
    hworks | ⟨handle, s₁, hidle, -⟩
  · exact hworks.now
  · cases hidle.symm.trans hcurrent

/-- What is settled stays so. -/
theorem Happens.settled (h : m.Happens m') (hm : m.Sound) {o : Outcome}
    (ho : m.world.scheduler.outcome? f = some o) : m'.world.scheduler.outcome? f = some o := by
  rcases h.moves_or_leaves hm with ⟨u, head, stack, turn, new, w', hmoves⟩ | hleaves
  · exact hmoves.grows.settled f o ho
  · exact hleaves.grows.settled f o ho

/-- A future that is released stays one. -/
theorem Happens.released (h : m.Happens m') (hm : m.Sound)
    (hk : m.world.scheduler.kind f = .released) : m'.world.scheduler.kind f = .released := by
  have hlt : f < m.world.scheduler.futures.length := Scheduler.lt_of_kind (by rw [hk]; simp)
  have hsame {more : Nat} (hgrows : m.world.scheduler.Extends more m'.world.scheduler) :
      m'.world.scheduler.kind f = .released := by
    have hform := hgrows.form f hlt
    rw [hk] at hform
    cases hk' : m'.world.scheduler.kind f <;> rw [hk'] at hform <;> first | rfl | cases hform
  rcases h.moves_or_leaves hm with ⟨u, head, stack, turn, new, w', hmoves⟩ | hleaves
  · exact hsame hmoves.grows
  · exact hsame hleaves.grows

/-! ## Who waits -/

/-- A task that waits for something does not have its turn. -/
theorem Parked.not_current (h : m.Parked t f fs) (hm : m.Sound) (c : Control) :
    m.current ≠ some (t, c) := by
  intro hcurrent
  cases h.awaits.symm.trans ((hm.threads_current hcurrent).busy t rfl).1

/-- A task that waits goes on with what it has waited for, unless it is to be stopped. -/
theorem Parked.happens (h : m.Parked t f fs) (hm : m.Sound) (hhappens : m.Happens m') :
    m'.Parked t f fs ∨ ∃ o, m'.current = some (t, .outcome o fs) ∧
      m.world.scheduler.outcome? f ≠ none ∧
      (m.world.scheduler.Calm (· ≠ t) → m.world.scheduler.outcome? f = some o ∧ o ≠ .stopped) := by
  rcases hhappens.moves_or_leaves hm with ⟨u, head, stack, turn, new, w', hmoves⟩ | hleaves
  · have hut : t ≠ u := by
      rintro rfl
      exact h.not_current hm _ hmoves.current
    refine .inl ⟨?_, ?_⟩
    · rw [hmoves.frames_of_ne hut (hm.lt_of_frames h.frames)]
      exact h.frames
    · rw [hmoves.awaiting, if_neg hut]
      exact h.awaits
  · by_cases hcurrent : m'.current.map Prod.fst = some t
    · obtain ⟨⟨u, c⟩, hc, rfl⟩ := Option.map_eq_some_iff.mp hcurrent
      obtain ⟨-, o, fs', rfl⟩ := hleaves.current _ _ hc
      cases (frames_current hc).symm.trans ((hleaves.frames _).trans h.frames)
      refine .inr ⟨o, hc, hleaves.due _ _ f hc h.awaits, fun hcalm => ?_⟩
      rcases hleaves.given _ _ _ hc with ⟨-, hnone⟩ | ⟨-, hstopping⟩ | ⟨g, hg, ho⟩
      · cases h.awaits.symm.trans hnone
      · exact absurd rfl (hcalm.stopping _ hstopping)
      · cases h.awaits.symm.trans hg
        refine ⟨ho, ?_⟩
        rintro rfl
        exact hcalm.awaited _ f hg ho rfl
    · refine .inl ⟨(hleaves.frames t).trans h.frames, ?_⟩
      rw [hleaves.awaiting, if_neg hcurrent]
      exact h.awaits

end Machine

/-! ## Futures that are released in time -/

namespace Scheduler

variable {Stack Job : Type} {s : Scheduler Stack Job}

/-- A new future is released by another new one, or by a timer. -/
theorem alarm_new (hs : s.Sorted) (hr : s.Releases (· < s.futures.length)) (timeout : Float) :
    ((((s.newFuture .signal).2.newFuture .released).2.after timeout
        (.release (s.futures.length + 1))).watch s.futures.length
          (.release (s.futures.length + 1))).Alarm s.futures.length (s.futures.length + 1)
        (s.now + Ticks.ofSeconds timeout) ∧
      ((((s.newFuture .signal).2.newFuture .released).2.after timeout
        (.release (s.futures.length + 1))).watch s.futures.length
          (.release (s.futures.length + 1))).Armed (s.futures.length + 1) := by
  have hnew : Works (fun _ _ => True) (fun f => f ≠ s.futures.length + 1) s
      ((s.newFuture .signal).2.newFuture .released).2 :=
    (WorkStep.newFuture .signal (by simp)).works.trans (WorkStep.newFuture .released (by simp)).works
  have hopen (f : FutureId) : ((s.newFuture .signal).2.newFuture .released).2.outcome? f = s.outcome? f :=
    (outcome?_newFuture _ f).trans (outcome?_newFuture _ f)
  have hlength : ((s.newFuture .signal).2.newFuture .released).2.futures.length = s.futures.length + 1 + 1 := by
    rw [length_newFuture, length_newFuture]
  have hnone : s.outcome? (s.futures.length + 1) = none :=
    Option.eq_none_iff_forall_ne_some.mpr fun o ho =>
      Nat.not_succ_le_self _ (Nat.le_of_succ_le (lt_of_settled ho))
  have halarm : ((s.newFuture .signal).2.newFuture .released).2.Alarm s.futures.length
      (s.futures.length + 1) (s.now + Ticks.ofSeconds timeout) :=
    (hnew.releases (hr.mono fun f hf => Nat.ne_of_lt (Nat.lt_succ_of_lt hf))).alarm (hnew.sorted hs)
      ((hopen _).trans hnone)
  refine ⟨Alarm.watch halarm.after ((hopen _).trans outcome?_length) ?_, ?_⟩
  · change _ < ((s.newFuture .signal).2.newFuture .released).2.futures.length
    rw [hlength]
    exact Nat.lt_succ_of_lt (Nat.lt_succ_self _)
  · exact (WorkStep.watch (p := fun _ _ => True) (q := fun _ => True) (by simp)).armed
      (armed_after timeout)

/-- A new future is released by one that is stopped. -/
theorem alarm_stopped (hs : s.Sorted) (hr : s.Releases (· < s.futures.length)) {found : FutureId}
    (hopen : s.outcome? found = none) (hlt : found < s.futures.length) (due : Ticks) :
    (((s.newFuture .released).2.watch found (.release s.futures.length)).settle found .stopped).Alarm
        found s.futures.length due ∧
      (((s.newFuture .released).2.watch found (.release s.futures.length)).settle found .stopped).Armed
        s.futures.length := by
  have hnew : Works (fun _ _ => True) (fun f => f ≠ s.futures.length) s (s.newFuture .released).2 :=
    (WorkStep.newFuture .released (by simp)).works
  have hopen' : (s.newFuture .released).2.outcome? found = none :=
    (outcome?_newFuture _ found).trans hopen
  have hlt' : found < (s.newFuture .released).2.futures.length := by
    rw [length_newFuture]
    exact Nat.lt_succ_of_lt hlt
  have halarm : (s.newFuture .released).2.Alarm found s.futures.length due :=
    (hnew.releases (hr.mono fun f hf => Nat.ne_of_lt hf)).alarm (hnew.sorted hs)
      ((outcome?_newFuture _ _).trans outcome?_length)
  refine ⟨(halarm.watch hopen' hlt').settle fun heq => absurd heq (Nat.ne_of_lt hlt), ?_⟩
  refine armed_settle _ ((outcome?_watch _ _ _).trans hopen') ?_
  rw [watchers_watch hopen' hlt', if_pos rfl]
  exact List.mem_append_right _ (List.mem_singleton.mpr rfl)

end Scheduler

/-! ## A wait and its task -/

/-- A wait for a console message. -/
structure Hearing where
  task : TaskId
  /-- What the task goes on with afterwards. -/
  stack : List Frame
  matchers : List Value
  number : Nat
  /-- The future that is settled by a message that is waited for. -/
  found : FutureId
  /-- The time at which the wait is given up. -/
  due : Ticks

/-- The wait that a task begins now. -/
def Machine.hearing (m : Machine) (t : TaskId) (stack : List Frame) (timeout : Float)
    (matchers : List Value) : Hearing where
  task := t
  stack := stack
  matchers := matchers
  number := m.world.waits.length
  found := m.world.scheduler.futures.length
  due := m.world.scheduler.now + Ticks.ofSeconds timeout

namespace Hearing

open Machine

variable {a : Hearing} {m m' : Machine} {cancelled cancelled' : Prop} {f : Frame} {stack : List Frame}
  {t : TaskId} {timeout : Float} {matchers : List Value} {new : List (List Frame)}

/-- Where a task is at that is at a frame of its wait: it waits for a future that is released in time, or
it has its turn because that was. -/
inductive Place (a : Hearing) (cancelled : Prop) (m : Machine) (f : Frame) : Prop
  | parked {waiter : FutureId} (h : m.Parked a.task waiter (f :: a.stack))
      (hkind : m.world.scheduler.kind waiter = .released)
      (halarm : m.world.scheduler.Alarm a.found waiter a.due) (harmed : m.world.scheduler.Armed waiter)
  | turn {o : Outcome} (h : m.current = some (a.task, .outcome o (f :: a.stack)))
      (hstopped : o = .stopped → cancelled) (hripe : cancelled ∨ m.world.scheduler.Ripe a.found a.due)

theorem Place.frames (h : a.Place cancelled m f) : m.frames a.task = some (f :: a.stack) := by
  cases h with
  | parked h => exact h.frames
  | turn h => exact frames_current h

theorem Place.mono (h : a.Place cancelled m f) (hsub : cancelled → cancelled') : a.Place cancelled' m f := by
  cases h with
  | parked h hkind halarm harmed => exact .parked h hkind halarm harmed
  | turn h hstopped hripe => exact .turn h (fun ho => hsub (hstopped ho)) (hripe.imp_left hsub)

/-- A task stays at its place until it has its turn, and that comes in time. -/
theorem Place.happens (h : a.Place cancelled m f) (hm : m.Orderly)
    (hcalm : ¬cancelled → m.world.scheduler.Calm (· ≠ a.task)) (hle : m.world.scheduler.now ≤ a.due)
    (hhappens : m.Happens m') (hidle : ∀ c, m.current ≠ some (a.task, c)) :
    a.Place cancelled m' f ∧ m'.world.scheduler.now ≤ a.due := by
  have hsound := hm.tidy.sound
  cases h with
  | turn h => exact absurd h (hidle _)
  | @parked waiter h hkind halarm harmed =>
      refine ⟨?_, hhappens.now_le_due hsound halarm harmed hle fun hsettled => ?_⟩
      swap
      · exact List.ne_nil_of_mem (hm.prompt.wake hsound h.awaits hsettled)
      rcases h.happens hsound hhappens with hparked | ⟨o, hcurrent, -, hgiven⟩
      · exact .parked hparked (hhappens.released hsound hkind) (hhappens.alarm hsound hkind halarm)
          (hhappens.armed hsound hkind harmed)
      · refine .turn hcurrent (fun ho => by_contra fun hnot => (hgiven (hcalm hnot)).2 ho) ?_
        by_cases hcancelled : cancelled
        · exact .inl hcancelled
        · obtain ⟨ho, hne⟩ := hgiven (hcalm hcancelled)
          refine .inr (((halarm.settled o ho).resolve_left hne).mono (fun hsettled => ?_)
            (hhappens.now_le hsound))
          obtain ⟨o', ho'⟩ := Option.ne_none_iff_exists'.mp hsettled
          rw [hhappens.settled hsound ho']
          simp

/-- Somebody at a wait for a console message is going to make a step. -/
theorem Place.exists_step (h : a.Place cancelled m f) (hm : m.Orderly) : ∃ m', m.step = some m' := by
  by_cases hcurrent : m.current = none
  · cases h with
    | turn h => cases hcurrent.symm.trans h
    | @parked waiter h hkind halarm harmed =>
        have hne : m.world.scheduler.handles ≠ [] := by
          by_cases hopen : m.world.scheduler.outcome? waiter = none
          · exact List.ne_nil_of_mem (harmed hopen)
          · have hwake := hm.prompt.wake hm.tidy.sound h.awaits hopen
            refine List.ne_nil_of_mem (a := .wake a.task waiter) ?_
            unfold Scheduler.handles
            rw [List.append_assoc]
            exact List.mem_append_right _ hwake
        obtain ⟨handle, s, hnext⟩ := Scheduler.exists_next hne
        rw [step_of_idle hcurrent, hnext]
        exact ⟨_, rfl⟩
  · obtain ⟨c, hc⟩ := Option.ne_none_iff_exists'.mp hcurrent
    exact Machine.exists_step hc

/-! ### Its beginning -/

/-- A task begins to wait in time. -/
theorem begins (hm : m.Orderly)
    (hmoves : m.Moves t (.work (.hear timeout matchers)) stack turn new w' m') :
    (m.hearing t stack timeout matchers).Place cancelled m'
      (.heard m.world.waits.length m.world.scheduler.futures.length) := by
  obtain ⟨rfl, rfl⟩ := hmoves.rule.of_hear
  have hwaiter := World.secondFuture_eq m.world
  have hkind : (m.world.hearing timeout matchers).scheduler.kind m.world.secondFuture = .released := by
    change (Scheduler.watch _ _ _).kind _ = _
    rw [Scheduler.kind_watch]
    change ((m.world.scheduler.newFuture .signal).2.newFuture .released).2.kind _ = _
    rw [Scheduler.kind_newFuture, hwaiter, Scheduler.length_newFuture, if_pos rfl]
  obtain ⟨halarm, harmed⟩ := Scheduler.alarm_new hm.sorted hm.releases timeout
  have hscheduler : (m.world.hearing timeout matchers).scheduler =
      (((m.world.scheduler.newFuture .signal).2.newFuture .released).2.after timeout
        (.release (m.world.scheduler.futures.length + 1))).watch m.world.scheduler.futures.length
          (.release (m.world.scheduler.futures.length + 1)) := by
    rw [← hwaiter]
    rfl
  rw [← hscheduler, ← hwaiter] at halarm harmed
  have hworks : Scheduler.Works (fun f o => f = m.world.secondFuture → o = .stopped)
      (· ≠ m.world.secondFuture) (m.world.hearing timeout matchers).scheduler m'.world.scheduler := by
    rw [hmoves.follows]
    exact works_follow
  refine .parked ⟨?_, ?_⟩ ?_ (hworks.alarm halarm (fun o ho => ho rfl) fun hne => hne rfl)
    (hworks.armed harmed)
  · rw [hmoves.frames]
    exact if_pos rfl
  · rw [hmoves.awaiting]
    exact if_pos rfl
  · rw [hmoves.kind]
    exact hkind

/-- Nobody else knows of a wait that begins. -/
theorem attends (hm : m.Orderly)
    (hmoves : m.Moves t (.work (.hear timeout matchers)) stack turn new w' m') :
    m'.Attends t m.world.waits.length matchers m.world.scheduler.futures.length := by
  have hsound := hm.tidy.sound
  have hworld : m'.world = { w' with scheduler := m'.world.scheduler } := by
    rw [hmoves.follows]
    exact world_follow
  have hsignals := hmoves.served.signals
  have hgrows : w'.scheduler.Extends 0 m'.world.scheduler := by
    rw [hmoves.follows]
    exact extends_follow
  obtain ⟨rfl, rfl⟩ := hmoves.rule.of_hear
  have haudience : (m.world.hearing timeout matchers).audience =
      m.world.audience ++ [.wait m.world.waits.length] := World.audience_hear _ _
  have hexpects : (m.world.hearing timeout matchers).Expects m.world.waits.length matchers
      m.world.scheduler.futures.length := by
    refine ⟨hsignals, ?_, ?_, ?_, ?_, ?_⟩
    · change (m.world.waits ++ [_])[_]? = _
      rw [List.getElem?_append_right (Nat.le_refl _), Nat.sub_self]
      rfl
    · intro k wait hwait hfound
      change (m.world.waits ++ [_])[k]? = some wait at hwait
      by_cases hk : k < m.world.waits.length
      · rw [List.getElem?_append_left hk] at hwait
        have hlt := (hsound.signals.waits _ (List.mem_of_getElem? hwait)).2
        exact absurd hfound (Nat.ne_of_lt hlt)
      · rw [List.getElem?_append_right (Nat.not_lt.mp hk), List.getElem?_singleton] at hwait
        split at hwait
        · next hzero => exact Nat.le_antisymm (Nat.sub_eq_zero_iff_le.mp hzero) (Nat.not_lt.mp hk)
        · cases hwait
    · exact fun hverdict => Nat.lt_irrefl _ (hsound.signals.verdict _ hverdict).2
    · exact fun hfail => Nat.lt_irrefl _ (hsound.signals.failSignal _ hfail).2
    · rw [haudience]
      intro hmem
      rcases List.mem_append.mp hmem with hmem | hmem
      · exact hm.listeners _ hmem
      · cases List.mem_singleton.mp hmem
  refine ⟨?_, fun g i hi => ?_, fun u fs hu hfs f hf => ?_⟩
  · rw [hworld]
    exact hexpects.scheduler hgrows
  · rw [hmoves.kind] at hi
    have hkind : (m.world.hearing timeout matchers).scheduler.kind g =
        ((m.world.scheduler.newFuture .signal).2.newFuture .released).2.kind g := by
      change (Scheduler.watch _ _ _).kind _ = _
      rw [Scheduler.kind_watch]
      rfl
    rw [hkind, Scheduler.kind_newFuture] at hi
    split at hi
    · cases hi
    · rw [Scheduler.kind_newFuture] at hi
      split at hi
      · cases hi
      · exact Nat.ne_of_lt (hsound.groups.member g i hi).2
  · refine hmoves.others (Q := fun f => ¬f.Knows m.world.scheduler.futures.length ∧
      f.number? ≠ some m.world.waits.length) hu (Frame.unaware_begin · _ _)
      (fun fs hfs f hf => ⟨?_, ?_⟩) fs hfs f hf
    · have hframe := hsound.frames u fs hfs f hf
      cases f with
      | joined members results =>
          exact fun hmem => Nat.lt_irrefl _ (hframe.member _ hmem).2
      | heard n found =>
          rintro rfl
          exact Nat.lt_irrefl _ hframe.2
      | _ => exact id
    · exact fun hk => Nat.lt_irrefl _ (hm.numbers u fs hfs f hf _ hk)

/-- A wait listens from its beginning on. -/
theorem overheard (hm : m.Orderly)
    (hmoves : m.Moves t (.work (.hear timeout matchers)) stack turn new w' m') :
    World.Overheard m.world.waits.length matchers m.world.scheduler.futures.length m.world [] m'.world := by
  have hexpects := (attends hm hmoves).expects
  obtain ⟨rfl, rfl⟩ := hmoves.rule.of_hear
  have haudience : m'.world.audience = m.world.audience ++ [.wait m.world.waits.length] := by
    rw [hmoves.follows, world_follow]
    exact World.audience_hear _ _
  have hnone : Listener.wait m.world.waits.length ∉ m.world.audience :=
    fun hmem => Nat.lt_irrefl _ (hm.listeners _ hmem)
  have hopen : m'.world.scheduler.outcome? m.world.scheduler.futures.length = none := by
    rw [hmoves.outcome?]
    change (Scheduler.watch _ _ _).outcome? _ = none
    rw [Scheduler.outcome?_watch]
    change ((m.world.scheduler.newFuture .signal).2.newFuture .released).2.outcome? _ = none
    rw [Scheduler.outcome?_newFuture, Scheduler.outcome?_newFuture, Scheduler.outcome?_length]
  refine ⟨hexpects, ?_, ?_, hopen, by simp, List.Pairwise.nil, by simp⟩
  · rw [haudience, List.count_append, List.count_eq_zero.mpr hnone]
    simp
  · rw [haudience, List.filter_append]
    simp [Noise.effects]

/-! ### Its end -/

/-- A task that gives up the wait for its message waits for the end of that. -/
theorem Place.givesUp (hm : m.Orderly) (hattends : m.Attends a.task a.number a.matchers a.found)
    (hmoves : m.Moves a.task (.frame (.heard a.number a.found) o) a.stack turn new w' m')
    (hopen : m.world.scheduler.outcome? a.found = none) :
    a.Place cancelled m' (.unheard a.number o.isStopped) ∧
      m'.Attends a.task a.number a.matchers a.found ∧
      m'.world.scheduler.outcome? a.found = some .stopped ∧ m'.world.audience = m.world.audience := by
  have hsignal := hattends.expects.kind
  have hlt := hattends.expects.lt
  have hworld : m'.world = { w' with scheduler := m'.world.scheduler } := by
    rw [hmoves.follows]
    exact world_follow
  obtain ⟨hsettled, -⟩ | ⟨-, rfl, rfl⟩ := hmoves.rule.of_heard
  · exact absurd hopen hsettled
  have hscheduler : (m.world.withScheduler fun s =>
      (((s.newFuture .released).2.watch a.found (.release s.futures.length)).cancel a.found).2).scheduler =
      ((m.world.scheduler.newFuture .released).2.watch a.found
        (.release m.world.scheduler.futures.length)).settle a.found .stopped :=
    congrArg Prod.snd (Scheduler.cancel_heard hsignal hlt hopen)
  obtain ⟨halarm, harmed⟩ := Scheduler.alarm_stopped hm.sorted hm.releases hopen hlt a.due
  rw [← hscheduler] at halarm harmed
  have hworks : Scheduler.Works (fun f o => f = m.world.scheduler.futures.length → o = .stopped)
      (· ≠ m.world.scheduler.futures.length) (m.world.withScheduler fun s =>
        (((s.newFuture .released).2.watch a.found (.release s.futures.length)).cancel a.found).2).scheduler
      m'.world.scheduler := by
    rw [hmoves.follows]
    exact works_follow
  have hkind (g : FutureId) : m'.world.scheduler.kind g =
      if g = m.world.scheduler.futures.length then .released else m.world.scheduler.kind g := by
    rw [hmoves.kind, hscheduler, Scheduler.kind_settle, Scheduler.kind_watch, Scheduler.kind_newFuture]
  refine ⟨.parked ⟨?_, ?_⟩ ?_ (hworks.alarm halarm (fun o ho => ho rfl) fun hne => hne rfl)
    (hworks.armed harmed), ⟨?_, fun g i hi => ?_, fun u fs hu => ?_⟩, ?_, ?_⟩
  · rw [hmoves.frames]
    exact if_pos rfl
  · rw [hmoves.awaiting]
    exact if_pos rfl
  · rw [hkind, if_pos rfl]
  · rw [hworld]
    exact hattends.expects.scheduler hmoves.grows
  · rw [hkind] at hi
    split at hi
    · cases hi
    · exact hattends.members g i hi
  · exact hmoves.others hu (Frame.unaware_begin · _ _) (fun fs => hattends.others u fs hu) fs
  · rw [hmoves.outcome?, hscheduler, Scheduler.outcome?_settle _ ?_ ?_, if_pos rfl]
    · rw [Scheduler.outcome?_watch, Scheduler.outcome?_newFuture]
      exact hopen
    · rw [Scheduler.length_watch, Scheduler.length_newFuture]
      exact Nat.lt_succ_of_lt hlt
  · rw [hworld]
    rfl

end Hearing

end HotSpec
