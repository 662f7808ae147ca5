import HotSpec.Proofs.Engine.Sound

/-!
# Parents and children

A task that waits for other tasks has started them, and starts them only to wait for them.  So every
task has one parent, which is no part of the machine, and comes after it.

Main definitions:

- `Awaits`: what a task waits for when its turn ends at a future.
- `Scheduler.Children`: whether the tasks among several futures are children of a task.
- `Machine.Kin`: the invariant, for a given choice of parents.

Main results:

- Theorem `awaits_asks`: what is asked of a scheduler, seen by the future that is waited for.
- Theorem `Kin.moves`: every step keeps parents and children, and may give new tasks a parent.
- Theorem `Kin.below`: the tasks that a cancellation reaches are children of each other.
-/

namespace HotSpec

/-! ## Frames that wait -/

/-- The futures that a frame waits for. -/
def Frame.members : Frame → List FutureId
  | .joined members _ => members
  | _ => []

/-- Whether a frame takes the outcome of a wait that a task has asked for. -/
def Frame.isWait : Frame → Bool
  | .joined .. | .collected .. | .heard .. | .unheard .. => true
  | _ => false

theorem Frame.isWait_of_plain {f : Frame} (h : f.isPlain = true) : f.isWait = false := by
  cases f <;> first | rfl | cases h

/-- What a task waits for when its turn ends at a future: a timer, a message, several futures that
are new or signals, or those of several futures that were open and are cancelled. -/
inductive Awaits (w : World) : Head → FutureId → List Frame → World → Prop
  | timer {head f w'} (hkind : w'.scheduler.kind f = .released)
      (hcalm : ∀ hit, w.scheduler.Calm hit → w'.scheduler.Calm hit) : Awaits w head f [] w'
  | hears {head f n found w'} (hkind : w'.scheduler.kind f = .released)
      (hcalm : ∀ hit, w.scheduler.Calm hit → w'.scheduler.Calm hit) :
      Awaits w head f [.heard n found] w'
  | unhears {f n found o w'} (hkind : w'.scheduler.kind f = .released)
      (hcalm : ∀ hit, w.scheduler.Calm hit → w'.scheduler.Calm hit) :
      Awaits w (.frame (.heard n found) o) f [.unheard n o.isStopped] w'
  | joins {head f members results frames w'} {left : Nat}
      (hkind : w'.scheduler.kind f = .firstFault members left)
      (hnew : ∀ i ∈ members, ∀ u, w'.scheduler.kind i = .task u → w.scheduler.tasks.length ≤ u)
      (hresults : results = true → ∀ i ∈ members, ∃ u, w'.scheduler.kind i = .task u)
      (hframes : ∀ f ∈ frames, f.isWait = false)
      (hcalm : ∀ hit, w.scheduler.Calm hit → w'.scheduler.Calm hit) :
      Awaits w head f (.joined members results :: frames) w'
  | collects {members results o f w'} {left : Nat} (hopen : w.open? members ≠ [])
      (hkind : w'.scheduler.kind f = .all (w.open? members) left false)
      (hcalm : ∀ hit, w.scheduler.Calm hit →
        (∀ g ∈ w.open? members, ∀ u, w.scheduler.Below g u → hit u) → w'.scheduler.Calm hit) :
      Awaits w (.frame (.joined members results) o) f [.collected members results o] w'

variable {w w' : World} {t : TaskId}

/-- A task takes the outcome of what it has come to wait for before it does anything else. -/
theorem Awaits.inner {head : Head} {f : FutureId} {frames : List Frame}
    (h : Awaits w head f frames w') {top : Frame} {rest : List Frame} (heq : frames = top :: rest) :
    ∀ f ∈ rest, f.isWait = false := by
  cases h with
  | timer => cases heq
  | hears | unhears | collects =>
      cases heq
      simp
  | joins _ _ _ hrest =>
      cases heq
      exact hrest

/-- Subs start without stopping anybody. -/
theorem World.calm_spawnAll {p : Processor} {subs : List Value} {fs : List FutureId}
    {hit : TaskId → Prop} (h : (Move.spawnAll p subs).run w = (fs, w'))
    (hcalm : w.scheduler.Calm hit) : w'.scheduler.Calm hit := by
  induction subs generalizing w fs with
  | nil =>
      cases h
      exact hcalm
  | cons sub subs ih =>
      rw [World.spawnAll_cons] at h
      cases h
      exact ih (w := w.withScheduler fun s => (s.spawn [.begin (.sub p sub)]).2) rfl
        (hcalm.spawn _)

/-- Subs are new, and each is a task of its own. -/
theorem awaits_together {p : Processor} {subs : List Value} {fs : List FutureId} {w₁ : World}
    {head : Head} (hrun : (Move.spawnAll p subs).run w = (fs, w₁)) (hs : w.scheduler.Threads (some t))
    (hg : w.scheduler.Groups) :
    Awaits w head (w₁.scheduler.firstFault fs).1 [.joined fs true]
      (w₁.withScheduler fun s => (s.firstFault fs).2) := by
  obtain ⟨-, -, -, -, hfs⟩ := World.spawnAll_spec p subs hs hg hrun
  have htask (i : FutureId) (hi : i ∈ fs) : ∃ u, w.scheduler.tasks.length ≤ u ∧
      (w₁.scheduler.firstFault fs).2.kind i = .task u := by
    obtain ⟨-, u, hu, hk⟩ := hfs i hi
    have hlt : i < w₁.scheduler.futures.length := Scheduler.lt_of_kind (by rw [hk]; simp)
    refine ⟨u, hu, ?_⟩
    unfold Scheduler.firstFault
    rw [Scheduler.kind_gather, if_neg (Nat.ne_of_lt hlt)]
    exact hk
  refine @Awaits.joins _ _ _ _ _ _ _ fs.length ?_ ?_ ?_ (by simp) ?_
  · exact (Scheduler.kind_gather _ fs _).trans (if_pos rfl)
  · intro i hi u hk
    obtain ⟨v, hv, hk'⟩ := htask i hi
    cases hk.symm.trans hk'
    exact hv
  · intro _ i hi
    obtain ⟨u, -, hk⟩ := htask i hi
    exact ⟨u, hk⟩
  · intro hit hcalm
    exact (World.calm_spawnAll hrun hcalm).gather (by simp) fs

/-- Those that are cancelled are stopped with all that they wait for. -/
theorem awaits_cancelled {members : List FutureId} {results : Bool} {o : Outcome}
    (hjoin : w.scheduler.Joinable members) (hopen : w.open? members ≠ [])
    (hs : w.scheduler.Threads (some t)) (hg : w.scheduler.Groups) :
    Awaits w (.frame (.joined members results) o)
      ((w.scheduler.cancelAll (w.open? members)).all (w.open? members)).1
      [.collected members results o]
      (w.withScheduler fun s => ((s.cancelAll (w.open? members)).all (w.open? members)).2) := by
  have hmember : ∀ i ∈ w.open? members, (w.scheduler.kind i).isMember = true :=
    fun i hi => (hjoin.member i (List.mem_of_mem_filter hi)).1
  refine @Awaits.collects _ _ _ _ _ _ (w.open? members).length hopen ?_ ?_
  · exact (Scheduler.kind_gather _ (w.open? members) _).trans (if_pos rfl)
  · intro hit hcalm hbelow
    have hsteps : Scheduler.CancelSteps hit w.scheduler
        (w.scheduler.cancelAll (w.open? members)) := by
      refine (Scheduler.cancelSteps_below hs hg hmember).mono ?_
      rintro u ⟨i, hi, hu⟩
      exact hbelow i hi u hu
    exact (hcalm.cancel hs hsteps).gather (by simp) _

theorem awaits_hearing {head : Head} (timeout : Float) (matchers : List Value) :
    Awaits w head w.secondFuture [.heard w.waits.length w.scheduler.futures.length]
      (w.hearing timeout matchers) := by
  have hsecond : w.secondFuture = (w.scheduler.newFuture .signal).2.futures.length := rfl
  refine .hears ?_ ?_
  · change (Scheduler.watch _ _ _).kind _ = _
    rw [Scheduler.kind_watch]
    change ((w.scheduler.newFuture .signal).2.newFuture .released).2.kind _ = _
    rw [Scheduler.kind_newFuture, if_pos hsecond]
  · intro hit hcalm
    have hnew := (hcalm.newFuture (k := .signal) (by simp)).newFuture (k := .released) (by simp)
    have hafter : (((w.scheduler.newFuture .signal).2.newFuture .released).2.after timeout
        (.release w.secondFuture)).Calm hit := hnew.of_eq rfl rfl
    exact hafter.watch _ _

/-- Where a wait for a message is given up, its signal is released at once. -/
theorem awaits_heard {n : Nat} {found : FutureId} {o : Outcome}
    (hkind : w.scheduler.kind found = .signal) (hlt : found < w.scheduler.futures.length)
    (hopen : w.scheduler.isSettled found = false) (hs : w.scheduler.Threads (some t)) :
    Awaits w (.frame (.heard n found) o) w.scheduler.futures.length [.unheard n o.isStopped]
      (w.withScheduler fun s => ((((s.newFuture .released).2.watch found
        (.release s.futures.length)).cancel found).2)) := by
  have hwatched (g : FutureId) : ((w.scheduler.newFuture .released).2.watch found
      (.release w.scheduler.futures.length)).kind g =
        if g = w.scheduler.futures.length then .released else w.scheduler.kind g := by
    rw [Scheduler.kind_watch, Scheduler.kind_newFuture]
  have hnone : w.scheduler.outcome? found = none := by
    rw [Scheduler.isSettled_eq] at hopen
    simpa using hopen
  have hcancel := Scheduler.cancel_heard hkind hlt hnone
  refine .unhears ?_ ?_
  · change (Scheduler.cancel _ found).2.kind _ = _
    rw [hcancel, Scheduler.kind_settle, hwatched, if_pos rfl]
  · intro hit hcalm
    change (Scheduler.cancel _ found).2.Calm hit
    rw [hcancel]
    have hthreads := (hs.newFuture (k := .released) (by simp)).watch found
      (w := .release w.scheduler.futures.length) rfl
    refine ((hcalm.newFuture (by simp)).watch _ _).settle_signal hthreads ?_ _
    rw [hwatched, if_neg (Nat.ne_of_lt hlt)]
    exact hkind

/-- A race is waited for with the load of the page, which is new, and with signals. -/
theorem awaits_racing {head : Head} (first : Option Command) (hsignals : w.Signals) :
    Awaits w head (w.race first) [.joined w.racers false, .raced] (w.racing first) := by
  have hgrows : w.scheduler.Grows [[.begin (.load first)]]
      (w.scheduler.spawn [.begin (.load first)]).2 := .spawn _ _
  have hjoin := World.joinable_racers hsignals [.begin (.load first)]
  have hload : (w.scheduler.spawn [.begin (.load first)]).2.kind w.scheduler.futures.length =
      .task w.scheduler.tasks.length :=
    (Scheduler.kind_newTask [.begin (.load first)] _).trans (if_pos rfl)
  refine @Awaits.joins _ _ _ _ _ _ _ w.racers.length ?_ ?_ (by simp) (by simp [Frame.isWait]) ?_
  · exact (Scheduler.kind_gather _ w.racers _).trans (if_pos rfl)
  · intro i hi u hk
    have hlt := (hjoin.member i hi).2
    have hk' : (w.scheduler.spawn [.begin (.load first)]).2.kind i = .task u := by
      rw [← hk]
      exact ((Scheduler.kind_gather _ w.racers i).trans (if_neg (Nat.ne_of_lt hlt))).symm
    unfold World.racers at hi
    rw [List.cons_append] at hi
    rcases List.mem_cons.mp hi with rfl | hi
    · cases hload.symm.trans hk'
      exact Nat.le_refl _
    · have hsignal : w.scheduler.kind i = .signal ∧ i < w.scheduler.futures.length := by
        rcases List.mem_append.mp hi with hi | hi
        · exact hsignals.verdict i (Option.mem_toList.mp hi)
        · exact hsignals.failSignal i (Option.mem_toList.mp hi)
      rw [hgrows.signal hsignal.2 hsignal.1] at hk'
      cases hk'
  · intro hit hcalm
    exact (hcalm.spawn _).gather (by simp) w.racers

/-- What is asked of a scheduler, seen by the future that is waited for. -/
theorem awaits_asks {head : Head} {f : FutureId} {frames : List Frame}
    (h : Asks head w (.await f frames) w') (hs : w.scheduler.Threads (some t))
    (hg : w.scheduler.Groups) (hsignals : w.Signals) (hframe : head.first.Sound w.scheduler) :
    Awaits w head f frames w' := by
  cases h with
  | sleep =>
      refine .timer ?_ fun hit hcalm => (hcalm.newFuture (by simp)).of_eq rfl rfl
      change (w.scheduler.newFuture .released).2.kind _ = _
      rw [Scheduler.kind_newFuture, if_pos rfl]
  | together hsubs hrun => exact awaits_together hrun hs hg
  | cancelled hopen => exact awaits_cancelled hframe hopen hs hg
  | hear => exact awaits_hearing _ _
  | heard hopen => exact awaits_heard hframe.1 hframe.2 hopen hs
  | opened => exact awaits_racing _ hsignals

/-! ## Children -/

namespace Scheduler

variable {Stack Job : Type} {s s' : Scheduler Stack Job} {parent parent' : TaskId → TaskId}

/-- Whether the tasks among several futures are children of a task, and come after it. -/
def Children (s : Scheduler Stack Job) (parent : TaskId → TaskId) (t : TaskId)
    (members : List FutureId) : Prop :=
  ∀ i ∈ members, ∀ u, s.kind i = .task u → parent u = t ∧ t < u

theorem children_nil (t : TaskId) : s.Children parent t [] := by
  intro i hi
  cases hi

/-- A future that belongs to the end of a task belongs to one that there is. -/
theorem Threads.lt_of_ending {busy : Option TaskId} (hs : s.Threads busy) {f : FutureId} {u : TaskId}
    (hk : s.kind f = .task u) : u < s.tasks.length := by
  have hending := (hs.ending u f).mpr hk
  unfold ending? at hending
  obtain ⟨task, htask, -⟩ := Option.map_eq_some_iff.mp hending
  exact lt_of_task htask

/-- Children stay children, whoever the parents of new tasks are. -/
theorem Children.mono {busy : Option TaskId} {t : TaskId} {members : List FutureId} {more : Nat}
    (h : s.Children parent t members) (hs : s.Threads busy) (hg : s.Extends more s')
    (hlt : ∀ i ∈ members, i < s.futures.length)
    (hparent : ∀ u, u < s.tasks.length → parent' u = parent u) : s'.Children parent' t members := by
  intro i hi u hk
  have hk' : s.kind i = .task u := hg.of_task (hlt i hi) hk
  obtain ⟨hp, hu⟩ := h i hi u hk'
  rw [hparent u (hs.lt_of_ending hk')]
  exact ⟨hp, hu⟩

end Scheduler

/-- Whether the tasks of a machine have started those that they wait for. -/
structure Machine.Kin (parent : TaskId → TaskId) (m : Machine) : Prop where
  frames : ∀ t fs, m.frames t = some fs → ∀ f ∈ fs,
    m.world.scheduler.Children parent t f.members
  awaits : ∀ t g, m.world.scheduler.awaiting t = some g →
    m.world.scheduler.Children parent t (m.world.scheduler.kind g).members
  /-- A task takes the outcome of a wait before it does anything else. -/
  inner : ∀ t f fs, m.frames t = some (f :: fs) → ∀ f' ∈ fs, f'.isWait = false
  results : ∀ t fs, m.frames t = some fs → ∀ members, .joined members true ∈ fs →
    ∀ i ∈ members, ∃ u, m.world.scheduler.kind i = .task u
  /-- A task that will be told of several futures waits for them. -/
  joined : ∀ t members results fs, m.frames t = some (.joined members results :: fs) →
    m.current.map Prod.fst ≠ some t → ∃ g, m.world.scheduler.awaiting t = some g ∧
      (m.world.scheduler.kind g).form = .firstFault members 0

namespace Machine

variable {parent : TaskId → TaskId} {m m' : Machine} {head : Head} {stack : List Frame}
  {turn : Turn} {new : List (List Frame)}

/-- The futures that a frame waits for are there. -/
theorem Sound.lt_of_member (hm : m.Sound) {fs : List Frame} (hfs : m.frames t = some fs) {f : Frame}
    (hf : f ∈ fs) {i : FutureId} (hi : i ∈ f.members) : i < m.world.scheduler.futures.length := by
  have hsound := hm.frames t fs hfs f hf
  cases f with
  | joined members results => exact (hsound.member i hi).2
  | _ => cases hi

/-- The tasks that a cancellation reaches come after the one that cancels, and each is a child of it
or of another one that is reached. -/
theorem Kin.below (h : m.Kin parent) {fs : List Frame} (hfs : m.frames t = some fs) {f : Frame}
    (hf : f ∈ fs) {i : FutureId} (hi : i ∈ f.members) {u : TaskId}
    (hbelow : m.world.scheduler.Below i u) :
    t < u ∧ (parent u = t ∨ m.world.scheduler.Below i (parent u)) := by
  induction hbelow with
  | here hk =>
      obtain ⟨hp, hlt⟩ := h.frames t fs hfs f hf i hi _ hk
      exact ⟨hlt, .inl hp⟩
  | @further v g j u hv hwait hj hk ih =>
      obtain ⟨hp, hlt⟩ := h.awaits v g hwait j hj u hk
      refine ⟨Nat.lt_trans ih.1 hlt, .inr ?_⟩
      rw [hp]
      exact hv

/-- What has to be checked of what leaves all frames. -/
theorem Kin.leaves (h : m.Kin parent) (hm : m.Sound) (hleaves : m.Leaves m') : m'.Kin parent := by
  have hwait {u : TaskId} {g : FutureId} (hg : m'.world.scheduler.awaiting u = some g) :
      m.world.scheduler.awaiting u = some g := by
    rw [hleaves.awaiting] at hg
    split at hg
    · cases hg
    · exact hg
  refine ⟨?_, ?_, ?_, ?_, ?_⟩
  · intro t fs hfs f hf
    rw [hleaves.frames] at hfs
    exact (h.frames t fs hfs f hf).mono hm.threads hleaves.grows
      (fun i hi => hm.lt_of_member hfs hf hi) fun _ _ => rfl
  · intro t g hg
    have hg' := hwait hg
    rw [hleaves.grows.members (hm.threads.lt_of_awaiting hg')]
    exact (h.awaits t g hg').mono hm.threads hleaves.grows
      (fun i hi => (hm.groups.member g i hi).2) fun _ _ => rfl
  · intro t f fs hfs
    rw [hleaves.frames] at hfs
    exact h.inner t f fs hfs
  · intro t fs hfs members hmem i hi
    rw [hleaves.frames] at hfs
    obtain ⟨u, hk⟩ := h.results t fs hfs members hmem i hi
    exact ⟨u, hleaves.grows.task hk⟩
  · intro t members results fs hfs hnot
    rw [hleaves.frames] at hfs
    have hbefore : m.current.map Prod.fst ≠ some t := by
      intro hcurrent
      obtain ⟨⟨u, c⟩, hc, hu⟩ := Option.map_eq_some_iff.mp hcurrent
      cases hu
      rcases hleaves.before with hnone | ⟨t', o, hsome⟩
      · rw [hnone] at hc
        cases hc
      · rw [hsome] at hc
        cases hc
        rw [frames_current hsome] at hfs
        cases hfs
    obtain ⟨g, hg, hform⟩ := h.joined t members results fs hfs hbefore
    refine ⟨g, ?_, ?_⟩
    · rw [hleaves.awaiting, if_neg hnot]
      exact hg
    · rw [hleaves.grows.form g (hm.threads.lt_of_awaiting hg)]
      exact hform

/-- A rule leaves nothing to wait for, or a future that is waited for. -/
theorem Moves.waits (hm : m.Sound) (h : m.Moves t head stack turn new w' m') :
    ((∀ f frames, turn ≠ .await f frames) ∧ (∀ f ∈ turn.frames, f.isWait = false) ∧
      ∀ hit, m.world.scheduler.Calm hit → w'.scheduler.Calm hit) ∨
      ∃ f frames, turn = .await f frames ∧ Awaits m.world head f frames w' := by
  have hthreads := hm.threads_current h.current
  rcases h.rule.quiet_or_asks with ⟨hquiet, hturn, hplain⟩ | hasks
  · refine .inl ⟨hturn, fun f hf => Frame.isWait_of_plain (hplain f hf), ?_⟩
    intro hit hcalm
    exact (hquiet.scheduler hm.signals).calm hthreads hcalm
  · have hframe : head.first.Sound m.world.scheduler :=
      hm.frames t _ h.before _ (List.mem_cons_self ..)
    cases turn with
    | await f frames =>
        exact .inr ⟨f, frames, rfl,
          awaits_asks hasks hthreads hm.groups hm.signals hframe⟩
    | give o => cases hasks
    | pause frames => cases hasks
    | call work frames =>
        cases hasks with
        | start =>
            refine .inl ⟨by simp, by simp [Turn.frames, Frame.isWait], ?_⟩
            intro hit hcalm
            exact (hcalm.newFuture (by simp)).newFuture (by simp)

theorem Moves.kind (h : m.Moves t head stack turn new w' m') (f : FutureId) :
    m'.world.scheduler.kind f = w'.scheduler.kind f := by
  rw [h.follows]
  exact kind_follow f

theorem Moves.outcome? (h : m.Moves t head stack turn new w' m') (f : FutureId) :
    m'.world.scheduler.outcome? f = w'.scheduler.outcome? f := by
  rw [h.follows]
  exact outcome?_follow f

/-- The task that makes a step waits for the future that its turn ends at, and the others wait for
what they have waited for. -/
theorem Moves.awaiting (h : m.Moves t head stack turn new w' m') (u : TaskId) :
    m'.world.scheduler.awaiting u =
      if u = t then turn.future? else m.world.scheduler.awaiting u := by
  obtain ⟨hnone, hlt, -⟩ := h.served.threads.busy t rfl
  have hopen (f : FutureId) (frames : List Frame) (hturn : turn = .await f frames) :=
    (h.served.await f frames hturn).2.2
  rw [h.follows, awaiting_follow hlt hopen hnone, h.served.grows.awaiting]

/-- The tasks that a task comes to wait for are new. -/
theorem Moves.le_of_joined (hm : m.Sound) (h : m.Moves t head stack turn new w' m')
    {members : List FutureId} {results : Bool} (hmem : .joined members results ∈ turn.frames)
    {i : FutureId} (hi : i ∈ members) {u : TaskId} (hk : m'.world.scheduler.kind i = .task u) :
    m.world.scheduler.tasks.length ≤ u := by
  rw [h.kind] at hk
  rcases h.waits hm with ⟨-, hnot, -⟩ | ⟨f, frames, rfl, hawaits⟩
  · cases hnot _ hmem
  · change _ ∈ frames at hmem
    cases hawaits with
    | timer => cases hmem
    | hears | unhears | collects => cases List.mem_singleton.mp hmem
    | joins hkind hnew hresults hframes =>
        rcases List.mem_cons.mp hmem with heq | hmem
        · cases heq
          exact hnew i hi u hk
        · cases hframes _ hmem

/-- The parents of tasks, once new ones were started. -/
def adopt (m : Machine) (parent : TaskId → TaskId) (t u : TaskId) : TaskId :=
  if u < m.world.scheduler.tasks.length then parent u else t

/-- A wait stays on top of the frames of a task. -/
theorem Kin.inner_moves (h : m.Kin parent) (hm : m.Sound)
    (hmoves : m.Moves t head stack turn new w' m') {f : Frame} {fs : List Frame}
    (heq : turn.frames ++ stack = f :: fs) : ∀ f' ∈ fs, f'.isWait = false := by
  have hinner : ∀ f' ∈ stack, f'.isWait = false := h.inner t _ _ hmoves.before
  intro f' hf'
  cases hturn : turn.frames with
  | nil =>
      rw [hturn] at heq
      refine hinner f' ?_
      rw [show stack = f :: fs from heq]
      exact List.mem_cons_of_mem _ hf'
  | cons top rest =>
      rw [hturn] at heq
      cases heq
      rcases List.mem_append.mp hf' with hf' | hf'
      · rcases hmoves.waits hm with ⟨-, hnot, -⟩ | ⟨g, frames, rfl, hawaits⟩
        · refine hnot f' ?_
          rw [hturn]
          exact List.mem_cons_of_mem _ hf'
        · exact hawaits.inner hturn f' hf'
      · exact hinner f' hf'

/-- A task that is at a wait after a step has come to it by that step. -/
theorem Kin.mem_of_wait (h : m.Kin parent) (hmoves : m.Moves t head stack turn new w' m') {f : Frame}
    {fs : List Frame} (heq : turn.frames ++ stack = f :: fs) (hwait : f.isWait = true) :
    f ∈ turn.frames := by
  cases hturn : turn.frames with
  | nil =>
      rw [hturn] at heq
      have hplain := h.inner t _ _ hmoves.before f (by
        rw [show stack = f :: fs from heq]
        exact List.mem_cons_self ..)
      rw [hplain] at hwait
      cases hwait
  | cons top rest =>
      rw [hturn] at heq
      cases heq
      exact List.mem_cons_self ..

theorem Kin.awaits_of_wait (h : m.Kin parent) (hm : m.Sound)
    (hmoves : m.Moves t head stack turn new w' m') {f : Frame} {fs : List Frame}
    (heq : turn.frames ++ stack = f :: fs) (hwait : f.isWait = true) :
    ∃ g frames, turn = .await g frames ∧ f ∈ frames ∧ Awaits m.world head g frames w' := by
  have hmem := h.mem_of_wait hmoves heq hwait
  rcases hmoves.waits hm with ⟨-, hnot, -⟩ | ⟨g, frames, rfl, hawaits⟩
  · rw [hnot f hmem] at hwait
    cases hwait
  · exact ⟨g, frames, rfl, hmem, hawaits⟩

theorem adopt_old {u : TaskId} (hu : u < m.world.scheduler.tasks.length) :
    m.adopt parent t u = parent u := if_pos hu

theorem Moves.adopt_new (hm : m.Sound) (hmoves : m.Moves t head stack turn new w' m') {u : TaskId}
    (hu : m.world.scheduler.tasks.length ≤ u) : m.adopt parent t u = t ∧ t < u :=
  ⟨if_neg (Nat.not_lt.mpr hu), Nat.lt_of_lt_of_le (hmoves.lt hm) hu⟩

theorem Kin.children_frames (h : m.Kin parent) (hm : m.Sound)
    (hmoves : m.Moves t head stack turn new w' m') {u : TaskId} {fs : List Frame} {f : Frame}
    (hfs : m.frames u = some fs) (hf : f ∈ fs) :
    m'.world.scheduler.Children (m.adopt parent t) u f.members :=
  (h.frames u fs hfs f hf).mono hm.threads hmoves.grows (fun _ hi => hm.lt_of_member hfs hf hi)
    fun _ => adopt_old

/-- A task waits for those that it has just started, or for those that a frame of it has waited for. -/
theorem Kin.children_await {f : FutureId} {frames : List Frame} (h : m.Kin parent) (hm : m.Sound)
    (hmoves : m.Moves t head stack (.await f frames) new w' m')
    (hawaits : Awaits m.world head f frames w') :
    m'.world.scheduler.Children (m.adopt parent t) t (m'.world.scheduler.kind f).members := by
  rw [hmoves.kind]
  cases hawaits with
  | timer hkind | hears hkind | unhears hkind =>
      rw [hkind]
      exact Scheduler.children_nil t
  | joins hkind hnew =>
      rw [hkind]
      intro i hi v hk
      rw [hmoves.kind] at hk
      exact hmoves.adopt_new hm (hnew i hi v hk)
  | collects hopen hkind =>
      rw [hkind]
      intro i hi
      exact h.children_frames hm hmoves hmoves.before (List.mem_cons_self ..) i
        (List.mem_of_mem_filter hi)

/-- A task that makes a step is the parent of those that it starts. -/
theorem Kin.moves (h : m.Kin parent) (hm : m.Sound) (hmoves : m.Moves t head stack turn new w' m') :
    m'.Kin (m.adopt parent t) := by
  constructor
  case frames =>
    intro u fs hfs f hf
    rcases hmoves.mem_frames hfs hf with ⟨rfl, hf⟩ | ⟨fs, hfs, hf⟩ | ⟨work, rfl, -⟩
    · cases f with
      | joined members results =>
          intro i hi v hk
          exact hmoves.adopt_new hm (hmoves.le_of_joined hm hf hi hk)
      | _ => exact Scheduler.children_nil u
    · exact h.children_frames hm hmoves hfs hf
    · exact Scheduler.children_nil u
  case awaits =>
    intro u g hg
    rw [hmoves.awaiting] at hg
    split at hg
    · next hu =>
        subst hu
        rcases hmoves.waits hm with ⟨hturn, -⟩ | ⟨f, frames, rfl, hawaits⟩
        · cases turn with
          | await f frames => exact absurd rfl (hturn f frames)
          | _ => cases hg
        · cases hg
          exact h.children_await hm hmoves hawaits
    · rw [hmoves.grows.members (hm.threads.lt_of_awaiting hg)]
      exact (h.awaits u g hg).mono hm.threads hmoves.grows
        (fun i hi => (hm.groups.member g i hi).2) fun _ => adopt_old
  case inner =>
    intro u f fs hfs
    rcases hmoves.frames_cases hfs with ⟨rfl, heq⟩ | ⟨-, hfs⟩ | ⟨-, hnew⟩
    · exact h.inner_moves hm hmoves heq
    · exact h.inner u f fs hfs
    · obtain ⟨work, heq⟩ := hmoves.spawns.begins hnew
      cases heq
      simp
  case results =>
    intro u fs hfs members hmem i hi
    rcases hmoves.mem_frames hfs hmem with ⟨rfl, hmem⟩ | ⟨fs, hfs, hmem⟩ | ⟨work, heq, -⟩
    · rcases hmoves.waits hm with ⟨-, hnot, -⟩ | ⟨g, frames, rfl, hawaits⟩
      · cases hnot _ hmem
      · change _ ∈ frames at hmem
        cases hawaits with
        | timer => cases hmem
        | hears | unhears | collects => cases List.mem_singleton.mp hmem
        | joins hkind hnew hresults hframes =>
            rcases List.mem_cons.mp hmem with heq | hmem
            · cases heq
              rw [hmoves.kind]
              exact hresults rfl i hi
            · cases hframes _ hmem
    · obtain ⟨v, hk⟩ := h.results u fs hfs members hmem i hi
      exact ⟨v, hmoves.grows.task hk⟩
    · cases heq
  case joined =>
    intro u members results fs hfs hnot
    rcases hmoves.frames_cases hfs with ⟨rfl, heq⟩ | ⟨hu, hfs⟩ | ⟨-, hnew⟩
    · obtain ⟨g, frames, rfl, hmem, hawaits⟩ := h.awaits_of_wait hm hmoves heq rfl
      refine ⟨g, ?_, ?_⟩
      · rw [hmoves.awaiting, if_pos rfl]
        rfl
      · rw [hmoves.kind]
        cases hawaits with
        | timer => cases hmem
        | hears | unhears | collects => cases List.mem_singleton.mp hmem
        | joins hkind =>
            cases heq
            rw [hkind]
            rfl
    · have hbefore : m.current.map Prod.fst ≠ some u := by
        rw [hmoves.current]
        exact fun heq => hu (Option.some.inj heq).symm
      obtain ⟨g, hg, hform⟩ := h.joined u members results fs hfs hbefore
      refine ⟨g, ?_, ?_⟩
      · rw [hmoves.awaiting, if_neg hu]
        exact hg
      · rw [hmoves.grows.form g (hm.threads.lt_of_awaiting hg)]
        exact hform
    · obtain ⟨work, heq⟩ := hmoves.spawns.begins hnew
      cases heq

end Machine

end HotSpec
