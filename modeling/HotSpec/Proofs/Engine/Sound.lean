import HotSpec.Proofs.Engine.Frames
import HotSpec.Proofs.Engine.Reach

/-!
# Sound machines

In every machine that can be reached each task is in one place, futures know of their members what
they have been told, and frames wait for futures that there are.

Main definitions:

- `Machine.Sound`: the invariant.
- `Spawns`: the frames that new tasks begin with.

Main results:

- Theorem `served_rule`: what a rule leaves to a task that still has its turn.
- Theorem `Sound.step`: every step keeps a machine sound.
- Theorem `Reaches.registry`: commands are registered for all of a test.
-/

namespace HotSpec

/-! ## What a rule leaves -/

/-- The frames that new tasks begin with. -/
inductive Spawns : Head → List (List Frame) → Prop
  | none {head} (h : ∀ first v, head ≠ .frame (.reset first) (.value v)) : Spawns head []
  | subs {p subs} : Spawns (.work (.together p subs)) (subs.map fun sub => [.begin (.sub p sub)])
  | load {first v} : Spawns (.frame (.reset first) (.value v)) [[.begin (.load first)]]

/-- A task begins with a single piece of work. -/
theorem Spawns.begins {head : Head} {new : List (List Frame)} (h : Spawns head new)
    {fs : List Frame} (hfs : fs ∈ new) : ∃ work, fs = [.begin work] := by
  cases h with
  | none => cases hfs
  | subs =>
      obtain ⟨sub, -, rfl⟩ := List.mem_map.mp hfs
      exact ⟨_, rfl⟩
  | load => exact ⟨_, List.mem_singleton.mp hfs⟩

theorem Spawns.of_reset {first : Option Command} {v : Value} {new : List (List Frame)}
    (h : Spawns (.frame (.reset first) (.value v)) new) : new = [[.begin (.load first)]] := by
  cases h with
  | none hnot => exact absurd rfl (hnot first v)
  | load => rfl

/-- Whether several futures may be waited for: there are such futures, and each is named once. -/
structure Scheduler.Joinable {Stack Job : Type} (s : Scheduler Stack Job)
    (members : List FutureId) : Prop where
  nodup : members.Nodup
  member : ∀ m ∈ members, (s.kind m).isMember = true ∧ m < s.futures.length

/-- Whether a frame waits for futures that there are. -/
def Frame.Sound (s : Scheduler (List Frame) Job) : Frame → Prop
  | .joined members _ => s.Joinable members
  | .heard _ found => s.kind found = .signal ∧ found < s.futures.length
  | _ => True

/-- The world after a rule, with the task that still has its turn. -/
structure World.Served (w : World) (t : TaskId) (turn : Turn) (new : List (List Frame))
    (w' : World) : Prop where
  threads : w'.scheduler.Threads (some t)
  groups : w'.scheduler.Groups
  grows : w.scheduler.Grows new w'.scheduler
  signals : w'.Signals
  frames : ∀ f ∈ turn.frames, f.Sound w'.scheduler
  await : ∀ f frames, turn = .await f frames → (w'.scheduler.kind f).isMember = false ∧
    w.scheduler.futures.length ≤ f ∧ w'.scheduler.outcome? f = none

variable {s s' : Scheduler (List Frame) Job} {w w' : World} {t : TaskId} {new : List (List Frame)}

theorem Scheduler.Joinable.mono {members : List FutureId} {more : Nat} (h : s.Joinable members)
    (hg : s.Extends more s') : s'.Joinable members where
  nodup := h.nodup
  member m hm := by
    obtain ⟨hmember, hlt⟩ := h.member m hm
    exact ⟨(hg.isMember hlt).trans hmember, Nat.lt_of_lt_of_le hlt hg.length⟩

/-- Whoever comes to have futures that may be waited for may wait for all of them. -/
theorem Scheduler.Joinable.asked {members : List FutureId} {k : FutureKind} (h : s'.Joinable members)
    (hs : s'.Threads (some t)) (hg : s'.Groups) (hgrows : s.Grows new s')
    (hmembers : k.members = members) (hleft : k.left? = some members.length) :
    s.Asked t (s'.gather k members).1 new (s'.gather k members).2 := by
  have hasked := Scheduler.Asked.of_grows hgrows
    (Scheduler.asked_gather hs hg hmembers hleft h.nodup h.member)
  rwa [List.append_nil] at hasked

theorem Scheduler.Joinable.gather {members : List FutureId} (h : s.Joinable members)
    (k : FutureKind) : (s.gather k members).2.Joinable members :=
  h.mono (Scheduler.Grows.gather s k members).toExtends

theorem Frame.Sound.mono {f : Frame} {more : Nat} (h : f.Sound s) (hg : s.Extends more s') :
    f.Sound s' := by
  cases f with
  | joined members results => exact Scheduler.Joinable.mono h hg
  | heard n found => exact ⟨hg.signal h.2 h.1, Nat.lt_of_lt_of_le h.2 hg.length⟩
  | _ => trivial

theorem Frame.sound_of_plain {f : Frame} (h : f.isPlain = true) : f.Sound s := by
  cases f with
  | joined | heard => cases h
  | _ => trivial

namespace World

/-- What is asked for leaves a task with a future to wait for. -/
theorem Served.of_asked {f : FutureId} {frames : List Frame}
    (h : w.scheduler.Asked t f new w'.scheduler) (hsignals : w'.Signals)
    (hframes : ∀ fr ∈ frames, fr.Sound w'.scheduler) :
    w.Served t (.await f frames) new w' where
  threads := h.threads
  groups := h.groups
  grows := h.grows
  signals := hsignals
  frames := hframes
  await := by
    rintro _ _ ⟨⟩
    exact ⟨h.member, h.fresh, h.opened⟩

/-- One sub starts after the other. -/
theorem spawnAll_cons (p : Processor) (sub : Value) (subs : List Value) (w : World) :
    (Move.spawnAll p (sub :: subs)).run w =
      (w.scheduler.futures.length ::
        ((Move.spawnAll p subs).run (w.withScheduler fun s => (s.spawn [.begin (.sub p sub)]).2)).1,
        ((Move.spawnAll p subs).run (w.withScheduler fun s => (s.spawn [.begin (.sub p sub)]).2)).2) := rfl

/-- Where subs start, only the scheduler changes. -/
theorem spawnAll_world {p : Processor} {subs : List Value} {fs : List FutureId}
    (h : (Move.spawnAll p subs).run w = (fs, w')) : w' = { w with scheduler := w'.scheduler } := by
  induction subs generalizing w fs with
  | nil =>
      cases h
      rfl
  | cons sub subs ih =>
      rw [spawnAll_cons] at h
      cases h
      exact ih (w := w.withScheduler fun s => (s.spawn [.begin (.sub p sub)]).2) rfl

/-- Subs start as tasks of their own, whose ends may be waited for. -/
theorem spawnAll_spec (p : Processor) (subs : List Value) (hs : w.scheduler.Threads (some t))
    (hg : w.scheduler.Groups) {fs : List FutureId}
    (h : (Move.spawnAll p subs).run w = (fs, w')) :
    w'.scheduler.Threads (some t) ∧ w'.scheduler.Groups ∧
      w.scheduler.Grows (subs.map fun sub => [.begin (.sub p sub)]) w'.scheduler ∧ fs.Nodup ∧
      ∀ f ∈ fs, w.scheduler.futures.length ≤ f ∧
        ∃ u, w.scheduler.tasks.length ≤ u ∧ w'.scheduler.kind f = .task u := by
  induction subs generalizing w fs with
  | nil =>
      cases h
      exact ⟨hs, hg, .refl _, List.nodup_nil, by simp⟩
  | cons sub subs ih =>
      rw [spawnAll_cons] at h
      generalize hw₁ : (w.withScheduler fun s => (s.spawn [.begin (.sub p sub)]).2) = w₁ at h
      rcases hrest : (Move.spawnAll p subs).run w₁ with ⟨fs', w₂⟩
      rw [hrest] at h
      cases h
      have hfirst : w.scheduler.Grows [[.begin (.sub p sub)]] w₁.scheduler := by
        rw [← hw₁]
        exact .spawn _ _
      obtain ⟨ht, hgr, hgrows, hnodup, hfs⟩ := ih (by rw [← hw₁]; exact hs.spawn _)
        (by rw [← hw₁]; exact hg.spawn _) hrest
      have hlength : w₁.scheduler.futures.length = w.scheduler.futures.length + 1 := by
        rw [← hw₁]
        exact Scheduler.length_newFuture _
      have htask : w₁.scheduler.kind w.scheduler.futures.length =
          .task w.scheduler.tasks.length := by
        rw [← hw₁]
        exact (Scheduler.kind_newTask [.begin (.sub p sub)] _).trans (if_pos rfl)
      refine ⟨ht, hgr, hfirst.trans hgrows, List.nodup_cons.mpr ⟨?_, hnodup⟩, ?_⟩
      · intro hmem
        have hle := (hfs _ hmem).1
        rw [hlength] at hle
        exact absurd hle (Nat.not_succ_le_self _)
      · intro f hf
        rcases List.mem_cons.mp hf with rfl | hf
        · exact ⟨Nat.le_refl _, _, Nat.le_refl _, hgrows.task htask⟩
        · obtain ⟨hle, u, hu, hk⟩ := hfs f hf
          refine ⟨Nat.le_trans hfirst.length hle, u, ?_, hk⟩
          rw [hfirst.tasks] at hu
          exact Nat.le_of_succ_le hu

theorem secondFuture_eq (w : World) : w.secondFuture = w.scheduler.futures.length + 1 :=
  Scheduler.length_newFuture _

/-- The futures that a race waits for may be waited for. -/
theorem joinable_racers (hsignals : w.Signals) (stack : List Frame) :
    (w.scheduler.spawn stack).2.Joinable w.racers := by
  have hgrows := Scheduler.Grows.spawn w.scheduler stack
  have hlength : (w.scheduler.spawn stack).2.futures.length = w.scheduler.futures.length + 1 :=
    Scheduler.length_newFuture _
  have hload : (w.scheduler.spawn stack).2.kind w.scheduler.futures.length =
      .task w.scheduler.tasks.length := (Scheduler.kind_newTask stack _).trans (if_pos rfl)
  have hverdict (f : FutureId) (hf : f ∈ w.verdict.toList) :
      w.scheduler.kind f = .signal ∧ f < w.scheduler.futures.length :=
    hsignals.verdict f (Option.mem_toList.mp hf)
  have hfail (f : FutureId) (hf : f ∈ w.failSignal.toList) :
      w.scheduler.kind f = .signal ∧ f < w.scheduler.futures.length :=
    hsignals.failSignal f (Option.mem_toList.mp hf)
  unfold racers
  rw [List.cons_append]
  refine ⟨List.nodup_cons.mpr ⟨?_, List.nodup_append.mpr ⟨?_, ?_, ?_⟩⟩, ?_⟩
  · intro hmem
    rcases List.mem_append.mp hmem with hmem | hmem
    · exact Nat.lt_irrefl _ (hverdict _ hmem).2
    · exact Nat.lt_irrefl _ (hfail _ hmem).2
  · cases w.verdict <;> simp
  · cases w.failSignal <;> simp
  · rintro f hf _ hf' rfl
    exact hsignals.distinct f (Option.mem_toList.mp hf) (Option.mem_toList.mp hf')
  · intro f hf
    rcases List.mem_cons.mp hf with rfl | hf
    · rw [hload, hlength]
      exact ⟨rfl, Nat.lt_succ_self _⟩
    · have hold : w.scheduler.kind f = .signal ∧ f < w.scheduler.futures.length := by
        rcases List.mem_append.mp hf with hf | hf
        · exact hverdict f hf
        · exact hfail f hf
      rw [hgrows.signal hold.2 hold.1]
      exact ⟨rfl, Nat.lt_of_lt_of_le hold.2 hgrows.length⟩

/-- The run phase starts with two new signals. -/
theorem served_starting {turn : Turn} (hs : w.scheduler.Threads (some t)) (hg : w.scheduler.Groups)
    (hsignals : w.Signals) (hframes : ∀ f ∈ turn.frames, f.Sound w.starting.scheduler)
    (hturn : ∀ f frames, turn ≠ .await f frames) : w.Served t turn [] w.starting := by
  have hgrows : w.scheduler.Grows [] w.starting.scheduler :=
    (Scheduler.Grows.newFuture _ _).trans (.newFuture _ _)
  have hsecond : w.starting.scheduler.futures.length = w.scheduler.futures.length + 1 + 1 := by
    rw [← secondFuture_eq]
    exact Scheduler.length_newFuture _
  have hkind (f : FutureId) (hf : w.scheduler.futures.length ≤ f) :
      w.starting.scheduler.kind f = .signal := by
    change ((w.scheduler.newFuture .signal).2.newFuture .signal).2.kind f = _
    rw [Scheduler.kind_newFuture, Scheduler.kind_newFuture, Scheduler.kind_fresh hf]
    simp
  refine ⟨?threads, ?groups, hgrows, ⟨?verdict, ?failSignal, ?waits, ?distinct⟩, hframes,
    fun f frames h => absurd h (hturn f frames)⟩
  case threads => exact (hs.newFuture (by simp)).newFuture (by simp)
  case groups => exact (hg.newFuture rfl).newFuture rfl
  case verdict =>
    rintro f ⟨⟩
    rw [hsecond]
    exact ⟨hkind _ (Nat.le_refl _), Nat.lt_succ_of_lt (Nat.lt_succ_self _)⟩
  case failSignal =>
    rintro f ⟨⟩
    rw [hsecond, secondFuture_eq]
    exact ⟨hkind _ (Nat.le_succ _), Nat.lt_succ_self _⟩
  case waits =>
    intro wait hwait
    obtain ⟨hk, hlt⟩ := hsignals.waits wait hwait
    exact ⟨hgrows.signal hlt hk, Nat.lt_of_lt_of_le hlt hgrows.length⟩
  case distinct =>
    rintro f ⟨⟩ hsame
    have heq := Option.some.inj hsame
    rw [secondFuture_eq] at heq
    exact absurd heq (Nat.succ_ne_self _)

/-- Subs that have started may be waited for. -/
theorem served_together {p : Processor} {subs : List Value} {fs : List FutureId} {w₁ : World}
    (hrun : (Move.spawnAll p subs).run w = (fs, w₁)) (hs : w.scheduler.Threads (some t))
    (hg : w.scheduler.Groups) (hsignals : w.Signals) :
    w.Served t (.await (w₁.scheduler.firstFault fs).1 [.joined fs true])
      (subs.map fun sub => [.begin (.sub p sub)])
      (w₁.withScheduler fun s => (s.firstFault fs).2) := by
  obtain ⟨ht, hgr, hgrows, hnodup, hfs⟩ := spawnAll_spec p subs hs hg hrun
  have hw := spawnAll_world hrun
  have hjoin : w₁.scheduler.Joinable fs := by
    refine ⟨hnodup, ?_⟩
    intro f hf
    obtain ⟨-, u, -, hk⟩ := hfs f hf
    rw [hk]
    exact ⟨rfl, Scheduler.lt_of_kind (by rw [hk]; simp)⟩
  have hasked := hjoin.asked (k := .firstFault fs fs.length) ht hgr hgrows rfl rfl
  refine .of_asked hasked ?_ ?_
  · refine hsignals.mono hasked.grows.toExtends ?_ ?_ ?_ <;> rw [hw] <;> rfl
  · intro f hf
    rw [List.mem_singleton.mp hf]
    exact hjoin.gather _

/-- Those that are cancelled may be waited for. -/
theorem served_cancelled {members : List FutureId} {results : Bool} {o : Outcome}
    (hjoin : w.scheduler.Joinable members) (hs : w.scheduler.Threads (some t))
    (hg : w.scheduler.Groups) (hsignals : w.Signals) :
    w.Served t (.await ((w.scheduler.cancelAll (w.open? members)).all (w.open? members)).1
        [.collected members results o]) []
      (w.withScheduler fun s => ((s.cancelAll (w.open? members)).all (w.open? members)).2) := by
  have hopen : w.scheduler.Joinable (w.open? members) :=
    ⟨hjoin.nodup.filter _, fun m hm => hjoin.member m (List.mem_of_mem_filter hm)⟩
  have hclosed : w.scheduler.Closed fun _ => True :=
    ⟨by simp, fun g m hm => (hg.member g m hm).1, hs.awaited⟩
  have hsteps := Scheduler.cancelSteps_cancelAll hclosed
    (fun f hf => ⟨by simp, .inl (hopen.member f hf).1⟩)
  have hgrows := Scheduler.Grows.cancel hsteps hs
  have hasked := (hopen.mono hgrows.toExtends).asked
    (k := .all (w.open? members) (w.open? members).length false) (hsteps.threads hs)
    (hsteps.groups hg) hgrows rfl rfl
  exact .of_asked hasked (hsignals.mono hasked.grows.toExtends rfl rfl rfl) (by simp [Frame.Sound])

/-- A wait for a console message has a signal of its own. -/
theorem served_hearing (timeout : Float) (matchers : List Value) (hs : w.scheduler.Threads (some t))
    (hg : w.scheduler.Groups) (hsignals : w.Signals) :
    w.Served t (.await w.secondFuture [.heard w.waits.length w.scheduler.futures.length]) []
      (w.hearing timeout matchers) := by
  have hsignal : w.scheduler.Grows [] (w.scheduler.newFuture .signal).2 := .newFuture _ _
  have hrest := Scheduler.asked_hear (hs.newFuture (k := .signal) (by simp))
    (hg.newFuture (k := .signal) rfl) timeout w.scheduler.futures.length
  have hasked := Scheduler.Asked.of_grows hsignal hrest
  have hlt : w.scheduler.futures.length < (w.scheduler.newFuture .signal).2.futures.length := by
    rw [Scheduler.length_newFuture]
    exact Nat.lt_succ_self _
  have hkind : (w.scheduler.newFuture .signal).2.kind w.scheduler.futures.length = .signal := by
    rw [Scheduler.kind_newFuture, if_pos rfl]
  have hfound := And.intro (hrest.grows.signal hlt hkind)
    (Nat.lt_of_lt_of_le hlt hrest.grows.length)
  have hold : ({ w.hearing timeout matchers with waits := w.waits } : World).Signals :=
    hsignals.mono hasked.grows.toExtends rfl rfl rfl
  refine .of_asked hasked ⟨hold.verdict, hold.failSignal, ?_, hold.distinct⟩ ?_
  · intro wait hwait
    rcases List.mem_append.mp hwait with hwait | hwait
    · exact hold.waits wait hwait
    · rw [List.mem_singleton.mp hwait]
      exact hfound
  · intro f hf
    rw [List.mem_singleton.mp hf]
    exact hfound

/-- The race with a page that is being loaded may be waited for. -/
theorem served_racing (first : Option Command) (hs : w.scheduler.Threads (some t))
    (hg : w.scheduler.Groups) (hsignals : w.Signals) :
    w.Served t (.await (w.race first) [.joined w.racers false, .raced]) [[.begin (.load first)]]
      (w.racing first) := by
  have hjoin := joinable_racers hsignals [.begin (.load first)]
  have hasked := hjoin.asked (k := .firstFault w.racers w.racers.length)
    (hs.spawn [.begin (.load first)]) (hg.spawn [.begin (.load first)]) (.spawn _ _) rfl rfl
  refine .of_asked hasked (hsignals.mono hasked.grows.toExtends rfl rfl rfl) ?_
  intro f hf
  rcases List.mem_cons.mp hf with rfl | hf
  · exact hjoin.gather _
  · rw [List.mem_singleton.mp hf]
    trivial

/-- What is asked of a scheduler leaves a task with something to wait for. -/
theorem served_asks {head : Head} {turn : Turn} (h : Asks head w turn w')
    (hs : w.scheduler.Threads (some t)) (hg : w.scheduler.Groups) (hsignals : w.Signals)
    (hframe : head.first.Sound w.scheduler) :
    ∃ new, Spawns head new ∧ w.Served t turn new w' := by
  cases h with
  | start hstarted =>
      exact ⟨[], .none (by simp), served_starting hs hg hsignals
        (by simp [Turn.frames, Frame.Sound]) (by simp)⟩
  | @sleep d =>
      have hasked := Scheduler.asked_sleep hs hg d
      exact ⟨[], .none (by simp), .of_asked hasked (hsignals.mono hasked.grows.toExtends rfl rfl rfl)
        (by simp)⟩
  | together hsubs hrun => exact ⟨_, .subs, served_together hrun hs hg hsignals⟩
  | cancelled hopen => exact ⟨[], .none (by simp), served_cancelled hframe hs hg hsignals⟩
  | @hear timeout matchers =>
      exact ⟨[], .none (by simp), served_hearing timeout matchers hs hg hsignals⟩
  | @heard n found o _ hopen =>
      have hnone : w.scheduler.outcome? found = none := by
        rw [Scheduler.isSettled_eq] at hopen
        simpa using hopen
      have hasked := Scheduler.asked_heard hs hg hframe.1 hframe.2 hnone
      exact ⟨[], .none (by simp), .of_asked hasked (hsignals.mono hasked.grows.toExtends rfl rfl rfl)
        (by simp [Frame.Sound])⟩
  | @opened first v => exact ⟨_, .load, served_racing first hs hg hsignals⟩

/-- After the environment has started anew nothing is quiet. -/
theorem asks_of_reset {first : Option Command} {v : Value} {turn : Turn}
    (h : Rule (.frame (.reset first) (.value v)) w turn w') :
    Asks (.frame (.reset first) (.value v)) w turn w' := by
  cases h with
  | asks h => exact h
  | reply r hhead h => cases hhead
  | pass hf h => cases hf
  | call hcall h => cases hcall

/-- What a rule leaves to a task that still has its turn. -/
theorem served_rule {head : Head} {turn : Turn} (h : Rule head w turn w')
    (hs : w.scheduler.Threads (some t)) (hg : w.scheduler.Groups) (hsignals : w.Signals)
    (hframe : head.first.Sound w.scheduler) :
    ∃ new, Spawns head new ∧ w.Served t turn new w' := by
  by_cases hreset : ∃ first v, head = .frame (.reset first) (.value v)
  · obtain ⟨first, v, rfl⟩ := hreset
    exact served_asks (asks_of_reset h) hs hg hsignals hframe
  · rcases h.quiet_or_asks with ⟨hquiet, hturn, hplain⟩ | hasks
    · have hsteps := hquiet.scheduler hsignals
      refine ⟨[], .none fun first v heq => hreset ⟨first, v, heq⟩, hsteps.threads hs,
        hsteps.groups hg, .signals hsteps, hquiet.signals hsignals,
        fun f hf => Frame.sound_of_plain (hplain f hf), ?_⟩
      intro f frames heq
      exact absurd heq (hturn f frames)
    · exact served_asks hasks hs hg hsignals hframe

end World

/-! ## Sound machines -/

namespace Machine

/-- A machine whose tasks are each in one place, and wait for futures that there are. -/
structure Sound (m : Machine) : Prop where
  threads : m.world.scheduler.Threads (m.current.map Prod.fst)
  groups : m.world.scheduler.Groups
  signals : m.world.Signals
  /-- What a task goes on with is taken from it while it has its turn. -/
  taken : ∀ t c, m.current = some (t, c) → m.world.scheduler.stack? t = some []
  frames : ∀ t fs, m.frames t = some fs → ∀ f ∈ fs, f.Sound m.world.scheduler

variable {m m' : Machine} {head : Head} {stack : List Frame} {turn : Turn}

/-- What has to be checked of a step. -/
theorem Sound.next {more : Nat} (hm : m.Sound)
    (hthreads : m'.world.scheduler.Threads (m'.current.map Prod.fst))
    (hgroups : m'.world.scheduler.Groups)
    (hextends : m.world.scheduler.Extends more m'.world.scheduler) (hsignals : m'.world.Signals)
    (htaken : ∀ t c, m'.current = some (t, c) → m'.world.scheduler.stack? t = some [])
    (hframes : ∀ u fs f, m'.frames u = some fs → f ∈ fs →
      (∃ fs', m.frames u = some fs' ∧ f ∈ fs') ∨ f.Sound m'.world.scheduler) : m'.Sound where
  threads := hthreads
  groups := hgroups
  signals := hsignals
  taken := htaken
  frames u fs hfs f hf := by
    rcases hframes u fs f hfs hf with ⟨fs', hfs', hf'⟩ | hsound
    · exact (hm.frames u fs' hfs' f hf').mono hextends
    · exact hsound

theorem Sound.lt (hm : m.Sound) {c : Control} (h : m.current = some (t, c)) :
    t < m.world.scheduler.tasks.length := by
  refine (hm.threads.busy t ?_).2.1
  rw [h]
  rfl

theorem Sound.threads_current (hm : m.Sound) {c : Control} (h : m.current = some (t, c)) :
    m.world.scheduler.Threads (some t) := by
  have hthreads := hm.threads
  rw [h] at hthreads
  exact hthreads

theorem Sound.threads_idle (hm : m.Sound) (h : m.current = none) :
    m.world.scheduler.Threads none := by
  have hthreads := hm.threads
  rw [h] at hthreads
  exact hthreads

/-! ### Rules -/

/-- What a rule leaves to a task of a sound machine. -/
theorem Sound.served (hm : m.Sound) (hcurrent : m.current = some (t, head.control stack))
    (hrule : Rule head m.world turn w') : ∃ new, Spawns head new ∧ m.world.Served t turn new w' := by
  refine World.served_rule hrule (hm.threads_current hcurrent) hm.groups hm.signals ?_
  refine hm.frames t (head.first :: stack) ?_ _ (List.mem_cons_self ..)
  rw [frames_current hcurrent, Head.frames_control]

/-- The frames of all tasks after a rule. -/
theorem frames_rule (hcurrent : m.current = some (t, head.control stack)) (hserved : m.world.Served t turn new w') (u : TaskId) :
    (follow t stack turn w').frames u =
      if u = t then some (turn.frames ++ stack)
      else if u < m.world.scheduler.tasks.length then m.frames u
      else new[u - m.world.scheduler.tasks.length]? := by
  have ht : t < w'.scheduler.tasks.length := (hserved.threads.busy t rfl).2.1
  rw [frames_follow ht fun f frames hturn => (hserved.await f frames hturn).2.2]
  split
  · rfl
  · next hu => rw [hserved.grows.stack?, frames_of_ne hcurrent hu]

theorem Sound.follow (hm : m.Sound) (hcurrent : m.current = some (t, head.control stack))
    (hspawns : Spawns head new) (hserved : m.world.Served t turn new w') :
    (follow t stack turn w').Sound := by
  have hthreads := hm.threads_current hcurrent
  have hopen (f : FutureId) (frames : List Frame) (hturn : turn = .await f frames) :=
    (hserved.await f frames hturn).2.2
  have hfollow : w'.scheduler.Extends 0 (Machine.follow t stack turn w').world.scheduler :=
    extends_follow
  refine hm.next ?_ ?_ (hserved.grows.toExtends.trans hfollow) ?_ ?_ ?_
  · cases turn with
    | give o => exact hserved.threads
    | call work frames => exact hserved.threads
    | pause frames => exact hserved.threads.pause _
    | await f frames =>
        obtain ⟨hmember, hfresh, hnone⟩ := hserved.await f frames rfl
        simp only [Machine.follow, hnone]
        refine hserved.threads.park _ hmember hnone ?_
        intro u hwait
        rw [hserved.grows.awaiting] at hwait
        exact Nat.not_lt.mpr hfresh (hthreads.lt_of_awaiting hwait)
  · cases turn with
    | give o => exact hserved.groups
    | call work frames => exact hserved.groups
    | pause frames => exact hserved.groups.pause _ _
    | await f frames =>
        simp only [Machine.follow, hopen f frames rfl]
        exact hserved.groups.park _ _ _
  · refine hserved.signals.mono hfollow ?_ ?_ ?_ <;> rw [world_follow]
  · intro u c hu
    rw [current_follow hopen] at hu
    obtain ⟨c', hc', heq⟩ := Option.map_eq_some_iff.mp hu
    cases heq
    have htaken : w'.scheduler.stack? t = some [] := by
      rw [hserved.grows.stack?, if_pos (hm.lt hcurrent)]
      exact hm.taken t _ hcurrent
    cases turn with
    | give o => exact htaken
    | call work frames => exact htaken
    | pause frames => cases hc'
    | await f frames => cases hc'
  · intro u fs f hfs hf
    rw [frames_rule hcurrent hserved] at hfs
    split at hfs
    · next hu =>
        subst hu
        cases hfs
        rcases List.mem_append.mp hf with hf | hf
        · exact .inr ((hserved.frames f hf).mono hfollow)
        · refine .inl ⟨head.first :: stack, ?_, List.mem_cons_of_mem _ hf⟩
          rw [frames_current hcurrent, Head.frames_control]
    · split at hfs
      · exact .inl ⟨fs, hfs, hf⟩
      · refine .inr (Frame.sound_of_plain ?_)
        cases hspawns with
        | none => simp at hfs
        | subs =>
            obtain ⟨sub, -, rfl⟩ := List.mem_map.mp (List.mem_of_getElem? hfs)
            rw [List.mem_singleton.mp hf]
            rfl
        | load =>
            rw [List.mem_singleton.mp (List.mem_of_getElem? hfs)] at hf
            rw [List.mem_singleton.mp hf]
            rfl

/-! ### Steps -/

/-- What a step of a sound machine does. -/
inductive Change (m : Machine) : Machine → Prop
  /-- The task that has its turn does what is at its head. -/
  | rule {t : TaskId} {head : Head} {stack : List Frame} {turn : Turn} {w' : World}
      {new : List (List Frame)} (hcurrent : m.current = some (t, head.control stack))
      (hrule : Rule head m.world turn w') (hspawns : Spawns head new)
      (hserved : m.world.Served t turn new w') : Change m (follow t stack turn w')
  /-- The task that has its turn comes to its end. -/
  | finish {t : TaskId} {o : Outcome} (hcurrent : m.current = some (t, .outcome o [])) :
      Change m ⟨m.world.withScheduler (·.finish t o), none⟩
  /-- A turn begins: the task has waited for nothing, or for a future that is settled. -/
  | turn {handle : Handle Job} {t : TaskId} {wait : Option FutureId} {o : Outcome}
      {given : List Frame × Outcome} {s₁ s₂ : Scheduler (List Frame) Job} (hidle : m.current = none)
      (htakes : m.world.scheduler.Takes handle s₁) (hturn : handle.turn? = some (t, wait))
      (hwait : ∀ f, wait = some f → m.world.scheduler.outcome? f = some o)
      (hnone : wait = none → o = .finished) (hbegin : s₁.beginTurn t o = some (given, s₂)) :
      Change m ⟨{ m.world with scheduler := s₂ }, some (t, .outcome given.2 given.1)⟩
  | told {g member : FutureId} {s₁ : Scheduler (List Frame) Job} (hidle : m.current = none)
      (htakes : m.world.scheduler.Takes (.told g member) s₁) :
      Change m ⟨{ m.world with scheduler := s₁.tell g member }, none⟩
  | release {f : FutureId} {s₁ : Scheduler (List Frame) Job} (hidle : m.current = none)
      (htakes : m.world.scheduler.Takes (.release f) s₁) :
      Change m ⟨{ m.world with scheduler := s₁.release f }, none⟩
  | job {job : Job} {s₁ : Scheduler (List Frame) Job} {w' : World} (hidle : m.current = none)
      (htakes : m.world.scheduler.Takes (.job job) s₁)
      (hsteady : ({ m.world with scheduler := s₁ } : World).Steady w') : Change m ⟨w', none⟩

/-- A step of a sound machine is a change. -/
theorem Sound.change (hm : m.Sound) (h : m.step = some m') : m.Change m' := by
  rcases step_cases h with ⟨t, head, stack, turn, w', hcurrent, hrule, rfl⟩ |
    ⟨t, o, hcurrent, rfl⟩ | ⟨handle, scheduler, hidle, hnext, rfl⟩
  · obtain ⟨new, hspawns, hserved⟩ := hm.served hcurrent hrule
    exact .rule hcurrent hrule hspawns hserved
  · exact .finish hcurrent
  · have htakes := Scheduler.takes_next hnext
    have hthreads := hm.threads_idle hidle
    have hmem : handle ∈ m.world.scheduler.handles :=
      htakes.perm.mem_iff.mpr (List.mem_cons_self ..)
    cases handle with
    | turn t =>
        have hturn : (t, none) ∈ m.world.scheduler.turns := List.mem_filterMap.mpr ⟨_, hmem, rfl⟩
        have ht : t < scheduler.tasks.length := by
          rw [htakes.tasks]
          exact (hthreads.turn t none hturn).2.1
        obtain ⟨given, s₂, hbegin⟩ := Scheduler.exists_beginTurn ht .finished
        simp only [Machine.handle, beginTurn, hbegin]
        exact .turn hidle htakes rfl (by simp) (fun _ => rfl) hbegin
    | wake t f =>
        have hturn : (t, some f) ∈ m.world.scheduler.turns := List.mem_filterMap.mpr ⟨_, hmem, rfl⟩
        obtain ⟨-, hlt, hsettled⟩ := hthreads.turn t _ hturn
        have ht : t < scheduler.tasks.length := by
          rw [htakes.tasks]
          exact hlt
        obtain ⟨o, ho⟩ := Option.ne_none_iff_exists'.mp (hsettled f rfl)
        have ho' : (scheduler.outcome? f).getD .stopped = o := by
          rw [htakes.outcome?, ho]
          rfl
        obtain ⟨given, s₂, hbegin⟩ := Scheduler.exists_beginTurn ht o
        simp only [Machine.handle, beginTurn, ho', hbegin]
        refine .turn hidle htakes rfl ?_ (by simp) hbegin
        rintro _ ⟨⟩
        exact ho
    | told g member => exact .told hidle htakes
    | release f => exact .release hidle htakes
    | job job =>
        cases job with
        | act actions => exact .job hidle htakes ((Engine.acting_perform actions).acts _).steady
        | expire error => exact .job hidle htakes (World.steady_tellMonitor _ _)

theorem stack?_of_grows {s s' : Scheduler (List Frame) Job} (h : s.Grows [] s') (u : TaskId) :
    s'.stack? u = s.stack? u := by
  rw [h.stack?]
  split
  · rfl
  · next hu => exact (Scheduler.stack?_of_le (Nat.not_lt.mp hu)).symm

theorem stack?_of_tasks {s s' : Scheduler (List Frame) Job} (h : s'.tasks = s.tasks) (u : TaskId) :
    s'.stack? u = s.stack? u := by
  simp only [Scheduler.stack?, Scheduler.task?, h]

/-- What leaves all frames, and records nothing but minor events. -/
structure Leaves (m m' : Machine) : Prop where
  before : m.current = none ∨ ∃ t o, m.current = some (t, .outcome o [])
  frames : ∀ u, m'.frames u = m.frames u
  grows : m.world.scheduler.Extends 0 m'.world.scheduler
  session : m.world.session.Keeps m'.world.session
  history : ∃ new, m'.world.history = new ++ m.world.history ∧ ∀ e ∈ new, e.isMinor = true
  /-- A task that comes to have its turn is given an outcome. -/
  current : ∀ t c, m'.current = some (t, c) → m.current = none ∧ ∃ o fs, c = .outcome o fs
  /-- It does not wait any longer, but all others do. -/
  awaiting : ∀ u, m'.world.scheduler.awaiting u =
    if m'.current.map Prod.fst = some u then none else m.world.scheduler.awaiting u
  /-- What a task is given is what it has waited for, unless it is to be stopped. -/
  given : ∀ t o fs, m'.current = some (t, .outcome o fs) →
    o = .finished ∧ m.world.scheduler.awaiting t = none ∨
      o = .stopped ∧ m.world.scheduler.stopping t = true ∨
      ∃ g, m.world.scheduler.awaiting t = some g ∧ m.world.scheduler.outcome? g = some o
  /-- It gets its turn once what it has waited for is settled. -/
  due : ∀ t c g, m'.current = some (t, c) → m.world.scheduler.awaiting t = some g →
    m.world.scheduler.outcome? g ≠ none
  /-- A task comes to its end when all its frames are done. -/
  ended : ∀ f u, m.world.scheduler.kind f = .task u →
    m'.world.scheduler.outcome? f = m.world.scheduler.outcome? f ∨
      ∃ o, m.current = some (u, .outcome o []) ∧ m'.world.scheduler.outcome? f = some o
  finished : ∀ f u o, m.world.scheduler.kind f = .task u → m.world.scheduler.outcome? f = none →
    m.current = some (u, .outcome o []) → m'.world.scheduler.outcome? f = some o

/-- A step that is no rule. -/
structure Rests (m m' : Machine) : Prop extends m.Leaves m' where
  /-- Nobody is stopped but by a task that was. -/
  calm : ∀ hit, m.world.scheduler.Calm hit →
    (∀ t, m.current = some (t, .outcome .stopped []) → hit t) → m'.world.scheduler.Calm hit

theorem extends_takes {handle : Handle Job} (h : s.Takes handle s') : s.Extends 0 s' :=
  Scheduler.extends_of_eq h.futures h.tasks

/-- What is handled between two turns leaves all frames. -/
theorem Rests.of_grows {handle : Handle Job} {s₁ : Scheduler (List Frame) Job}
    (hidle : m.current = none) (htakes : m.world.scheduler.Takes handle s₁)
    (hgrows : s₁.Grows [] w'.scheduler) (hsession : m.world.session.Keeps w'.session)
    (hcalm : ∀ hit, s₁.Calm hit → w'.scheduler.Calm hit)
    (hhistory : ∃ new, w'.history = new ++ m.world.history ∧ ∀ e ∈ new, e.isMinor = true) :
    m.Rests ⟨w', none⟩ where
  before := .inl hidle
  frames u := by
    rw [frames_idle hidle, frames_idle rfl, stack?_of_grows hgrows, stack?_of_tasks htakes.tasks]
  grows := (extends_takes htakes).trans hgrows.toExtends
  session := hsession
  history := hhistory
  current := by rintro t c ⟨⟩
  awaiting u := by
    rw [if_neg (by simp), hgrows.awaiting, htakes.awaiting]
  given := by rintro t o fs ⟨⟩
  due := by rintro t c g ⟨⟩
  calm hit hcalm' _ := hcalm hit (hcalm'.takes htakes)
  ended f u hk := by
    refine .inl ?_
    rw [← htakes.kind] at hk
    rw [hgrows.ended f u hk, htakes.outcome?]
  finished f u o _ _ hcurrent := by
    rw [hidle] at hcurrent
    cases hcurrent

/-- The end of a task settles the future of its end. -/
theorem Sound.outcome?_finish (hm : m.Sound) {c : Control} (hcurrent : m.current = some (t, c))
    {f : FutureId} {u : TaskId} (hk : m.world.scheduler.kind f = .task u) (o : Outcome) :
    (m.world.scheduler.finish t o).outcome? f =
      if u = t ∧ m.world.scheduler.outcome? f = none then some o
      else m.world.scheduler.outcome? f := by
  obtain ⟨task, htask⟩ := Scheduler.exists_task (hm.lt hcurrent)
  have hending : m.world.scheduler.ending? t = some task.future := by
    unfold Scheduler.ending?
    rw [htask]
    rfl
  have hkind := (hm.threads.ending t task.future).mp hending
  rw [Scheduler.outcome?_finish hending o (Scheduler.lt_of_kind (by rw [hkind]; simp))]
  by_cases hut : u = t
  · subst hut
    have hf : f = task.future := by
      have hf := (hm.threads.ending u f).mpr hk
      exact Option.some.inj (hf.symm.trans hending)
    subst hf
    simp
  · have hf : f ≠ task.future := by
      rintro rfl
      exact hut (FutureKind.task.inj (hk.symm.trans hkind))
    rw [if_neg fun h => hf h.1, if_neg fun h => hut h.1]

/-- A task that comes to its end leaves all frames. -/
theorem Sound.rests_finish (hm : m.Sound) {o : Outcome}
    (hcurrent : m.current = some (t, .outcome o [])) :
    m.Rests ⟨m.world.withScheduler (·.finish t o), none⟩ := by
  refine ⟨⟨.inr ⟨t, o, hcurrent⟩, ?frames, Scheduler.extends_finish t o, .refl _, ⟨[], rfl, by simp⟩,
    by rintro t c ⟨⟩, ?awaiting, by rintro t o fs ⟨⟩, by rintro t c g ⟨⟩, ?ended, ?finished⟩, ?calm⟩
  case frames =>
    intro u
    rw [frames_idle rfl]
    have hstack : (m.world.scheduler.finish t o).stack? u = m.world.scheduler.stack? u :=
      stack?_of_tasks (Scheduler.tasks_finish t o) u
    by_cases hu : u = t
    · subst hu
      rw [frames_current hcurrent]
      exact hstack.trans (hm.taken u _ hcurrent)
    · rw [frames_of_ne hcurrent hu]
      exact hstack
  case awaiting =>
    intro u
    rw [if_neg (by simp)]
    exact Scheduler.awaiting_congr (Scheduler.tasks_finish t o) u
  case ended =>
    intro f u hk
    have houtcome := hm.outcome?_finish hcurrent hk o
    by_cases hut : u = t ∧ m.world.scheduler.outcome? f = none
    · rw [if_pos hut] at houtcome
      exact .inr ⟨o, hut.1 ▸ hcurrent, houtcome⟩
    · rw [if_neg hut] at houtcome
      exact .inl houtcome
  case finished =>
    intro f u o' hk hopen hcurrent'
    cases Option.some.inj (hcurrent.symm.trans hcurrent')
    exact (hm.outcome?_finish hcurrent hk o).trans (if_pos ⟨rfl, hopen⟩)
  case calm =>
    intro hit hcalm hstopped
    refine hcalm.finish hm.threads ?_
    rintro rfl
    exact hstopped t hcurrent

/-- A turn that begins leaves all frames, and gives the task what it has waited for. -/
theorem Sound.rests_turn (hm : m.Sound) {handle : Handle Job} {wait : Option FutureId} {o : Outcome}
    {given : List Frame × Outcome} {s₁ s₂ : Scheduler (List Frame) Job} (hidle : m.current = none)
    (htakes : m.world.scheduler.Takes handle s₁) (hturn : handle.turn? = some (t, wait))
    (hwait : ∀ f, wait = some f → m.world.scheduler.outcome? f = some o)
    (hnone : wait = none → o = .finished) (hbegin : s₁.beginTurn t o = some (given, s₂)) :
    m.Rests ⟨{ m.world with scheduler := s₂ }, some (t, .outcome given.2 given.1)⟩ := by
  obtain ⟨hgiven, hstack, hawaiting, hfutures, hextends⟩ := Scheduler.beginTurn_spec hbegin
  rw [stack?_of_tasks htakes.tasks] at hgiven
  have hmem : handle ∈ m.world.scheduler.handles :=
    htakes.perm.mem_iff.mpr (List.mem_cons_self ..)
  obtain ⟨hawait, -, hsettled⟩ := (hm.threads_idle hidle).turn t wait
    (List.mem_filterMap.mpr ⟨handle, hmem, hturn⟩)
  refine ⟨⟨.inl hidle, ?frames, (extends_takes htakes).trans hextends, .refl _, ⟨[], rfl, by simp⟩,
    ?current, ?awaiting, ?given, ?due, ?ended, ?finished⟩, ?calm⟩
  case frames =>
    intro u
    rw [frames_idle hidle]
    by_cases hu : u = t
    · subst hu
      rw [hgiven]
      exact frames_current (c := .outcome given.2 given.1) rfl
    · rw [frames_of_ne rfl hu, hstack, if_neg hu, stack?_of_tasks htakes.tasks]
  case current =>
    rintro t' c ⟨⟩
    exact ⟨hidle, _, _, rfl⟩
  case awaiting =>
    intro u
    change s₂.awaiting u = if some t = some u then none else _
    rw [hawaiting, htakes.awaiting]
    by_cases hu : u = t
    · rw [if_pos hu, if_pos (by rw [hu])]
    · rw [if_neg hu, if_neg fun h => hu (Option.some.inj h).symm]
  case given =>
    rintro _ _ _ ⟨⟩
    rcases Scheduler.given_beginTurn hbegin with heq | ⟨heq, hstopping⟩
    · rw [heq]
      cases wait with
      | none => exact .inl ⟨hnone rfl, hawait⟩
      | some g => exact .inr (.inr ⟨g, hawait, hwait g rfl⟩)
    · refine .inr (.inl ⟨heq, ?_⟩)
      unfold Scheduler.stopping Scheduler.task? at hstopping ⊢
      rw [← htakes.tasks]
      exact hstopping
  case due =>
    rintro _ _ g ⟨⟩ hg
    exact hsettled g (hawait.symm.trans hg)
  case ended =>
    intro f u hk
    refine .inl ?_
    change s₂.outcome? f = _
    rw [Scheduler.outcome?_congr hfutures, htakes.outcome?]
  case finished =>
    intro f u o' _ _ hcurrent
    rw [hidle] at hcurrent
    cases hcurrent
  case calm =>
    intro hit hcalm _
    exact ((hcalm.takes htakes).beginTurn hbegin).1

/-- A step of a sound machine is made by a rule, or leaves all frames. -/
theorem Sound.rule_or_rests (hm : m.Sound) (h : m.Change m') :
    (∃ t head stack turn w' new, m.current = some (t, head.control stack) ∧
      Rule head m.world turn w' ∧ Spawns head new ∧ m.world.Served t turn new w' ∧
      m' = Machine.follow t stack turn w') ∨ m.Rests m' := by
  have hnothing : ∃ new, m.world.history = new ++ m.world.history ∧ ∀ e ∈ new, e.isMinor = true :=
    ⟨[], rfl, by simp⟩
  cases h with
  | rule hcurrent hrule hspawns hserved =>
      exact .inl ⟨_, _, _, _, _, _, hcurrent, hrule, hspawns, hserved, rfl⟩
  | finish hcurrent => exact .inr (hm.rests_finish hcurrent)
  | turn hidle htakes hturn hwait hnone hbegin =>
      exact .inr (hm.rests_turn hidle htakes hturn hwait hnone hbegin)
  | told hidle htakes =>
      exact .inr (.of_grows hidle htakes (Scheduler.Grows.tell _ _ _) (.refl _)
        (fun _ hcalm => hcalm.tell _ _) hnothing)
  | release hidle htakes =>
      exact .inr (.of_grows hidle htakes (Scheduler.Grows.release _ _) (.refl _)
        (fun _ hcalm => hcalm.release _) hnothing)
  | @job job s₁ w' hidle htakes hsteady =>
      have hsignals : ({ m.world with scheduler := s₁ } : World).Signals :=
        hm.signals.mono (extends_takes htakes) rfl rfl rfl
      refine .inr (.of_grows hidle htakes (hsteady.grows hsignals) hsteady.session ?_ hsteady.history)
      intro hit hcalm
      exact (hsteady.scheduler hsignals).calm ((hm.threads_idle hidle).takes htakes rfl) hcalm

/-! ### Soundness -/

/-- What leaves all frames keeps a machine sound if it keeps its scheduler so. -/
theorem Sound.leaves (hm : m.Sound) (hleaves : m.Leaves m')
    (hthreads : m'.world.scheduler.Threads (m'.current.map Prod.fst))
    (hgroups : m'.world.scheduler.Groups) (hsignals : m'.world.Signals)
    (htaken : ∀ t c, m'.current = some (t, c) → m'.world.scheduler.stack? t = some []) :
    m'.Sound := by
  refine hm.next hthreads hgroups hleaves.grows hsignals htaken ?_
  intro u fs f hfs hf
  rw [hleaves.frames] at hfs
  exact .inl ⟨fs, hfs, hf⟩

/-- Every step keeps a machine sound. -/
theorem Change.sound (hm : m.Sound) (h : m.Change m') : m'.Sound := by
  rcases hm.rule_or_rests h with ⟨t, head, stack, turn, w', new, hcurrent, hrule, hspawns, hserved,
    rfl⟩ | hrests
  · exact hm.follow hcurrent hspawns hserved
  · cases h with
    | rule hcurrent hrule hspawns hserved => exact hm.follow hcurrent hspawns hserved
    | @finish t o hcurrent =>
        refine hm.leaves hrests.toLeaves ((hm.threads_current hcurrent).finish o)
          (hm.groups.finish hm.threads t o) (hm.signals.mono hrests.grows rfl rfl rfl) ?_
        rintro t c ⟨⟩
    | @turn handle t wait o given s₁ s₂ hidle htakes hturn hwait hnone hbegin =>
        obtain ⟨-, hstack, -, -, -⟩ := Scheduler.beginTurn_spec hbegin
        have hnews : handle.news? = none := by cases handle <;> first | rfl | cases hturn
        refine hm.leaves hrests.toLeaves ((hm.threads_idle hidle).beginTurn htakes hturn hbegin)
          ((hm.groups.takes htakes hnews).beginTurn hbegin)
          (hm.signals.mono hrests.grows rfl rfl rfl) ?_
        rintro _ _ ⟨⟩
        exact (hstack t).trans (if_pos rfl)
    | told hidle htakes =>
        refine hm.leaves hrests.toLeaves (((hm.threads_idle hidle).takes htakes rfl).tell _ _)
          (hm.groups.tell htakes) (hm.signals.mono hrests.grows rfl rfl rfl) ?_
        rintro t c ⟨⟩
    | release hidle htakes =>
        refine hm.leaves hrests.toLeaves (((hm.threads_idle hidle).takes htakes rfl).release _)
          ((hm.groups.takes htakes rfl).release _) (hm.signals.mono hrests.grows rfl rfl rfl) ?_
        rintro t c ⟨⟩
    | @job job s₁ w' hidle htakes hsteady =>
        have hsignals : ({ m.world with scheduler := s₁ } : World).Signals :=
          hm.signals.mono (extends_takes htakes) rfl rfl rfl
        have hsteps := hsteady.scheduler hsignals
        refine hm.leaves hrests.toLeaves (hsteps.threads ((hm.threads_idle hidle).takes htakes rfl))
          (hsteps.groups (hm.groups.takes htakes rfl)) (hsteady.signals hsignals) ?_
        rintro t c ⟨⟩

theorem Sound.step (hm : m.Sound) (h : m.step = some m') : m'.Sound := (hm.change h).sound hm

/-- A step that is made by a rule, and what it leaves of a sound machine. -/
structure Moves (m : Machine) (t : TaskId) (head : Head) (stack : List Frame) (turn : Turn)
    (new : List (List Frame)) (w' : World) (m' : Machine) : Prop where
  current : m.current = some (t, head.control stack)
  rule : Rule head m.world turn w'
  spawns : Spawns head new
  served : m.world.Served t turn new w'
  follows : m' = Machine.follow t stack turn w'
  frames : ∀ u, m'.frames u =
    if u = t then some (turn.frames ++ stack)
    else if u < m.world.scheduler.tasks.length then m.frames u
    else new[u - m.world.scheduler.tasks.length]?
  next : m'.current = (turn.control stack).map (Prod.mk t)
  session : m'.world.session = w'.session
  history : m'.world.history = w'.history
  grows : m.world.scheduler.Extends new.length m'.world.scheduler
  ended : ∀ f u, m.world.scheduler.kind f = .task u →
    m'.world.scheduler.outcome? f = m.world.scheduler.outcome? f

theorem Moves.before (h : m.Moves t head stack turn new w' m') :
    m.frames t = some (head.first :: stack) := by
  rw [frames_current h.current, Head.frames_control]

theorem Moves.first_eq (h : m.Moves t head stack turn new w' m') {f : Frame} {fs : List Frame}
    (hfs : m.frames t = some (f :: fs)) : head.first = f ∧ stack = fs :=
  List.cons.inj (Option.some.inj (h.before.symm.trans hfs))

/-- A task at a frame with which no work begins has its turn with an outcome for it. -/
theorem Moves.frame_eq (h : m.Moves t head stack turn new w' m') {f : Frame} {fs : List Frame}
    (hfs : m.frames t = some (f :: fs)) (hf : ∀ work, f ≠ .begin work) :
    ∃ o, head = .frame f o ∧ stack = fs := by
  obtain ⟨hfirst, rfl⟩ := h.first_eq hfs
  cases head with
  | work work => exact absurd hfirst.symm (hf work)
  | frame f' o => exact ⟨o, congrArg (Head.frame · o) hfirst, rfl⟩

theorem Moves.head_eq {u : TaskId} {f : Frame} {o : Outcome} {fs : List Frame}
    (h : m.Moves t head stack turn new w' m')
    (hcurrent : m.current = some (u, .outcome o (f :: fs))) :
    t = u ∧ head = .frame f o ∧ stack = fs := by
  have heq := h.current.symm.trans hcurrent
  cases head with
  | work w => cases heq
  | frame f' o' =>
      cases heq
      exact ⟨rfl, rfl, rfl⟩

theorem Moves.lt (h : m.Moves t head stack turn new w' m') (hm : m.Sound) :
    t < m.world.scheduler.tasks.length := hm.lt h.current

theorem Moves.frames_self (h : m.Moves t head stack turn new w' m') :
    m'.frames t = some (turn.frames ++ stack) := (h.frames t).trans (if_pos rfl)

theorem Moves.frames_of_ne {u : TaskId} (h : m.Moves t head stack turn new w' m') (hu : u ≠ t)
    (hlt : u < m.world.scheduler.tasks.length) : m'.frames u = m.frames u := by
  rw [h.frames, if_neg hu, if_pos hlt]

/-- After a step a task has what the rule leaves of its frames, or those that it had before, or it is
a new one. -/
theorem Moves.frames_cases {u : TaskId} {fs : List Frame} (h : m.Moves t head stack turn new w' m')
    (hfs : m'.frames u = some fs) :
    u = t ∧ turn.frames ++ stack = fs ∨ u ≠ t ∧ m.frames u = some fs ∨ u ≠ t ∧ fs ∈ new := by
  rw [h.frames] at hfs
  split at hfs
  · next hu => exact .inl ⟨hu, Option.some.inj hfs⟩
  · next hu =>
      split at hfs
      · exact .inr (.inl ⟨hu, hfs⟩)
      · exact .inr (.inr ⟨hu, List.mem_of_getElem? hfs⟩)

theorem Moves.frames_old {u : TaskId} {fs : List Frame} (h : m.Moves t head stack turn new w' m')
    (hlt : u < m.world.scheduler.tasks.length) (hfs : m'.frames u = some fs) :
    u = t ∧ turn.frames ++ stack = fs ∨ u ≠ t ∧ m.frames u = some fs := by
  by_cases hu : u = t
  · subst hu
    exact .inl ⟨rfl, Option.some.inj (h.frames_self.symm.trans hfs)⟩
  · exact .inr ⟨hu, (h.frames_of_ne hu hlt).symm.trans hfs⟩

/-- After a step a frame is one that the rule puts on top of others, or one that was there before, or a
new task begins with it. -/
theorem Moves.mem_frames {u : TaskId} {fs : List Frame} {f : Frame}
    (h : m.Moves t head stack turn new w' m') (hfs : m'.frames u = some fs) (hf : f ∈ fs) :
    u = t ∧ f ∈ turn.frames ∨ (∃ fs, m.frames u = some fs ∧ f ∈ fs) ∨
      ∃ work, f = .begin work ∧ [f] ∈ new := by
  rcases h.frames_cases hfs with ⟨rfl, rfl⟩ | ⟨-, hfs⟩ | ⟨-, hnew⟩
  · rcases List.mem_append.mp hf with hf | hf
    · exact .inl ⟨rfl, hf⟩
    · exact .inr (.inl ⟨_, h.before, List.mem_cons_of_mem _ hf⟩)
  · exact .inr (.inl ⟨fs, hfs, hf⟩)
  · obtain ⟨work, rfl⟩ := h.spawns.begins hnew
    have hf := List.mem_singleton.mp hf
    exact .inr (.inr ⟨work, hf, hf ▸ hnew⟩)

/-- A task that has its turn at a frame makes a step by a rule. -/
theorem Rests.not_frame {f : Frame} {o : Outcome} {fs : List Frame} (h : m.Rests m') :
    m.current ≠ some (t, .outcome o (f :: fs)) := by
  intro hcurrent
  rcases h.before with hnone | ⟨t, o, hsome⟩
  · rw [hnone] at hcurrent
    cases hcurrent
  · rw [hsome] at hcurrent
    cases hcurrent

/-- What a rule leaves of a sound machine. -/
theorem moves_of_rule (hcurrent : m.current = some (t, head.control stack))
    (hrule : Rule head m.world turn w') (hspawns : Spawns head new)
    (hserved : m.world.Served t turn new w') :
    m.Moves t head stack turn new w' (Machine.follow t stack turn w') := by
  have hworld : (Machine.follow t stack turn w').world = _ := world_follow
  refine ⟨hcurrent, hrule, hspawns, hserved, rfl, frames_rule hcurrent hserved,
    current_follow fun f frames hturn => (hserved.await f frames hturn).2.2, ?_, ?_,
    hserved.grows.toExtends.trans extends_follow, ?_⟩
  · rw [hworld]
  · rw [hworld]
  · intro f u hk
    rw [outcome?_follow, hserved.grows.ended f u hk]

/-- A step of a sound machine is made by a rule, or leaves all frames. -/
theorem Sound.moves_or_rests (hm : m.Sound) (h : m.step = some m') :
    (∃ t head stack turn new w', m.Moves t head stack turn new w' m') ∨ m.Rests m' := by
  rcases hm.rule_or_rests (hm.change h) with ⟨t, head, stack, turn, w', new, hcurrent, hrule,
    hspawns, hserved, rfl⟩ | hrests
  · exact .inl ⟨t, head, stack, turn, new, w', moves_of_rule hcurrent hrule hspawns hserved⟩
  · exact .inr hrests

/-- A task that has its turn does what is at its head. -/
theorem Sound.moves_of_head (hm : m.Sound) (h : m.step = some m')
    (hcurrent : m.current = some (t, head.control stack)) :
    ∃ new, m.Moves t head stack (head.run.run m.world).1 new (head.run.run m.world).2 m' := by
  obtain ⟨new, hspawns, hserved⟩ := hm.served hcurrent (rule_run head m.world)
  have hfollow : m' = Machine.follow t stack (head.run.run m.world).1 (head.run.run m.world).2 := by
    obtain ⟨w, current⟩ := m
    cases hcurrent
    cases head <;> exact (Option.some.inj h).symm
  rw [hfollow]
  exact ⟨new, moves_of_rule hcurrent (rule_run head m.world) hspawns hserved⟩

end Machine

/-! ## Tests -/

theorem Scheduler.threads_empty {Stack Job : Type} :
    (Scheduler.empty : Scheduler Stack Job).Threads none where
  ending t f := by simp [Scheduler.ending?, Scheduler.task?, Scheduler.empty, Scheduler.kind,
    Scheduler.future, default]
  awaited t f h := by simp [Scheduler.awaiting, Scheduler.task?, Scheduler.empty] at h
  once t u f h := by simp [Scheduler.awaiting, Scheduler.task?, Scheduler.empty] at h
  waiter t f h := by
    simp [Scheduler.waiters, Scheduler.watchers, Scheduler.future, Scheduler.empty, default] at h
  waiters f := by
    simp [Scheduler.waiters, Scheduler.watchers, Scheduler.future, Scheduler.empty, default]
  turn t w h := by simp [Scheduler.turns, Scheduler.handles, Scheduler.empty] at h
  turns := by simp [Scheduler.turns, Scheduler.handles, Scheduler.empty]
  busy t h := by cases h

theorem Scheduler.groups_empty {Stack Job : Type} :
    (Scheduler.empty : Scheduler Stack Job).Groups := by
  have hkind (f : FutureId) : (Scheduler.empty : Scheduler Stack Job).kind f = .signal := by
    simp [Scheduler.kind, Scheduler.future, Scheduler.empty, default]
  refine ⟨⟨?_, ?_, ?_, ?_, ?_, ?_, ?_, ?_⟩, ?_⟩
  · intro g m hm
    rw [hkind] at hm
    cases hm
  · intro g
    rw [hkind]
    exact List.nodup_nil
  · intro g m h
    simp [Scheduler.groups, Scheduler.watchers, Scheduler.future, Scheduler.empty, default] at h
  · intro m
    simp [Scheduler.groups, Scheduler.watchers, Scheduler.future, Scheduler.empty, default]
  · intro g m h
    simp [Scheduler.news, Scheduler.handles, Scheduler.empty] at h
  · simp [Scheduler.news, Scheduler.handles, Scheduler.empty]
  · intro g o h
    simp [Scheduler.outcome?, Scheduler.future, Scheduler.empty, default] at h
  · intro g members left stopping h
    rw [hkind] at h
    cases h
  · intro g _
    refine ⟨?_, ?_⟩
    · intro n hn
      rw [hkind] at hn
      cases hn
    · intro m hm
      rw [hkind] at hm
      cases hm

namespace World

variable {work : Work} {m : Machine}

/-- At the beginning there is a single task, which does the work. -/
theorem Fresh.frames (h : w.Fresh) (work : Work) (t : TaskId) :
    (Machine.ofWork w work).2.frames t = if t = 0 then some [.begin work] else none := by
  have hcurrent : (Machine.ofWork w work).2.current = some (0, .work work []) := by
    unfold Machine.ofWork Scheduler.newTask
    rw [h.scheduler]
    rfl
  by_cases ht : t = 0
  · subst ht
    exact Machine.frames_current hcurrent
  · rw [Machine.frames_of_ne hcurrent ht, if_neg ht]
    refine Scheduler.stack?_of_le ?_
    change (w.scheduler.newTask []).2.tasks.length ≤ t
    rw [h.scheduler]
    exact Nat.pos_of_ne_zero ht

/-- Work in a fresh world begins with a sound machine. -/
theorem Fresh.sound (h : w.Fresh) (work : Work) : (Machine.ofWork w work).2.Sound where
  threads := by
    have hnew := (@Scheduler.threads_empty (List Frame) Job).newTask []
    unfold Machine.ofWork
    rw [h.scheduler]
    refine { hnew with busy := ?_ }
    rintro t ⟨⟩
    refine ⟨?_, Nat.zero_lt_one, ?_⟩
    · exact (Scheduler.awaiting_newTask [] _).trans rfl
    · intro w hw
      cases hw
  groups := by
    unfold Machine.ofWork
    rw [h.scheduler]
    exact Scheduler.groups_empty.newTask []
  signals := by
    refine ⟨?_, ?_, ?_, ?_⟩
    · intro f hf
      cases h.verdict.symm.trans hf
    · intro f hf
      cases h.failSignal.symm.trans hf
    · intro wait hwait
      have hnone : wait ∈ w.waits := hwait
      rw [h.waits] at hnone
      cases hnone
    · intro f hf
      cases h.verdict.symm.trans hf
  taken := by
    rintro t c ⟨⟩
    unfold Machine.ofWork Scheduler.newTask
    rw [h.scheduler]
    rfl
  frames := by
    intro t fs hfs f hf
    rw [h.frames] at hfs
    split at hfs
    · cases hfs
      rw [List.mem_singleton.mp hf]
      trivial
    · cases hfs

/-- Every machine that can be reached is sound. -/
theorem Runs.sound (h : w.Runs work m) : m.Sound :=
  h.invariant (h.fresh.sound work) fun _ _ _ hstep hm => hm.step hstep

end World

namespace TestSetup

variable {setup : TestSetup} {g : Generator} {m : Machine}

/-- At the beginning of a test there is a single task, which runs the script. -/
theorem frames_machine (setup : TestSetup) (g : Generator) (t : TaskId) :
    (setup.machine g).frames t = if t = 0 then some [.begin .script] else none :=
  (setup.fresh g).frames .script t

/-- A test begins with a sound machine. -/
theorem sound_machine (setup : TestSetup) (g : Generator) : (setup.machine g).Sound :=
  (setup.fresh g).sound .script

/-- Every machine that can be reached is sound. -/
theorem Reaches.sound (h : setup.Reaches g m) : m.Sound := h.runs.sound

end TestSetup

/-! ## Registries -/

/-- No rule changes which commands there are. -/
theorem Rule.registry {head : Head} {w w' : World} {turn : Turn} (h : Rule head w turn w') :
    w'.session.registry = w.session.registry := by
  cases h with
  | asks h =>
      cases h with
      | together hsubs hrun =>
          rw [World.spawnAll_world hrun]
          rfl
      | _ => rfl
  | reply r hhead h => exact h.steady.session.registry
  | pass hf h => exact h.steady.session.registry
  | call hcall h => exact h.steady.session.registry
  | resume h => exact h.steady.session.registry
  | answered r hp hy hc h => exact h.steady.session.registry
  | commanded hp hy hcall h => exact h.steady.session.registry
  | load h => exact h.steady.session.registry
  | @raced o => cases o <;> rfl
  | _ => rfl

/-- Commands are registered before a test begins, and for all of it. -/
theorem TestSetup.Reaches.registry {setup : TestSetup} {g : Generator} {m : Machine}
    (h : setup.Reaches g m) : m.world.session.registry = setup.session.registry := by
  induction h with
  | refl => rfl
  | @tail m₁ m₂ hfirst hlast ih =>
      rcases (Reaches.sound hfirst).moves_or_rests hlast with
        ⟨t, head, stack, turn, new, w', hmoves⟩ | hrests
      · rw [hmoves.session, hmoves.rule.registry]
        exact ih
      · exact hrests.session.registry.trans ih

end HotSpec
