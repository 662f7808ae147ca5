import HotSpec.Proofs.Console.Attention

/-!
# Who listens to the console

Nobody listens to the console of a page but the monitor and waits that have begun, and frames belong to
such waits.  This holds whatever happens to a machine, as does the order of its queue and of its timers.

Main definitions:

- `Listener.Known`: whether one who listens is the monitor, or one of some waits.
- `Machine.Orderly`: what holds of a machine whatever may have happened to it.

Main results:

- Theorem `Doing.listeners`: what is done at once brings nobody but the monitor to listen.
- Theorem `Rule.listeners`: a rule brings those to listen that there are.
- Theorem `Course.orderly`: the invariant holds of all that comes about in a fresh world.
-/

namespace HotSpec

/-- Whether one who listens is the monitor, or one of some waits. -/
def Listener.Known (waits : Nat) : Listener → Prop
  | .monitor => True
  | .wait k => k < waits
  | .loads => False

variable {P : Listener → Prop} {w w' : World}

/-! ## What is done at once -/

theorem World.Aside.listeners (h : w.Aside w') (hP : P .monitor) (hw : ∀ l ∈ w.audience, P l) :
    ∀ l ∈ w'.audience, P l := by
  intro l hl
  rcases h.audience with haudience | haudience | haudience | haudience
  · exact hw l (haudience ▸ hl)
  · rw [haudience] at hl
    rcases List.mem_append.mp hl with hl | hl
    · exact hw l hl
    · rw [List.mem_singleton.mp hl]
      exact hP
  · rw [haudience] at hl
    exact hw l (List.mem_of_mem_filter hl)
  · rw [haudience] at hl
    exact hw l (List.mem_of_mem_filter hl)

namespace Engine

/-- Whoever is told a message brings nobody to listen but itself and the monitor. -/
theorem listeners_deliver {l : Listener} (hP : P .monitor) (hl : P l) (message : ConsoleMessage)
    (hw : ∀ l ∈ w.audience, P l) : ∀ l' ∈ (exec (deliver (.console message) l) w).2.audience, P l' := by
  cases l with
  | monitor =>
      have haudience := (exec_deliverMonitor_spec w message).2.1
      exact fun l' hl' => hw l' (haudience ▸ hl')
  | wait k =>
      intro l' hl'
      have haudience := (exec_deliverWait_spec w k message).2.1
      change l' ∈ (exec (deliverWait k (.console message)) w).2.audience at hl'
      rw [haudience, World.relisten_wait] at hl'
      split at hl'
      · rcases List.mem_append.mp hl' with hl' | hl'
        · exact hw l' (List.mem_of_mem_filter hl')
        · rw [List.mem_singleton.mp hl']
          exact hl
      · exact hw l' (List.mem_of_mem_filter hl')
  | loads =>
      have hgoing : Going (fun w w' => (∀ l ∈ w.audience, P l) → ∀ l ∈ w'.audience, P l) deliverLoads :=
        going_deliverLoads fun _ haside hw => haside.listeners hP hw
      have hsteps := hgoing w
      change ∀ l' ∈ (exec deliverLoads w).2.audience, P l'
      generalize (exec deliverLoads w).2 = w₁ at hsteps ⊢
      induction hsteps with
      | refl => exact hw
      | tail _ hlast ih => exact hlast ih

/-- Nobody comes to listen who is told a message, but the monitor and those who have listened. -/
theorem listeners_deliverAll {ls : List Listener} (hP : P .monitor) (message : ConsoleMessage)
    (hls : ∀ l ∈ ls, P l) (hw : ∀ l ∈ w.audience, P l) :
    ∀ l ∈ (exec (deliverAll (.console message) ls) w).2.audience, P l := by
  induction ls generalizing w with
  | nil => exact hw
  | cons l ls ih =>
      have hfirst := listeners_deliver hP (hls l (List.mem_cons_self ..)) message hw
      unfold deliverAll
      rw [exec_bind]
      rcases hexec : exec (deliver (.console message) l) w with ⟨fault | _, w₁⟩
      · rw [hexec] at hfirst
        exact hfirst
      · rw [hexec] at hfirst
        exact ih (fun l' hl' => hls l' (List.mem_cons_of_mem _ hl')) hfirst

end Engine

namespace World

/-- What is done at once brings nobody but the monitor to listen. -/
theorem Doing.listeners (h : w.Doing w') (hP : P .monitor) (hw : ∀ l ∈ w.audience, P l) :
    ∀ l ∈ w'.audience, P l := by
  cases h with
  | act hact haside => exact haside.listeners hP hw
  | tell message => exact Engine.listeners_deliverAll hP message hw hw

theorem Sets.listeners (h : w.Sets w') (hP : P .monitor) (hw : ∀ l ∈ w.audience, P l) :
    ∀ l ∈ w'.audience, P l := by
  induction h with
  | refl => exact hw
  | tail _ hlast ih =>
      cases hlast with
      | act h => exact h.listeners hP ih
      | set f h => exact ih

theorem Undertakes.listeners (h : w.Undertakes w') (hP : P .monitor) (hw : ∀ l ∈ w.audience, P l) :
    ∀ l ∈ w'.audience, P l := by
  obtain ⟨w₁, w₂, hbefore, hsets, hafter⟩ := h
  have hbefore' : w₁.audience = w.audience := congrArg (·.listenersOf "console") hbefore.site
  have hafter' : w'.audience = w₂.audience := congrArg (·.listenersOf "console") hafter.site
  rw [hafter']
  exact hsets.listeners hP (hbefore' ▸ hw)

theorem Undertakes.waits (h : w.Undertakes w') : w'.waits = w.waits := by
  obtain ⟨w₁, w₂, hbefore, hsets, hafter⟩ := h
  rw [hafter.waits, hsets.steady.waits, hbefore.waits]

end World

/-! ## Rules -/

variable {head : Head} {turn : Turn}

/-- Nobody comes to listen by what is asked of the scheduler, but a wait that begins. -/
theorem Asks.site_or_hear (h : Asks head w turn w') : (w'.site = w.site ∧ w'.waits = w.waits) ∨
    ∃ timeout matchers, head = .work (.hear timeout matchers) ∧ w' = w.hearing timeout matchers := by
  cases h with
  | hear => exact .inr ⟨_, _, rfl, rfl⟩
  | together hsubs hrun =>
      rw [World.spawnAll_world hrun]
      exact .inl ⟨rfl, rfl⟩
  | sleep | cancelled | heard | start | opened => exact .inl ⟨rfl, rfl⟩

theorem Listener.Known.mono {n n' : Nat} {l : Listener} (h : l.Known n) (hle : n ≤ n') : l.Known n' := by
  cases l with
  | monitor => trivial
  | wait k => exact Nat.lt_of_lt_of_le h hle
  | loads => exact h

/-- A rule brings those to listen that there are. -/
theorem Rule.listeners (h : Rule head w turn w') (hw : ∀ l ∈ w.audience, l.Known w.waits.length) :
    (∀ l ∈ w'.audience, l.Known w'.waits.length) ∧ w.waits.length ≤ w'.waits.length := by
  rcases h.aside_or_asks with hdoes | ⟨k, hk, rfl⟩ | hasks
  · rw [hdoes.waits]
    exact ⟨hdoes.listeners trivial hw, Nat.le_refl _⟩
  · refine ⟨fun l hl => hw l ?_, Nat.le_refl _⟩
    exact List.mem_of_mem_filter (World.audience_unhear w (.wait k) ▸ hl)
  · rcases hasks.site_or_hear with ⟨hsite, hwaits⟩ | ⟨timeout, matchers, rfl, rfl⟩
    · rw [hwaits]
      have haudience : w'.audience = w.audience := congrArg (·.listenersOf "console") hsite
      exact ⟨haudience ▸ hw, Nat.le_refl _⟩
    · have hlength : (w.hearing timeout matchers).waits.length = w.waits.length + 1 :=
        List.length_append
      refine ⟨fun l hl => ?_, by rw [hlength]; exact Nat.le_succ _⟩
      have haudience : (w.hearing timeout matchers).audience = w.audience ++ [.wait w.waits.length] :=
        World.audience_hear w (.wait w.waits.length)
      rw [haudience] at hl
      rcases List.mem_append.mp hl with hl | hl
      · exact (hw l hl).mono (by rw [hlength]; exact Nat.le_succ _)
      · rw [List.mem_singleton.mp hl, hlength]
        exact Nat.lt_succ_self _

/-- The frames that a rule puts in the place of one belong to waits that there are. -/
theorem Rule.numbers (h : Rule head w turn w')
    (hhead : ∀ k, head.first.number? = some k → k < w.waits.length) :
    ∀ f ∈ turn.frames, ∀ k, f.number? = some k → k < w'.waits.length := by
  rcases h.quiet_or_asks with ⟨-, -, hplain⟩ | hasks
  · intro f hf k hk
    rw [(Frame.foreign_of_plain (hplain f hf) 0).2] at hk
    cases hk
  · cases hasks with
    | sleep | start | cancelled | together | opened => simp [Turn.frames, Frame.number?]
    | @hear timeout matchers =>
        have hlength : (w.hearing timeout matchers).waits.length = w.waits.length + 1 :=
          List.length_append
        intro f hf k hk
        rw [List.mem_singleton.mp hf] at hk
        cases hk
        rw [hlength]
        exact Nat.lt_succ_self _
    | heard =>
        intro f hf k hk
        rw [List.mem_singleton.mp hf] at hk
        exact hhead k hk

/-! ## Machines -/

namespace Machine

variable {m m' : Machine}

/-- What holds of a machine whatever may have happened to it: everybody who waits is served in time, no
task is stopped that has its turn, timers stand in their order, and what is released or listens is
something that there is. -/
structure Orderly (m : Machine) : Prop where
  tidy : m.Tidy
  prompt : m.Prompt
  unhurt : m.Unhurt
  sorted : m.world.scheduler.Sorted
  releases : m.world.scheduler.Releases (· < m.world.scheduler.futures.length)
  listeners : ∀ l ∈ m.world.audience, l.Known m.world.waits.length
  numbers : ∀ u fs, m.frames u = some fs → ∀ f ∈ fs, ∀ k, f.number? = some k →
    k < m.world.waits.length

/-- What is handled between two turns brings nobody but the monitor to listen. -/
theorem listeners_handle (handle : Handle Job) (w : World) (hP : P .monitor)
    (hw : ∀ l ∈ w.audience, P l) :
    (∀ l ∈ (Machine.handle w handle).world.audience, P l) ∧
      (Machine.handle w handle).world.waits = w.waits := by
  by_cases hjob : ∃ job, handle = .job job
  · obtain ⟨job, rfl⟩ := hjob
    have hacts : w.Acts (Machine.handle w (.job job)).world := by
      cases job with
      | act actions => exact (Engine.acting_perform actions).acts _
      | expire error => exact World.acts_tell _ (.expired error)
    exact ⟨hacts.sets.listeners hP hw, hacts.steady.waits⟩
  · rw [world_handle fun job heq => hjob ⟨job, heq⟩]
    exact ⟨hw, rfl⟩

/-- Whatever happens brings those to listen that there are. -/
theorem Happens.listeners (h : m.Happens m') (hw : ∀ l ∈ m.world.audience, l.Known m.world.waits.length) :
    (∀ l ∈ m'.world.audience, l.Known m'.world.waits.length) ∧
      m.world.waits.length ≤ m'.world.waits.length := by
  cases h with
  | cancel => exact ⟨hw, Nat.le_refl _⟩
  | step hstep =>
      rcases step_cases hstep with ⟨t, head, stack, turn, w', hcurrent, hrule, rfl⟩ |
        ⟨t, o, hcurrent, rfl⟩ | ⟨handle, s, hidle, hnext, rfl⟩
      · rw [world_follow]
        exact hrule.listeners hw
      · exact ⟨hw, Nat.le_refl _⟩
      · obtain ⟨hlisteners, hwaits⟩ :=
          listeners_handle handle { m.world with scheduler := s } (P := (·.Known m.world.waits.length))
            trivial hw
        rw [hwaits]
        exact ⟨hlisteners, Nat.le_refl _⟩

/-- Whoever is cancelled from outside is served in time. -/
theorem Prompt.happens (h : m.Prompt) (hm : m.Sound) (hhappens : m.Happens m') : m'.Prompt := by
  cases hhappens with
  | step hstep => exact h.step hm hstep
  | cancel hidle hk =>
      have hsteps := hm.cancelSteps hk
      refine h.of_proceeds hsteps.proceeds fun t f hf => .inl ?_
      rwa [← hsteps.sameWaits.awaiting]

/-- Whatever happens keeps the invariant. -/
theorem Happens.orderly (h : m.Happens m') (hm : m.Orderly) : m'.Orderly := by
  have hsound := hm.tidy.sound
  have htidy := h.tidy hm.tidy
  obtain ⟨hlisteners, hwaits⟩ := h.listeners hm.listeners
  refine ⟨htidy, hm.prompt.happens hsound h, ?_, h.sorted hsound hm.sorted, h.releases hsound hm.releases,
    hlisteners, fun u fs hfs f hf k hk => ?_⟩
  · cases h with
    | step hstep =>
        obtain ⟨parent, hkin⟩ := hm.tidy.kin
        exact hm.unhurt.step hsound hkin htidy.retires hstep
    | cancel => rintro t c ⟨⟩
  · rcases h.moves_or_leaves hsound with ⟨t, head, stack, turn, new, w', hmoves⟩ | hleaves
    · rcases hmoves.mem_frames hfs hf with ⟨-, hf⟩ | ⟨fs, hfs, hf⟩ | ⟨work, rfl, -⟩
      · have hnumbers := hmoves.rule.numbers
          (hm.numbers t _ hmoves.before _ (List.mem_cons_self ..)) f hf k hk
        rw [hmoves.follows, world_follow]
        exact hnumbers
      · exact Nat.lt_of_lt_of_le (hm.numbers u fs hfs f hf k hk) hwaits
      · cases hk
    · rw [hleaves.frames] at hfs
      exact Nat.lt_of_lt_of_le (hm.numbers u fs hfs f hf k hk) hwaits

theorem Course.orderly (h : m.Course m') (hm : m.Orderly) : m'.Orderly := by
  induction h with
  | refl => exact hm
  | tail _ hlast ih => exact hlast.orderly ih

end Machine

/-- A machine is orderly at the beginning, where nobody listens to the console yet. -/
theorem World.Fresh.orderly (h : w.Fresh) (haudience : w.audience = []) (work : Work) :
    (Machine.ofWork w work).2.Orderly := by
  have hruns := h.runs work
  have hscheduler : (Machine.ofWork w work).2.world.scheduler =
      (Scheduler.empty.newTask ([] : List Frame)).2 := by
    rw [← h.scheduler]
    rfl
  refine ⟨hruns.tidy, hruns.prompt, hruns.unhurt, ?_, ?_, ?_, ?_⟩
  · rw [hscheduler]
    exact List.Pairwise.nil
  · rw [hscheduler]
    refine ⟨fun f g hg => ?_, fun g hg => ?_⟩
    · change .release g ∈ (Scheduler.empty.newFuture _).2.watchers f at hg
      rw [Scheduler.watchers_newFuture] at hg
      cases hg
    · cases hg
  · intro l hl
    change l ∈ w.audience at hl
    rw [haudience] at hl
    cases hl
  · intro u fs hfs f hf k hk
    rw [h.frames] at hfs
    split at hfs
    · cases hfs
      rw [List.mem_singleton.mp hf] at hk
      cases hk
    · cases hfs

end HotSpec
