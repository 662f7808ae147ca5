import HotSpec.Proofs.Expectation.Trace

/-!
# How the pending expectations are opened

Before the page is loaded a single task resolves commands of the first phase, and nothing is pending.
The environment starts anew at most once, and all expectations become pending when it has done so.

Main definitions:

- `Frame.isEarly`: frames of the first phase.
- `Machine.Preparing`, `Machine.Opened`: machines before and after the expectations became pending.

Main result:

- Theorem `Reaches.preparing_or_opened`: every machine that can be reached is one of the two.
-/

namespace HotSpec

/-! ## Frames of the first phase -/

/-- Whether a deed is done by the environment on its own. -/
def Deed.isChore : Deed → Bool
  | .chore _ => true
  | _ => false

/-- Work that is done before the page is loaded. -/
def Work.isEarly : Work → Bool
  | .script | .start _ | .sleep _ | .await _ => true
  | .resume p _ _ | .process p _ => p = .phase .prepare
  | .deeds ds => ds.all Deed.isChore
  | _ => false

/-- Frames that are there before the page is loaded. -/
def Frame.isEarly : Frame → Bool
  | .begin work => work.isEarly
  | .forget | .prepared | .reset _ | .slept _ | .give _ | .body _ | .during .. => true
  | .answer p _ => p = .phase .prepare
  | .deeds ds => ds.all Deed.isChore
  | _ => false

/-- Whether a frame waits for the environment to start anew. -/
def Frame.isReset : Frame → Bool
  | .reset _ => true
  | _ => false

theorem Calls.isReset {head : Head} {frames : List Frame} (h : Calls head frames) :
    ∀ f ∈ frames, f.isReset = false := by
  cases h with
  | opened h => cases h <;> simp [Frame.isReset]
  | _ => simp [Frame.isReset]

theorem Calls.isEarly {head : Head} {frames : List Frame} (h : Calls head frames)
    (hearly : head.first.isEarly = true) : ∀ f ∈ frames, f.isEarly = true := by
  cases h <;> simp_all [Head.first, Frame.isEarly, Work.isEarly, Deed.isChore]

theorem Commands.isEarly {c : Command} {frames : List Frame} (h : Commands .prepare c frames) :
    ∀ f ∈ frames, f.isEarly = true := by
  cases h <;> simp [Frame.isEarly, Work.isEarly]

theorem Commands.isReset {phase : Phase} {c : Command} {frames : List Frame}
    (h : Commands phase c frames) : ∀ f ∈ frames, f.isReset = false := by
  cases h <;> simp [Frame.isReset]

theorem resumed_isEarly (g : Nat) (adv : Advance) :
    ∀ f ∈ (resumed (.phase .prepare) g adv).frames, f.isEarly = true := by
  unfold resumed
  split <;> simp [Turn.reply, Turn.frames, Frame.isEarly, Work.isEarly]

theorem resumed_isReset (p : Processor) (g : Nat) (adv : Advance) :
    ∀ f ∈ (resumed p g adv).frames, f.isReset = false := by
  unfold resumed
  split <;> simp [Turn.reply, Turn.frames, Frame.isReset]

/-! ## Rules of the first phase -/

/-- What a rule does to the start of the run phase: nothing, or the environment is asked to start
anew for the first time. -/
theorem Rule.resets {head : Head} {w w' : World} {turn : Turn} (h : Rule head w turn w') :
    ((∀ f ∈ turn.frames, f.isReset = false) ∧ w'.session.started = w.session.started) ∨
      w.session.started = false ∧ w'.session.started = true ∧
        turn.frames.countP Frame.isReset = 1 := by
  have hgive (o : Outcome) : ∀ f ∈ (Turn.give o).frames, f.isReset = false := by
    simp [Turn.frames]
  cases h with
  | asks h =>
      cases h with
      | start hstarted => exact .inr ⟨hstarted, rfl, rfl⟩
      | together hsubs hrun =>
          refine .inl ⟨by simp [Turn.frames, Frame.isReset], ?_⟩
          rw [World.spawnAll_world hrun]
          rfl
      | _ => exact .inl ⟨by simp [Turn.frames, Frame.isReset], rfl⟩
  | reply r hhead h => exact .inl ⟨hgive _, h.steady.session.started⟩
  | pass hf h => exact .inl ⟨hgive _, h.steady.session.started⟩
  | call hcall h => exact .inl ⟨hcall.isReset, h.steady.session.started⟩
  | resume h => exact .inl ⟨resumed_isReset _ _ _, h.steady.session.started⟩
  | answered r hp hy hc h => exact .inl ⟨hgive _, h.steady.session.started⟩
  | commanded hp hy hcall h => exact .inl ⟨hcall.isReset, h.steady.session.started⟩
  | load h =>
      exact .inl ⟨by simp [Turn.frames, Frame.isReset], h.steady.session.started⟩
  | ready hlabel h =>
      refine .inl ⟨?_, rfl⟩
      cases h <;> simp [Turn.frames, Frame.isReset]
  | @raced o => cases o <;> exact .inl ⟨hgive _, rfl⟩
  | _ => exact .inl ⟨by simp [Turn.frames, Turn.done, Move.lastLabel, Frame.isReset], rfl⟩

/-- In the first phase frames of the first phase come after each other, and nothing becomes pending
until the environment has started anew. -/
theorem Rule.early {head : Head} {w w' : World} {turn : Turn} (h : Rule head w turn w')
    (hearly : head.first.isEarly = true)
    (hreset : ∀ first v, head ≠ .frame (.reset first) (.value v)) :
    (∀ f ∈ turn.frames, f.isEarly = true) ∧ w.SameQueue w' := by
  have hgive (o : Outcome) : ∀ f ∈ (Turn.give o).frames, f.isEarly = true := by
    simp [Turn.frames]
  have hphase {p : Processor} {phase : Phase} {y : Yielded}
      (hfirst : (Head.work (.process p y)).first.isEarly = true) (hp : p.phase? = some phase) :
      phase = .prepare := by
    have heq : p = .phase .prepare := by simpa [Head.first, Frame.isEarly, Work.isEarly] using hfirst
    rw [heq] at hp
    exact (Option.some.inj hp).symm
  cases h with
  | asks h =>
      cases h with
      | sleep => exact ⟨by simp [Turn.frames], rfl, rfl, rfl, rfl, id⟩
      | start hstarted =>
          refine ⟨?_, w.sameQueue_starting⟩
          simp [Turn.frames, Frame.isEarly, Work.isEarly, Environment.resetDeeds, Deed.isChore]
      | opened => exact absurd rfl (hreset _ _)
      | _ => cases hearly
  | reply r hhead h => exact ⟨hgive _, .of_steady h.steady⟩
  | pass hf h => exact ⟨hgive _, .of_steady h.steady⟩
  | call hcall h => exact ⟨hcall.isEarly hearly, .of_steady h.steady⟩
  | @resume p g reply adv _ _ h =>
      have heq : p = .phase .prepare := by simpa [Head.first, Frame.isEarly, Work.isEarly] using hearly
      rw [heq]
      exact ⟨resumed_isEarly g adv, .of_steady h.steady⟩
  | answered r hp hy hc h =>
      exact ⟨hgive _, (w.sameQueue_handled hc).trans (.of_steady h.steady)⟩
  | commanded hp hy hcall h =>
      have heq := hphase hearly hp
      subst heq
      refine ⟨hcall.isEarly, ?_⟩
      exact (w.sameQueue_handled fun _ => hcall.type_ne_discard).trans (.of_steady h.steady)
  | discarded hp hy hc => cases hphase hearly hp
  | pause => exact ⟨by simp [Turn.frames], .refl w⟩
  | _ => cases hearly

/-- Before the page is loaded nothing says that it is ready, or that the run phase has ended. -/
theorem not_of_early {head : Head} (hearly : head.first.isEarly = true) :
    ¬Event.ready.isOf head = true ∧ ¬Event.passed.isOf head = true := by
  cases head with
  | work work =>
      refine ⟨?_, by simp [Event.isOf]⟩
      cases work <;> simp [Event.isOf]
      cases hearly
  | frame f o =>
      refine ⟨by simp [Event.isOf], ?_⟩
      cases f <;> cases o <;> simp [Event.isOf]
      cases hearly

/-! ## Machines before and after -/

namespace World

/-- Worlds with the same history and the same session have the same pending expectations. -/
theorem SameQueue.of_eq {w w₁ w₂ : World} (h : w.SameQueue w₁) (hsession : w₂.session = w₁.session)
    (hhistory : w₂.history = w₁.history) : w.SameQueue w₂ where
  pending := by rw [hsession, h.pending]
  popped := (trace_congr _ hhistory).trans h.popped
  openings := (trace_congr _ hhistory).trans h.openings
  discards := (trace_congr _ hhistory).trans h.discards
  expects hnodup := by
    rw [hsession]
    exact h.expects hnodup

end World

namespace Machine

/-- A machine before the expectations become pending. -/
structure Preparing (m : Machine) : Prop where
  tasks : m.world.scheduler.tasks.length = 1
  early : ∀ fs, m.frames 0 = some fs → ∀ f ∈ fs, f.isEarly = true
  /-- The environment is asked to start anew at most once. -/
  resets : ∀ fs, m.frames 0 = some fs →
    fs.countP Frame.isReset ≤ if m.world.session.started then 1 else 0
  pending : m.world.session.pending = none
  popped : m.world.popped = []
  openings : m.world.openings = []
  discards : m.world.discards = []
  expects : m.world.session.expects.keys.Nodup
  /-- The page is not ready yet, and the run phase has not ended. -/
  fresh : .ready ∉ m.world.events ∧ .passed ∉ m.world.events

/-- A machine after the expectations of some labels became pending. -/
structure Opened (m : Machine) (labels : List String) : Prop where
  started : m.world.session.started = true
  resets : ∀ t fs, m.frames t = some fs → ∀ f ∈ fs, f.isReset = false
  openings : m.world.openings = [labels]
  nodup : labels.Nodup
  /-- Labels are taken from the front: those that were taken come before those that are pending. -/
  queue : ∃ rest, labels = m.world.popped ++ rest ∧
    (m.world.session.pending = none ∨ m.world.session.pendingLabels = some rest)
  discarded : m.world.discards ≠ [] → m.world.session.pending = none

/-- The environment has started anew, and the task that asked for it has its turn. -/
def IsReset (m : Machine) : Prop :=
  ∃ t first v stack, m.current = some (t, .outcome (.value v) (.reset first :: stack))

variable {m m' : Machine}

theorem Preparing.of_same (h : m.Preparing) (hqueue : m.world.SameQueue m'.world)
    (htasks : m'.world.scheduler.tasks.length = 1)
    (hearly : ∀ fs, m'.frames 0 = some fs → ∀ f ∈ fs, f.isEarly = true)
    (hresets : ∀ fs, m'.frames 0 = some fs →
      fs.countP Frame.isReset ≤ if m'.world.session.started then 1 else 0)
    (hfresh : .ready ∉ m'.world.events ∧ .passed ∉ m'.world.events) : m'.Preparing where
  tasks := htasks
  early := hearly
  resets := hresets
  pending := hqueue.pending.trans h.pending
  popped := hqueue.popped.trans h.popped
  openings := hqueue.openings.trans h.openings
  discards := hqueue.discards.trans h.discards
  expects := hqueue.expects h.expects
  fresh := hfresh

/-- Where the environment was asked to start anew, the run phase has started. -/
theorem Preparing.started {first : Option Command} {stack : List Frame} (h : m.Preparing)
    (hframes : m.frames 0 = some (.reset first :: stack)) : m.world.session.started = true := by
  have hresets := h.resets _ hframes
  rw [List.countP_cons_of_pos (by rfl)] at hresets
  by_contra hnot
  rw [if_neg hnot] at hresets
  exact Nat.not_succ_le_zero _ hresets

/-- Once the environment has started anew, the load of the page is the only other task. -/
theorem Preparing.frames_iff {first : Option Command} {v : Value} {stack : List Frame} {turn : Turn}
    {new : List (List Frame)} {w' : World} (h : m.Preparing)
    (hmoves : m.Moves 0 (.frame (.reset first) (.value v)) stack turn new w' m') {u : TaskId}
    (hu : u ≠ 0) {fs : List Frame} :
    m'.frames u = some fs ↔ u = 1 ∧ fs = [.begin (.load first)] := by
  have hle : 1 ≤ u := Nat.one_le_iff_ne_zero.mpr hu
  rw [hmoves.frames, if_neg hu, h.tasks, if_neg (Nat.not_lt.mpr hle), hmoves.spawns.of_reset]
  by_cases hone : u = 1
  · subst hone
    simp [eq_comm]
  · have hlt : 1 < u := Nat.lt_of_le_of_ne hle (Ne.symm hone)
    rw [List.getElem?_eq_none (Nat.sub_pos_of_lt hlt)]
    simp [hone]

/-- Once the environment has started anew, all expectations become pending. -/
theorem Preparing.opened {first : Option Command} {v : Value} {stack : List Frame} {turn : Turn}
    {new : List (List Frame)} {w' : World} (h : m.Preparing)
    (hmoves : m.Moves 0 (.frame (.reset first) (.value v)) stack turn new w' m') :
    m'.Opened m.world.session.expects.keys := by
  have hresets := h.resets _ hmoves.before
  rw [List.countP_cons_of_pos (by rfl)] at hresets
  have hstarted := h.started hmoves.before
  rw [if_pos hstarted] at hresets
  have hstack : ∀ f ∈ stack, f.isReset = false := by
    have hzero := List.countP_eq_zero.mp (Nat.le_zero.mp (Nat.le_of_succ_le_succ hresets))
    intro f hf
    simpa using hzero f hf
  have hturn : ∀ f ∈ turn.frames, f.isReset = false := by
    cases World.asks_of_reset hmoves.rule with
    | opened => simp [Turn.frames, Frame.isReset]
  have hqueue : w'.session.pending = some m.world.session.expects ∧
      w'.openings = m.world.openings ++ [m.world.session.expects.keys] ∧
      w'.popped = m.world.popped ∧ w'.discards = m.world.discards ∧
      w'.session.started = m.world.session.started := by
    cases World.asks_of_reset hmoves.rule with
    | opened =>
        obtain ⟨hpending, hopenings, hpopped, hdiscards⟩ := m.world.opens_racing first
        exact ⟨hpending, hopenings, hpopped, hdiscards, rfl⟩
  obtain ⟨hpending, hopenings, hpopped, hdiscards, hkeep⟩ := hqueue
  have hpopped' : m'.world.popped = [] :=
    (World.trace_congr _ hmoves.history).trans (hpopped.trans h.popped)
  refine ⟨?_, ?_, ?_, h.expects, ⟨m.world.session.expects.keys, ?_, .inr ?_⟩, ?_⟩
  · rw [hmoves.session, hkeep]
    exact hstarted
  · intro t fs hfs f hf
    by_cases ht : t = 0
    · subst ht
      cases hmoves.frames_self.symm.trans hfs
      rcases List.mem_append.mp hf with hf | hf
      · exact hturn f hf
      · exact hstack f hf
    · obtain ⟨-, rfl⟩ := (h.frames_iff hmoves ht).mp hfs
      rw [List.mem_singleton.mp hf]
      rfl
  · refine (World.trace_congr _ hmoves.history).trans (hopenings.trans ?_)
    rw [h.openings]
    rfl
  · rw [hpopped']
    rfl
  · rw [hmoves.session]
    unfold Session.pendingLabels
    rw [hpending]
    rfl
  · intro hne
    have hnil : m'.world.discards = [] :=
      (World.trace_congr _ hmoves.history).trans (hdiscards.trans h.discards)
    exact absurd hnil hne

/-- Before the expectations become pending, a step leaves it at that, or makes them pending once the
environment has started anew. -/
theorem Preparing.step (h : m.Preparing) (hm : m.Sound) (hstep : m.step = some m') :
    ¬m.IsReset ∧ m'.Preparing ∨ m.IsReset ∧ m'.Opened m.world.session.expects.keys := by
  rcases hm.moves_or_rests hstep with ⟨t, head, stack, turn, new, w', hmoves⟩ | hrests
  · have ht : t = 0 := by
      have hlt := hmoves.lt hm
      rw [h.tasks] at hlt
      exact Nat.lt_one_iff.mp hlt
    subst ht
    have hhead := h.early _ hmoves.before head.first (List.mem_cons_self ..)
    by_cases hreset : ∃ first v, head = .frame (.reset first) (.value v)
    · obtain ⟨first, v, rfl⟩ := hreset
      exact .inr ⟨⟨0, first, v, stack, hmoves.current⟩, h.opened hmoves⟩
    · have hnot (first : Option Command) (v : Value) : head ≠ .frame (.reset first) (.value v) :=
        fun heq => hreset ⟨first, v, heq⟩
      obtain ⟨hearly, hsame⟩ := hmoves.rule.early hhead hnot
      have hnew : new = [] := by
        cases hmoves.spawns with
        | none => rfl
        | subs => cases hhead
        | load => exact absurd rfl (hnot _ _)
      have hframes : m'.frames 0 = some (turn.frames ++ stack) := by
        rw [hmoves.frames_self]
      refine .inl ⟨?_, h.of_same (hsame.of_eq hmoves.session hmoves.history) ?_ ?_ ?_ ?_⟩
      · rintro ⟨u, first, v, fs, hcurrent⟩
        exact hnot first v (hmoves.head_eq hcurrent).2.1
      · rw [hmoves.grows.tasks, h.tasks, hnew]
        rfl
      · intro fs hfs f hf
        rw [hframes] at hfs
        cases hfs
        rcases List.mem_append.mp hf with hf | hf
        · exact hearly f hf
        · exact h.early _ hmoves.before f (List.mem_cons_of_mem _ hf)
      · intro fs hfs
        rw [hframes] at hfs
        cases hfs
        rw [List.countP_append, hmoves.session]
        have hstack : stack.countP Frame.isReset ≤ if m.world.session.started then 1 else 0 := by
          refine Nat.le_trans ?_ (h.resets _ hmoves.before)
          rw [List.countP_cons]
          exact Nat.le_add_right _ _
        rcases hmoves.rule.resets with ⟨hnone, hstarted⟩ | ⟨hbefore, hafter, hone⟩
        · have hzero : turn.frames.countP Frame.isReset = 0 := by
            rw [List.countP_eq_zero]
            intro f hf
            simp [hnone f hf]
          rw [hzero, Nat.zero_add, hstarted]
          exact hstack
        · rw [hbefore] at hstack
          rw [hone, hafter, Nat.le_zero.mp hstack]
          exact Nat.le_refl 1
      · exact ⟨fun he => (hmoves.mem_events he).elim h.fresh.1 (not_of_early hhead).1,
          fun he => (hmoves.mem_events he).elim h.fresh.2 (not_of_early hhead).2⟩
  · refine .inl ⟨?_, h.of_same (.of_minor hrests.session hrests.history) ?_ ?_ ?_ ?_⟩
    · rintro ⟨u, first, v, fs, hcurrent⟩
      exact hrests.not_frame hcurrent
    · rw [hrests.grows.tasks, h.tasks]
    · intro fs hfs
      rw [hrests.frames] at hfs
      exact h.early fs hfs
    · intro fs hfs
      rw [hrests.frames] at hfs
      rw [hrests.session.started]
      exact h.resets fs hfs
    · refine ⟨fun he => ?_, fun he => ?_⟩
      · exact (hrests.mem_events he).elim h.fresh.1 (by simp [Event.isMinor])
      · exact (hrests.mem_events he).elim h.fresh.2 (by simp [Event.isMinor])

/-- After the expectations became pending, new tasks run subs. -/
theorem Opened.begins {labels : List String} {t : TaskId} {head : Head} {stack : List Frame}
    {turn : Turn} {new : List (List Frame)} {w' : World} (h : m.Opened labels)
    (hmoves : m.Moves t head stack turn new w' m') {fs : List Frame} (hnew : fs ∈ new) :
    ∃ p sub, fs = [.begin (.sub p sub)] := by
  cases hmoves.spawns with
  | none => cases hnew
  | subs =>
      obtain ⟨sub, -, rfl⟩ := List.mem_map.mp hnew
      exact ⟨_, sub, rfl⟩
  | load => cases h.resets t _ hmoves.before _ (List.mem_cons_self ..)

/-- After the expectations became pending, a step takes labels from the front or drops all of them. -/
theorem Opened.step {labels : List String} (h : m.Opened labels) (hm : m.Sound)
    (hstep : m.step = some m') : m'.Opened labels := by
  rcases hm.moves_or_rests hstep with ⟨t, head, stack, turn, new, w', hmoves⟩ | hrests
  · have hfirst := h.resets t _ hmoves.before head.first (List.mem_cons_self ..)
    have hresets := hmoves.rule.resets
    rw [h.started] at hresets
    have hresets := hresets.resolve_right fun hno => by cases hno.1
    have hpopped : m'.world.popped = w'.popped := World.trace_congr _ hmoves.history
    have hopenings : m'.world.openings = w'.openings := World.trace_congr _ hmoves.history
    have hdiscards : m'.world.discards = w'.discards := World.trace_congr _ hmoves.history
    obtain ⟨rest, hrest, hpending⟩ := h.queue
    have hstarted : m'.world.session.started = true := by rw [hmoves.session, hresets.2]
    have hframes : ∀ t fs, m'.frames t = some fs → ∀ f ∈ fs, f.isReset = false := by
      intro u fs hfs f hf
      rcases hmoves.mem_frames hfs hf with ⟨-, hf⟩ | ⟨fs, hfs, hf⟩ | ⟨work, -, hnew⟩
      · exact hresets.1 f hf
      · exact h.resets u fs hfs f hf
      · obtain ⟨p, sub, heq⟩ := h.begins hmoves hnew
        cases heq
        rfl
    cases queueStep_rule hmoves.rule with
    | same hsame =>
        refine ⟨hstarted, hframes, hopenings.trans (hsame.openings.trans h.openings), h.nodup,
          ⟨rest, ?_, ?_⟩, ?_⟩
        · rw [hpopped, hsame.popped]
          exact hrest
        · rw [hmoves.session]
          unfold Session.pendingLabels
          rw [hsame.pending]
          exact hpending
        · rw [hdiscards, hsame.discards, hmoves.session, hsame.pending]
          exact h.discarded
    | opens => cases hfirst
    | @pops until? already last label e queue _ _ _ hbefore hafter hpop hopen hdisc =>
        have hlabels : rest = label :: queue.map Prod.fst := by
          rcases hpending with hnone | hsome
          · rw [hnone] at hbefore
            cases hbefore
          · unfold Session.pendingLabels at hsome
            rw [hbefore] at hsome
            exact (Option.some.inj hsome).symm
        refine ⟨hstarted, hframes, hopenings.trans (hopen.trans h.openings), h.nodup,
          ⟨queue.map Prod.fst, ?_, .inr ?_⟩, ?_⟩
        · rw [hpopped, hpop, hrest, hlabels]
          simp
        · rw [hmoves.session]
          unfold Session.pendingLabels
          rw [hafter]
          rfl
        · intro hne
          rw [hdiscards, hdisc] at hne
          rw [h.discarded hne] at hbefore
          cases hbefore
    | discards hafter hdisc hpop hopen =>
        refine ⟨hstarted, hframes, hopenings.trans (hopen.trans h.openings), h.nodup,
          ⟨rest, ?_, .inl ?_⟩, ?_⟩
        · rw [hpopped, hpop]
          exact hrest
        · rw [hmoves.session]
          exact hafter
        · intro _
          rw [hmoves.session]
          exact hafter
    | refuses fault hafter hpop hopen hdisc =>
        refine ⟨hstarted, hframes, hopenings.trans (hopen.trans h.openings), h.nodup,
          ⟨rest, ?_, .inl ?_⟩, ?_⟩
        · rw [hpopped, hpop]
          exact hrest
        · rw [hmoves.session]
          exact hafter
        · intro _
          rw [hmoves.session]
          exact hafter
  · have hsame := World.SameQueue.of_minor hrests.session hrests.history
    obtain ⟨rest, hrest, hpending⟩ := h.queue
    refine ⟨hrests.session.started.trans h.started, ?_, hsame.openings.trans h.openings, h.nodup,
      ⟨rest, ?_, ?_⟩, ?_⟩
    · intro t fs hfs
      rw [hrests.frames] at hfs
      exact h.resets t fs hfs
    · rw [hsame.popped]
      exact hrest
    · unfold Session.pendingLabels
      rw [hsame.pending]
      exact hpending
    · rw [hsame.discards, hsame.pending]
      exact h.discarded

end Machine

end HotSpec
