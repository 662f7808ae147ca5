import HotSpec.Proofs.Engine.Spared
import HotSpec.Proofs.Expectation.Opening

/-!
# The race of the page against its failures

The task that has started the run phase waits for the load of the page, for the verdict of the
monitor and for the fail signal, and goes on once one of them has failed or all are settled.  So the
run phase ends without a failure only if the load has come to a value.

Main definitions:

- `World.Heeds`: the futures by which a page can fail the test.
- `World.Won`: whether a race is over without a failure.
- `Machine.Race`: how far the race is.

Main results:

- Theorem `Preparing.racing`: a race begins when the environment has started anew.
- Theorem `Racing.step`: a race that has passed is won.
-/

namespace HotSpec

/-! ## Frames -/

/-- Whether a frame waits for the end of a race. -/
def Frame.isRaced : Frame → Bool
  | .raced => true
  | _ => false

theorem Frame.not_raced_of_plain {f : Frame} (h : f.isPlain = true) : f.isRaced = false := by
  cases f <;> first | rfl | cases h

theorem Frame.not_raced_of_early {f : Frame} (h : f.isEarly = true) : f.isRaced = false := by
  cases f <;> first | rfl | cases h

variable {head : Head} {w w' : World} {turn : Turn} {load : FutureId} {members : List FutureId}

/-- A race begins only when the environment has started anew. -/
theorem Rule.not_raced (h : Rule head w turn w')
    (hreset : ∀ first v, head ≠ .frame (.reset first) (.value v)) :
    ∀ f ∈ turn.frames, f.isRaced = false := by
  rcases h.quiet_or_asks with ⟨-, -, hplain⟩ | hasks
  · exact fun f hf => Frame.not_raced_of_plain (hplain f hf)
  · cases hasks with
    | opened => exact absurd rfl (hreset _ _)
    | _ => simp [Turn.frames, Frame.isRaced]

/-! ## What a test heeds -/

/-- The futures by which a page can fail the test: the verdict of the monitor, and the fail signal. -/
def World.Heeds (w : World) (f : FutureId) : Prop := w.verdict = some f ∨ w.failSignal = some f

/-- A rule leaves the futures that a test heeds as they are, unless the run phase starts. -/
theorem Rule.heeds (h : Rule head w turn w') :
    (w'.verdict = w.verdict ∧ w'.failSignal = w.failSignal ∧
        w'.session.started = w.session.started) ∨
      w.session.started = false ∧ w'.session.started = true := by
  rcases h.resets with ⟨-, hsame⟩ | ⟨hbefore, hafter, -⟩
  · rcases h.quiet_or_asks with ⟨hquiet, -, -⟩ | hasks
    · exact .inl ⟨hquiet.verdict, hquiet.failSignal, hsame⟩
    · cases hasks with
      | start hstarted => exact .inr ⟨hstarted, rfl⟩
      | together hsubs hrun =>
          rw [World.spawnAll_world hrun]
          exact .inl ⟨rfl, rfl, rfl⟩
      | _ => exact .inl ⟨rfl, rfl, hsame⟩
  · exact .inr ⟨hbefore, hafter⟩

/-- A race is run with all that the test heeds. -/
theorem World.mem_racers {f : FutureId} (h : w.Heeds f) : f ∈ w.racers := by
  unfold racers
  rcases h with h | h <;> rw [h] <;> simp

namespace Machine

variable {m m' : Machine}

/-- A step leaves the futures that a test heeds as they are, unless the run phase starts. -/
theorem Sound.heeds (hm : m.Sound) (hstep : m.step = some m') :
    (m'.world.verdict = m.world.verdict ∧ m'.world.failSignal = m.world.failSignal ∧
        m'.world.session.started = m.world.session.started) ∨
      m.world.session.started = false ∧ m'.world.session.started = true := by
  cases hm.change hstep with
  | rule _ hrule _ _ =>
      rw [world_follow]
      exact hrule.heeds
  | job _ _ hsteady =>
      exact .inl ⟨hsteady.verdict, hsteady.failSignal, hsteady.session.started⟩
  | _ => exact .inl ⟨rfl, rfl, rfl⟩

/-- Once the run phase has started, a step leaves the futures that a test heeds as they are. -/
theorem Sound.heeds_of_started (hm : m.Sound) (hstep : m.step = some m')
    (hstarted : m.world.session.started = true) {f : FutureId} :
    m'.world.Heeds f ↔ m.world.Heeds f := by
  unfold World.Heeds
  rcases hm.heeds hstep with ⟨hverdict, hfail, -⟩ | ⟨hnot, -⟩
  · rw [hverdict, hfail]
  · rw [hstarted] at hnot
    cases hnot

end Machine

/-! ## Outcomes -/

/-- Whether a race is over without a failure: the load has come to a value, and nothing has failed. -/
structure World.Won (w : World) (load : FutureId) (members : List FutureId) : Prop where
  value : ∃ v, w.scheduler.outcome? load = some (.value v)
  settled : ∀ i ∈ members, ∃ o, w.scheduler.outcome? i = some o ∧ o.isFault = false

theorem World.Won.mono {more : Nat} (h : w.Won load members)
    (hg : w.scheduler.Extends more w'.scheduler) : w'.Won load members where
  value := by
    obtain ⟨v, hv⟩ := h.value
    exact ⟨v, hg.settled load _ hv⟩
  settled i hi := by
    obtain ⟨o, ho, hfault⟩ := h.settled i hi
    exact ⟨o, hg.settled i o ho, hfault⟩

theorem Outcome.andThen_value {o o' : Outcome} {v : Value} (h : o.andThen o' = .value v) :
    (∃ v', o = .value v') ∧ o' = .value v := by
  cases o with
  | value v' => exact ⟨⟨v', rfl⟩, h⟩
  | stopped => cases h
  | fault f => cases h

theorem World.jointOutcome_value {results : Bool} {v : Value}
    (h : w.jointOutcome members results = .value v) :
    ∀ i ∈ members, w.scheduler.faulted i = false := by
  intro i hi
  by_contra hfault
  have hjoint : (w.jointOutcome members results).isFault = true :=
    World.jointOutcome_of_faulted hi (by simpa using hfault)
  rw [h] at hjoint
  cases hjoint

/-! ## Machines -/

/-- How far the race of the first task is. -/
inductive Machine.Race (m : Machine) (load : FutureId) (members : List FutureId) : Prop
  | waiting {rest : List Frame}
      (hframes : m.frames 0 = some (.joined members false :: .raced :: rest))
      (hrest : ∀ f ∈ rest, f.isRaced = false) (hpassed : .passed ∉ m.world.events)
  | collecting {rest : List Frame} {waited : Outcome}
      (hframes : m.frames 0 = some (.collected members false waited :: .raced :: rest))
      (hrest : ∀ f ∈ rest, f.isRaced = false) (hpassed : .passed ∉ m.world.events)
  | ending {rest : List Frame} {o : Outcome} (hcurrent : m.current = some (0, .outcome o (.raced :: rest)))
      (hrest : ∀ f ∈ rest, f.isRaced = false) (hpassed : .passed ∉ m.world.events)
      (hwon : ∀ v, o = .value v → m.world.Won load members)
  | decided (hframes : ∀ fs, m.frames 0 = some fs → ∀ f ∈ fs, f.isRaced = false)
      (hwon : .passed ∈ m.world.events → m.world.Won load members)

/-- A machine in which the page is loaded by the second task, in a race against its failures. -/
structure Machine.Racing (m : Machine) (load : FutureId) (members : List FutureId) : Prop where
  mem : load ∈ members
  kind : m.world.scheduler.kind load = .task 1
  others : ∀ t, t ≠ 0 → ∀ fs, m.frames t = some fs → ∀ f ∈ fs, f.isRaced = false
  race : m.Race load members

namespace Machine

variable {parent : TaskId → TaskId} {hit : TaskId → Prop} {m m' : Machine} {t : TaskId}
  {stack : List Frame} {new : List (List Frame)} {labels : List String}

/-- Where a race has not passed, the load is won. -/
theorem Race.won (h : m.Race load members) (hpassed : .passed ∈ m.world.events) :
    m.world.Won load members := by
  cases h with
  | waiting _ _ hnot => exact absurd hpassed hnot
  | collecting _ _ hnot => exact absurd hpassed hnot
  | ending _ _ hnot => exact absurd hpassed hnot
  | decided _ hwon => exact hwon hpassed

/-- A race begins when the environment has started anew. -/
theorem Preparing.racing {first : Option Command} {v : Value} (h : m.Preparing)
    (hmoves : m.Moves 0 (.frame (.reset first) (.value v)) stack turn new w' m') :
    m'.Racing m.world.scheduler.futures.length m.world.racers := by
  have hturn : turn.frames = [.joined m.world.racers false, .raced] := by
    cases World.asks_of_reset hmoves.rule with
    | opened => rfl
  have hload : (m.world.scheduler.spawn [.begin (.load first)]).2.kind
      m.world.scheduler.futures.length = .task 1 := by
    rw [← h.tasks]
    exact (Scheduler.kind_newTask [.begin (.load first)] _).trans (if_pos rfl)
  have hkind : w'.scheduler.kind m.world.scheduler.futures.length = .task 1 := by
    cases World.asks_of_reset hmoves.rule with
    | opened =>
        have hgrows := Scheduler.Grows.gather (m.world.scheduler.spawn [.begin (.load first)]).2
          (.firstFault m.world.racers m.world.racers.length) m.world.racers
        exact hgrows.task hload
  refine ⟨List.mem_cons_self .., (hmoves.kind _).trans hkind, ?_, ?_⟩
  · intro u hu fs hfs f hf
    obtain ⟨-, rfl⟩ := (h.frames_iff hmoves hu).mp hfs
    rw [List.mem_singleton.mp hf]
    rfl
  · refine @Machine.Race.waiting _ _ _ stack ?_ ?_ ?_
    · rw [hmoves.frames_self, hturn]
      rfl
    · intro f hf
      exact Frame.not_raced_of_early (h.early _ hmoves.before f (List.mem_cons_of_mem _ hf))
    · intro hpassed
      rcases hmoves.mem_events hpassed with hbefore | hof
      · exact h.fresh.2 hbefore
      · cases hof

/-- The wait of a race is over: with a value only if the load has come to one. -/
theorem Spared.won (h : m.Spared parent hit) {o : Outcome}
    (hmem : load ∈ members) (hload : m.world.scheduler.kind load = .task 1)
    (hframes : m.frames 0 = some (.joined members false :: stack))
    (hopen : m.world.open? members = [])
    (hvalue : ∃ v, o.andThen (m.world.jointOutcome members false) = .value v) :
    m.world.Won load members := by
  obtain ⟨v, hv⟩ := hvalue
  have hnofault := World.jointOutcome_value (Outcome.andThen_value hv).2
  have hsettled : ∀ i ∈ members, ∃ o, m.world.scheduler.outcome? i = some o ∧
      o.isFault = false := by
    intro i hi
    have hnot := List.filter_eq_nil_iff.mp hopen i hi
    rw [Scheduler.isSettled_eq] at hnot
    obtain ⟨o, ho⟩ := Option.ne_none_iff_exists'.mp (by simpa using hnot)
    refine ⟨o, ho, ?_⟩
    have hfault := hnofault i hi
    unfold Scheduler.faulted at hfault
    rw [ho] at hfault
    exact hfault
  refine ⟨?_, hsettled⟩
  obtain ⟨o, ho, hfault⟩ := hsettled load hmem
  cases o with
  | value v => exact ⟨v, ho⟩
  | fault f => cases hfault
  | stopped =>
      have hhit := h.calm.ended 1 load hload ho
      exact absurd (h.members 0 members false stack hframes load hmem 1 hload hhit) h.root

/-- A step of a task that is not the first one leaves the race. -/
theorem Race.of_frames {more : Nat} (h : m.Race load members) (hframes : m'.frames 0 = m.frames 0)
    (hcurrent : ∀ o rest, m.current ≠ some (0, .outcome o (.raced :: rest)))
    (hgrows : m.world.scheduler.Extends more m'.world.scheduler)
    (hpassed : .passed ∈ m'.world.events → .passed ∈ m.world.events) : m'.Race load members := by
  cases h with
  | waiting hfs hrest hnot =>
      exact .waiting (hframes.trans hfs) hrest fun he => hnot (hpassed he)
  | collecting hfs hrest hnot =>
      exact .collecting (hframes.trans hfs) hrest fun he => hnot (hpassed he)
  | ending hc => exact absurd hc (hcurrent _ _)
  | decided hfs hwon =>
      refine .decided ?_ fun he => (hwon (hpassed he)).mono hgrows
      intro fs hfs'
      rw [hframes] at hfs'
      exact hfs fs hfs'

/-- A step of the task that waits for the race. -/
theorem Race.moves (h : m.Race load members) (hspared : m.Spared parent hit)
    (hmem : load ∈ members) (hload : m.world.scheduler.kind load = .task 1)
    (hmoves : m.Moves 0 head stack turn new w' m')
    (hturn : ∀ f ∈ turn.frames, f.isRaced = false) : m'.Race load members := by
  have hframes := hmoves.frames_self
  have hpassed (hnot : .passed ∉ m.world.events) (hof : ¬Event.passed.isOf head = true)
      (he : .passed ∈ m'.world.events) : False :=
    (hmoves.mem_events he).elim hnot hof
  cases h with
  | waiting hfs hrest hnot =>
      obtain ⟨o, rfl, rfl⟩ := hmoves.frame_eq hfs (by simp)
      have hpassed := hpassed hnot (by simp [Event.isOf])
      have hrule := hmoves.rule
      have hnext := hmoves.next
      cases hrule with
      | pass hf => cases hf
      | reply r hhead => cases hhead
      | call hcall => cases hcall
      | joined hopen =>
          refine .ending hnext hrest hpassed ?_
          intro v hv
          exact (hspared.won hmem hload hfs hopen ⟨v, hv⟩).mono hmoves.grows
      | asks hasks =>
          cases hasks with
          | cancelled hopen => exact .collecting hframes hrest hpassed
  | @collecting rest waited hfs hrest hnot =>
      obtain ⟨o, rfl, rfl⟩ := hmoves.frame_eq hfs (by simp)
      have hpassed := hpassed hnot (by simp [Event.isOf])
      have hrule := hmoves.rule
      have hnext := hmoves.next
      cases hrule with
      | pass hf => cases hf
      | reply r hhead => cases hhead
      | call hcall => cases hcall
      | asks hasks => cases hasks
      | collected =>
          refine .ending hnext hrest hpassed ?_
          intro v hv
          -- A wait that had come to a value was followed by a failure.
          obtain ⟨-, hrest'⟩ := Outcome.andThen_value hv
          obtain ⟨⟨v', rfl⟩, hjoint⟩ := Outcome.andThen_value hrest'
          obtain ⟨i, hi, hfault⟩ :=
            (hspared.tells 0 _ hfs _ (List.mem_cons_self ..)).2 v' rfl
          rw [World.jointOutcome_value hjoint i hi] at hfault
          cases hfault
  | @ending rest o hc hrest hnot hwon =>
      obtain ⟨-, rfl, rfl⟩ := hmoves.head_eq hc
      refine .decided ?_ ?_
      · intro fs hfs f hf
        cases hframes.symm.trans hfs
        exact (List.mem_append.mp hf).elim (hturn f) (hrest f)
      · intro he
        rcases hmoves.mem_events he with hbefore | hof
        · exact absurd hbefore hnot
        · cases o with
          | value v => exact (hwon v rfl).mono hmoves.grows
          | fault f => cases hof
          | stopped => cases hof
  | decided hfs hwon =>
      refine .decided ?_ ?_
      · intro fs hfs' f hf
        rcases hmoves.mem_frames hfs' hf with ⟨-, hf⟩ | ⟨fs, hfs', hf⟩ | ⟨work, rfl, -⟩
        · exact hturn f hf
        · exact hfs fs hfs' f hf
        · rfl
      · intro he
        rcases hmoves.mem_events he with hbefore | hof
        · exact (hwon hbefore).mono hmoves.grows
        · have hfirst := hfs _ hmoves.before head.first (List.mem_cons_self ..)
          cases head with
          | work work => cases hof
          | frame f o =>
              cases f with
              | raced => cases hfirst
              | _ => cases hof

/-- A race that has passed is won. -/
theorem Racing.step (h : m.Racing load members) (hm : m.Sound) (hspared : m.Spared parent hit)
    (hopened : m.Opened labels) (hstep : m.step = some m') : m'.Racing load members := by
  rcases hm.moves_or_rests hstep with ⟨t, head, stack, turn, new, w', hmoves⟩ | hrests
  · have hreset (first : Option Command) (v : Value) : head ≠ .frame (.reset first) (.value v) := by
      rintro rfl
      have hno := hopened.resets t _ hmoves.before _ (List.mem_cons_self ..)
      cases hno
    have hturn := hmoves.rule.not_raced hreset
    refine ⟨h.mem, hmoves.grows.task h.kind, ?_, ?_⟩
    · intro u hu fs hfs f hf
      rcases hmoves.mem_frames hfs hf with ⟨-, hf⟩ | ⟨fs, hfs, hf⟩ | ⟨work, rfl, -⟩
      · exact hturn f hf
      · exact h.others u hu fs hfs f hf
      · rfl
    · by_cases ht : t = 0
      · subst ht
        exact h.race.moves hspared h.mem h.kind hmoves hturn
      · have hfirst := h.others t ht _ hmoves.before head.first (List.mem_cons_self ..)
        refine h.race.of_frames ?_ ?_ hmoves.grows ?_
        · have hlt : 0 < m.world.scheduler.tasks.length := Nat.zero_lt_of_lt (hmoves.lt hm)
          rw [hmoves.frames_of_ne (Ne.symm ht) hlt]
        · intro o rest hc
          exact ht (hmoves.head_eq hc).1
        · intro he
          refine (hmoves.mem_events he).resolve_right ?_
          intro hof
          cases head with
          | work work => cases hof
          | frame f o =>
              cases f with
              | raced => cases hfirst
              | _ => cases hof
  · refine ⟨h.mem, hrests.grows.task h.kind, ?_, ?_⟩
    · intro u hu fs hfs
      rw [hrests.frames] at hfs
      exact h.others u hu fs hfs
    · refine h.race.of_frames (hrests.frames 0) (fun o rest => hrests.not_frame) hrests.grows ?_
      intro he
      exact (hrests.mem_events he).resolve_right (by simp [Event.isMinor])

end Machine

end HotSpec
