import HotSpec.Proofs.Engine.Returns
import HotSpec.Proofs.Engine.Spared

/-!
# Tasks are gathered

Whoever starts other tasks waits for all of them: as long as one of them has not ended, the task that
has started it has it among the futures that it waits for, also where the wait was cut short and the
others are cancelled.  So a task that is at anything else is alone with those that came before it.

Main definitions:

- `Frame.gathered`: the futures that a frame waits for.
- `Machine.Gathers`: the invariant.

Main results:

- Theorem `Moves.spawned`: a task that starts others begins to wait for them.
- Theorem `Gathers.holds`: it goes on to wait for those that have not ended.
- Theorem `Gathers.step`: every step keeps the invariant.
- Theorem `Reaches.ended_above`: tasks that nobody waits for have ended.
-/

namespace HotSpec

/-- The futures that a frame waits for, before and after those that are open are cancelled. -/
def Frame.gathered : Frame → List FutureId
  | .joined members _ | .collected members .. => members
  | _ => []

/-- What is settled stays so. -/
theorem Scheduler.Extends.still {Stack Job : Type} {s s' : Scheduler Stack Job} {more : Nat}
    (h : s.Extends more s') {i : FutureId} (hi : s.outcome? i ≠ none) : s'.outcome? i ≠ none := by
  obtain ⟨o, ho⟩ := Option.ne_none_iff_exists'.mp hi
  rw [h.settled i o ho]
  simp

/-! ## Tasks that are started -/

variable {w w' : World} {t : TaskId}

theorem World.outcome?_spawnAll {p : Processor} {subs : List Value} {fs : List FutureId}
    (h : (Move.spawnAll p subs).run w = (fs, w')) (i : FutureId) :
    w'.scheduler.outcome? i = w.scheduler.outcome? i := by
  induction subs generalizing w fs with
  | nil =>
      cases h
      rfl
  | cons sub subs ih =>
      rw [World.spawnAll_cons] at h
      cases h
      refine (ih (w := w.withScheduler fun s => (s.spawn [.begin (.sub p sub)]).2) rfl).trans ?_
      exact Scheduler.outcome?_newFuture _ _

/-- Every task that starts for a sub is among those that are waited for. -/
theorem World.mem_of_spawnAll {p : Processor} {subs : List Value} (hs : w.scheduler.Threads (some t))
    (hg : w.scheduler.Groups) {fs : List FutureId} (h : (Move.spawnAll p subs).run w = (fs, w')) {i : FutureId} {u : TaskId}
    (hk : w'.scheduler.kind i = .task u) (hu : w.scheduler.tasks.length ≤ u) : i ∈ fs := by
  induction subs generalizing w fs with
  | nil =>
      cases h
      exact absurd (hs.lt_of_ending hk) (Nat.not_lt.mpr hu)
  | cons sub subs ih =>
      rw [World.spawnAll_cons] at h
      generalize hw₁ : (w.withScheduler fun s => (s.spawn [.begin (.sub p sub)]).2) = w₁ at h
      rcases hrest : (Move.spawnAll p subs).run w₁ with ⟨fs', w₂⟩
      rw [hrest] at h
      cases h
      have hs₁ : w₁.scheduler.Threads (some t) := by
        rw [← hw₁]
        exact hs.spawn _
      have hg₁ : w₁.scheduler.Groups := by
        rw [← hw₁]
        exact hg.spawn _
      have hlength : w₁.scheduler.tasks.length = w.scheduler.tasks.length + 1 := by
        rw [← hw₁]
        exact (Scheduler.Grows.spawn w.scheduler [.begin (.sub p sub)]).tasks
      rcases Nat.lt_or_eq_of_le hu with hlt | rfl
      · exact List.mem_cons_of_mem _ (ih hs₁ hg₁ hrest (by rw [hlength]; exact hlt))
      · have htask : w₁.scheduler.kind w.scheduler.futures.length =
            .task w.scheduler.tasks.length := by
          rw [← hw₁]
          exact (Scheduler.kind_newTask [.begin (.sub p sub)] _).trans (if_pos rfl)
        obtain ⟨ht, -, hgrows, -⟩ := w₁.spawnAll_spec p subs hs₁ hg₁ hrest
        have hsame : i = w.scheduler.futures.length := Option.some.inj
          (((ht.ending _ i).mpr hk).symm.trans ((ht.ending _ _).mpr (hgrows.task htask)))
        rw [hsame]
        exact List.mem_cons_self ..

theorem World.mem_open? {members : List FutureId} {i : FutureId} :
    i ∈ w.open? members ↔ i ∈ members ∧ w.scheduler.outcome? i = none := by
  unfold World.open?
  rw [List.mem_filter, Scheduler.isSettled_eq]
  simp

/-- A task leaves a wait for the first fault among several futures to cancel those that are open, or
with the outcome of all. -/
theorem Rule.of_joined {members : List FutureId} {results : Bool} {o : Outcome} {turn : Turn}
    (h : Rule (.frame (.joined members results) o) w turn w') :
    (w.open? members ≠ [] ∧ ∃ f, turn = .await f [.collected members results o]) ∨
      w.open? members = [] ∧ w' = w ∧ turn = .give (o.andThen (w.jointOutcome members results)) := by
  cases h with
  | asks h =>
      cases h with
      | cancelled hopen => exact .inl ⟨hopen, _, rfl⟩
  | joined hall => exact .inr ⟨hall, rfl, rfl⟩
  | reply r hhead => cases hhead
  | pass hf => cases hf
  | call hcall => cases hcall

/-- It goes on with the outcome of all once those that it has cancelled are settled. -/
theorem Rule.of_collected {members : List FutureId} {results : Bool} {waited o : Outcome} {turn : Turn}
    (h : Rule (.frame (.collected members results waited) o) w turn w') :
    w' = w ∧ turn = .give (o.andThen (waited.andThen (w.jointOutcome members results))) := by
  cases h with
  | collected => exact ⟨rfl, rfl⟩
  | asks h => cases h
  | reply r hhead => cases hhead
  | pass hf => cases hf
  | call hcall => cases hcall

/-- A wait that is cut short goes on until all futures are settled. -/
theorem Rule.gathered {head : Head} {turn : Turn} (h : Rule head w turn w') {i : FutureId}
    (hi : i ∈ head.first.gathered) (hopen : w.scheduler.outcome? i = none)
    (hcollected : ∀ members results waited o, head = .frame (.collected members results waited) o →
      i ∉ members) :
    ∃ members results waited, turn.frames = [.collected members results waited] ∧ i ∈ members := by
  cases head with
  | work work => cases hi
  | frame f o =>
      cases f with
      | collected members results waited => exact absurd hi (hcollected _ _ _ _ rfl)
      | joined members results =>
          rcases h.of_joined with ⟨-, f, rfl⟩ | ⟨hall, -, -⟩
          · exact ⟨_, _, _, rfl, hi⟩
          · have hmem : i ∈ w.open? members := World.mem_open?.mpr ⟨hi, hopen⟩
            rw [hall] at hmem
            cases hmem
      | _ => cases hi

namespace Machine

variable {parent : TaskId → TaskId} {m m' : Machine} {head : Head} {stack : List Frame} {turn : Turn}
  {new : List (List Frame)}

/-- A task that starts others begins to wait for them, and none of them has ended. -/
theorem Moves.spawned (hm : m.Sound) (h : m.Moves t head stack turn new w' m') {i : FutureId}
    {u : TaskId} (hk : m'.world.scheduler.kind i = .task u) (hu : m.world.scheduler.tasks.length ≤ u) :
    m'.world.scheduler.outcome? i = none ∧
      ∃ members results frames, turn.frames = .joined members results :: frames ∧ i ∈ members := by
  have hserved := h.served
  have hnone (hnew : new = []) : False := by
    have hlt := hserved.threads.lt_of_ending (h.kind i ▸ hk)
    rw [hserved.grows.tasks, hnew] at hlt
    exact absurd hlt (Nat.not_lt.mpr hu)
  have hthreads := hm.threads_current h.current
  -- The end of a task that has just started is a new future.
  have hfresh : m.world.scheduler.outcome? i = none := by
    by_contra hsettled
    obtain ⟨o, ho⟩ := Option.ne_none_iff_exists'.mp hsettled
    have hkind := h.grows.of_task (Scheduler.lt_of_settled ho) hk
    exact absurd (hthreads.lt_of_ending hkind) (Nat.not_lt.mpr hu)
  rw [h.outcome?]
  rw [h.kind] at hk
  rcases h.rule.quiet_or_asks with ⟨hquiet, -, -⟩ | hasks
  · have hlt := hserved.threads.lt_of_ending hk
    rw [(hquiet.scheduler hm.signals).tasks] at hlt
    exact absurd hlt (Nat.not_lt.mpr hu)
  · have hspawns := h.spawns
    cases hasks with
    | @together p subs fs _ w₁ hsubs hrun =>
        refine ⟨?_, fs, true, [], rfl, ?_⟩
        · exact (Scheduler.outcome?_gather _ fs i).trans ((World.outcome?_spawnAll hrun i).trans hfresh)
        · have hkind := hk
          change (w₁.scheduler.firstFault fs).2.kind i = _ at hkind
          unfold Scheduler.firstFault at hkind
          rw [Scheduler.kind_gather] at hkind
          split at hkind
          · cases hkind
          · exact World.mem_of_spawnAll hthreads hm.groups hrun hkind hu
    | @opened first v =>
        have hkind := hk
        change ((m.world.scheduler.spawn [.begin (.load first)]).2.firstFault _).2.kind i = _ at hkind
        unfold Scheduler.firstFault at hkind
        rw [Scheduler.kind_gather] at hkind
        split at hkind
        · cases hkind
        refine ⟨?_, m.world.racers, false, [.raced], rfl, ?_⟩
        · exact (Scheduler.outcome?_gather _ m.world.racers i).trans
            ((Scheduler.outcome?_newFuture _ _).trans hfresh)
        · have hspawn : (m.world.scheduler.spawn [.begin (.load first)]).2.kind i =
              if i = m.world.scheduler.futures.length then .task m.world.scheduler.tasks.length
              else m.world.scheduler.kind i := Scheduler.kind_newTask [.begin (.load first)] i
          rw [hspawn] at hkind
          split at hkind
          · next hi =>
              rw [hi]
              exact List.mem_cons_self ..
          · exact absurd (hthreads.lt_of_ending hkind) (Nat.not_lt.mpr hu)
    | _ =>
        cases hspawns with
        | none => exact (hnone rfl).elim

/-- A future that belongs to the end of a task that there was has belonged to it. -/
theorem Sound.of_task {more : Nat} (hm : m.Sound) (hm' : m'.Sound)
    (hg : m.world.scheduler.Extends more m'.world.scheduler) {i : FutureId} {u : TaskId}
    (hk : m'.world.scheduler.kind i = .task u) (hu : u < m.world.scheduler.tasks.length) :
    m.world.scheduler.kind i = .task u :=
  (hm.threads.ending u i).mp ((hg.ending? u hu).symm.trans ((hm'.threads.ending u i).mpr hk))

/-! ## Machines -/

/-- Whether tasks wait for all those that they have started. -/
structure Gathers (m : Machine) : Prop where
  /-- A task that has something to go on with has not ended. -/
  running : ∀ t f fs i, m.frames t = some (f :: fs) → m.world.scheduler.kind i = .task t →
    m.world.scheduler.outcome? i = none
  /-- A task has not ended as long as some task waits for it, and every task but the first is waited
  for by one that comes before it. -/
  children : ∀ i u, m.world.scheduler.kind i = .task u → 0 < u → m.world.scheduler.outcome? i = none →
    ∃ t f fs, t < u ∧ m.frames t = some (f :: fs) ∧ i ∈ f.gathered
  /-- A task that collects several futures waits for those that were open. -/
  collects : ∀ t members results waited fs,
    m.frames t = some (.collected members results waited :: fs) → m.current.map Prod.fst ≠ some t →
    ∃ g cancelled, m.world.scheduler.awaiting t = some g ∧
      (m.world.scheduler.kind g).form = .all cancelled 0 false ∧ cancelled ⊆ members ∧
      ∀ i ∈ members, i ∈ cancelled ∨ m.world.scheduler.outcome? i ≠ none
  /-- When it goes on all of them are settled. -/
  collected : ∀ t o members results waited fs,
    m.current = some (t, .outcome o (.collected members results waited :: fs)) →
    o.isFault = false ∧ ∀ i ∈ members, m.world.scheduler.outcome? i ≠ none

/-- What has to be checked of what leaves all frames. -/
theorem Gathers.leaves (h : m.Gathers) (hm : m.Sound) (hm' : m'.Sound) (hleaves : m.Leaves m') :
    m'.Gathers := by
  have hkind {i : FutureId} {u : TaskId} (hk : m'.world.scheduler.kind i = .task u) :
      m.world.scheduler.kind i = .task u := by
    have hlt := hm'.threads.lt_of_ending hk
    rw [hleaves.grows.tasks] at hlt
    exact hm.of_task hm' hleaves.grows hk hlt
  have hbefore {t : TaskId} {f : Frame} {fs : List Frame} (hfs : m.frames t = some (f :: fs)) :
      m.current.map Prod.fst ≠ some t := by
    intro hcurrent
    obtain ⟨⟨u, c⟩, hc, rfl⟩ := Option.map_eq_some_iff.mp hcurrent
    rcases hleaves.before with hnone | ⟨t', o, hsome⟩
    · cases hnone.symm.trans hc
    · cases hsome.symm.trans hc
      cases hfs.symm.trans (frames_current hsome)
  refine ⟨?_, ?_, ?_, ?_⟩
  · intro t f fs i hfs hk
    rw [hleaves.frames] at hfs
    rcases hleaves.ended i t (hkind hk) with hsame | ⟨o, hcurrent, -⟩
    · rw [hsame]
      exact h.running t f fs i hfs (hkind hk)
    · cases hfs.symm.trans (frames_current hcurrent)
  · intro i u hk hu hopen
    obtain ⟨t, f, fs, ht, hfs, hi⟩ :=
      h.children i u (hkind hk) hu (by_contra fun hno => hleaves.grows.still hno hopen)
    exact ⟨t, f, fs, ht, (hleaves.frames t).trans hfs, hi⟩
  · intro t members results waited fs hfs hnot
    rw [hleaves.frames] at hfs
    obtain ⟨g, cancelled, hg, hform, hsub, hall⟩ :=
      h.collects t members results waited fs hfs (hbefore hfs)
    refine ⟨g, cancelled, ?_, ?_, hsub, fun i hi => (hall i hi).imp_right hleaves.grows.still⟩
    · rw [hleaves.awaiting, if_neg hnot]
      exact hg
    · rw [hleaves.grows.form g (hm.threads.lt_of_awaiting hg)]
      exact hform
  · intro t o members results waited fs hcurrent
    have hfs : m.frames t = some (.collected members results waited :: fs) :=
      (hleaves.frames t).symm.trans (frames_current hcurrent)
    obtain ⟨g, cancelled, hg, hform, -, hall⟩ :=
      h.collects t members results waited fs hfs (hbefore hfs)
    obtain ⟨o', ho'⟩ := Option.ne_none_iff_exists'.mp (hleaves.due t _ g hcurrent hg)
    have hdecided := hm.groups.decided g o' ho'
    unfold Scheduler.Decided at hdecided
    rw [hform] at hdecided
    refine ⟨?_, fun i hi => hleaves.grows.still ((hall i hi).elim (hdecided.2 i) id)⟩
    rcases hleaves.given t o _ hcurrent with ⟨rfl, -⟩ | ⟨rfl, -⟩ | ⟨g', hg', ho⟩
    · rfl
    · rfl
    · cases hg.symm.trans hg'
      cases ho.symm.trans ho'
      exact hdecided.1

/-- A task goes on to wait for a future as long as it is open. -/
theorem Gathers.holds (h : m.Gathers) (hm : m.Sound) (hmoves : m.Moves t head stack turn new w' m')
    {u : TaskId} {f : Frame} {fs : List Frame} {i : FutureId} (hfs : m.frames u = some (f :: fs))
    (hi : i ∈ f.gathered) (hopen : m.world.scheduler.outcome? i = none) :
    ∃ f fs, m'.frames u = some (f :: fs) ∧ i ∈ f.gathered := by
  by_cases hut : u = t
  · subst hut
    obtain ⟨rfl, rfl⟩ := hmoves.first_eq hfs
    obtain ⟨members, results, waited, heq, hi'⟩ := hmoves.rule.gathered hi hopen <| by
      rintro members results waited o rfl hi'
      exact (h.collected u o members results waited _ hmoves.current).2 i hi' hopen
    refine ⟨.collected members results waited, stack, ?_, hi'⟩
    rw [hmoves.frames_self, heq]
    rfl
  · refine ⟨f, fs, ?_, hi⟩
    rw [hmoves.frames_of_ne hut (hm.lt_of_frames hfs)]
    exact hfs

/-- What has to be checked of a step that is made by a rule. -/
theorem Gathers.moves (h : m.Gathers) (hm : m.Sound) (hm' : m'.Sound) (hkin : m.Kin parent)
    (hmoves : m.Moves t head stack turn new w' m') : m'.Gathers := by
  have hinner := hkin.inner t _ _ hmoves.before
  refine ⟨?_, ?_, ?_, ?_⟩
  · intro u f fs i hfs hk
    by_cases hu : u < m.world.scheduler.tasks.length
    · have hkind := hm.of_task hm' hmoves.grows hk hu
      rw [hmoves.ended i u hkind]
      rcases hmoves.frames_old hu hfs with ⟨rfl, -⟩ | ⟨-, hfs⟩
      · exact h.running u _ _ i hmoves.before hkind
      · exact h.running u f fs i hfs hkind
    · exact (hmoves.spawned hm hk (Nat.not_lt.mp hu)).1
  · intro i u hk hu hopen
    have hframes := hmoves.frames t
    rw [if_pos rfl] at hframes
    by_cases hlt : u < m.world.scheduler.tasks.length
    · have hkind := hm.of_task hm' hmoves.grows hk hlt
      rw [hmoves.ended i u hkind] at hopen
      obtain ⟨v, f, fs, hv, hfs, hi⟩ := h.children i u hkind hu hopen
      obtain ⟨f', fs', hfs', hi'⟩ := h.holds hm hmoves hfs hi hopen
      exact ⟨v, f', fs', hv, hfs', hi'⟩
    · have hle := Nat.not_lt.mp hlt
      obtain ⟨-, members, results, frames, heq, hi⟩ := hmoves.spawned hm hk hle
      rw [heq] at hframes
      exact ⟨t, _, _, Nat.lt_of_lt_of_le (hmoves.lt hm) hle, hframes, hi⟩
  · intro u members results waited fs hfs hnot
    rcases hmoves.frames_cases hfs with ⟨rfl, heq⟩ | ⟨hu, hfs⟩ | ⟨-, hnew⟩
    · obtain ⟨g, frames, rfl, hmem, hawaits⟩ := hkin.awaits_of_wait hm hmoves heq rfl
      cases hawaits with
      | timer => cases hmem
      | hears | unhears | joins => cases heq
      | @collects _ _ _ _ _ left hopen hkind =>
          cases heq
          refine ⟨g, m.world.open? members, ?_, ?_, List.filter_subset_self _, fun i hi => ?_⟩
          · rw [hmoves.awaiting, if_pos rfl]
            rfl
          · rw [hmoves.kind, hkind]
            rfl
          · by_cases hi' : m.world.scheduler.outcome? i = none
            · exact .inl (World.mem_open?.mpr ⟨hi, hi'⟩)
            · exact .inr (hmoves.grows.still hi')
    · have hbefore : m.current.map Prod.fst ≠ some u := by
        rw [hmoves.current]
        exact fun heq => hu (Option.some.inj heq).symm
      obtain ⟨g, cancelled, hg, hform, hsub, hall⟩ :=
        h.collects u members results waited fs hfs hbefore
      refine ⟨g, cancelled, ?_, ?_, hsub, fun i hi => (hall i hi).imp_right hmoves.grows.still⟩
      · rw [hmoves.awaiting, if_neg hu]
        exact hg
      · rw [hmoves.grows.form g (hm.threads.lt_of_awaiting hg)]
        exact hform
    · obtain ⟨work, heq⟩ := hmoves.spawns.begins hnew
      cases heq
  · intro u o members results waited fs hcurrent
    rw [hmoves.next] at hcurrent
    cases turn with
    | give o' =>
        cases hcurrent
        cases hinner _ (List.mem_cons_self ..)
    | _ => cases hcurrent

/-- Every step keeps the invariant. -/
theorem Gathers.step (h : m.Gathers) (hm : m.Sound) (hkin : m.Kin parent) (hstep : m.step = some m') :
    m'.Gathers := by
  rcases hm.moves_or_rests hstep with ⟨t, head, stack, turn, new, w', hmoves⟩ | hrests
  · exact h.moves hm (hm.step hstep) hkin hmoves
  · exact h.leaves hm (hm.step hstep) hrests.toLeaves

end Machine

/-! ## Tests -/

/-- Every machine that can be reached gathers its tasks. -/
theorem World.Runs.gathers {work : Work} {m : Machine} (h : w.Runs work m) : m.Gathers := by
  refine h.invariant ?_ ?_
  · have hm := h.fresh.sound work
    refine ⟨fun _ _ _ i _ _ => ?_, ?_, ?_, ?_⟩
    · refine (Scheduler.outcome?_newFuture _ _).trans ?_
      rw [h.fresh.scheduler]
      simp [Scheduler.outcome?, Scheduler.future, Scheduler.empty, default]
    · intro i u hk hu
      have hlt := hm.threads.lt_of_ending hk
      have hlength : (Machine.ofWork w work).2.world.scheduler.tasks.length = 1 := by
        unfold Machine.ofWork
        rw [h.fresh.scheduler]
        rfl
      rw [hlength] at hlt
      exact absurd hu (Nat.not_lt.mpr (Nat.le_of_lt_succ hlt))
    · intro t members results waited fs hfs
      rw [h.fresh.frames] at hfs
      split at hfs <;> cases hfs
    · rintro t o members results waited fs ⟨⟩
  · intro m m' hm hstep hgathers
    obtain ⟨parent, hit, hspared⟩ := hm.spared
    exact hgathers.step hm.sound hspared.toKin hstep

namespace TestSetup

variable {setup : TestSetup} {g : Generator} {m : Machine}

/-- Every machine that can be reached gathers its tasks. -/
theorem Reaches.gathers (h : setup.Reaches g m) : m.Gathers := h.runs.gathers

/-- Where a task is at something that waits for no others, no other task that it has started goes on:
those that have not ended were started by other tasks. -/
theorem Reaches.ended_above (h : setup.Reaches g m) {low : TaskId}
    (hlow : ∀ t ≤ low, ∀ f fs, m.frames t = some (f :: fs) → ∀ i ∈ f.gathered, ∀ u,
      m.world.scheduler.kind i = .task u → u ≤ low) {i : FutureId} {u : TaskId}
    (hk : m.world.scheduler.kind i = .task u) (hu : low < u) :
    m.world.scheduler.outcome? i ≠ none := by
  have hgathers := h.gathers
  have hthreads := h.sound.threads
  -- The task that waits for an open one has not ended itself, and comes before it.
  induction u using Nat.strongRecOn generalizing i with
  | ind u ih =>
      intro hopen
      obtain ⟨t, f, fs, htu, hfs, hi⟩ := hgathers.children i u hk (Nat.zero_lt_of_lt hu) hopen
      rcases Nat.lt_or_ge low t with hlt | hle
      · obtain ⟨task, htask⟩ := Scheduler.exists_task (h.sound.lt_of_frames hfs)
        have hj : m.world.scheduler.kind task.future = .task t :=
          (hthreads.ending t _).mp (by unfold Scheduler.ending?; rw [htask]; rfl)
        exact ih t htu hj hlt (hgathers.running t f fs _ hfs hj)
      · exact absurd (hlow t hle f fs hfs i hi u hk) (Nat.not_le.mpr hu)

end TestSetup

end HotSpec
