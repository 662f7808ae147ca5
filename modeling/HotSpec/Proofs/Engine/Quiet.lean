import HotSpec.Proofs.Engine.Sights
import HotSpec.Proofs.Scheduler.Lulls

/-!
# Quiet machines

Where nothing is to be handled but quiet jobs, a task that waits gets its turn in the end, and all
that a test knows of is as it was.

Main definitions:

- `Action.Quiet`: actions that neither fail nor tell anything that a test could fail of.
- `World.Drifts`: a world in which all that a test knows of is the same.

Main results:

- Theorem `exec_perform`: quiet actions succeed, and put off nothing but smaller quiet jobs.
- Theorem `lull`: a task that is due gets its turn.
-/

namespace HotSpec

/-- Whether an action neither fails nor tells anything that a test could fail of. -/
inductive Action.Quiet : Action → Prop
  | load : Quiet .load
  | log {text : String} : Quiet (.log text)
  | setElement {selector html : String} : Quiet (.setElement selector html)
  | unsetElement {selector : String} : Quiet (.unsetElement selector)
  | later {delay : Float} {actions : List Action} (h : ∀ a, a ∈ actions → Quiet a) :
      Quiet (.later delay actions)

/-- Whether a job does nothing but quiet actions. -/
def Job.Quiet : Job → Prop
  | .act actions => ∀ a ∈ actions, a.Quiet
  | .expire _ => False

/-- How much there is to something that is to be handled: more than to all that comes of it. -/
noncomputable def Handle.weight : Handle Job → Nat
  | .job (.act actions) => sizeOf actions
  | .told .. | .release _ => 2
  | .job (.expire _) | .turn _ | .wake .. => 1

/-- How much there is to be handled. -/
noncomputable def Scheduler.weight (s : Scheduler (List Frame) Job) : Nat := (s.handles.map Handle.weight).sum

namespace World

variable {w w' w₁ w₂ w₃ : World}

/-- A world in which all that a test knows of is the same. -/
structure Drifts (w w' : World) : Prop where
  session : w'.session = w.session
  environment : w'.environment = w.environment
  monitor : w'.monitor = w.monitor
  verdict : w'.verdict = w.verdict
  failSignal : w'.failSignal = w.failSignal
  generators : w'.generators = w.generators

namespace Drifts

theorem trans (h₁ : w₁.Drifts w₂) (h₂ : w₂.Drifts w₃) : w₁.Drifts w₃ :=
  ⟨h₂.session.trans h₁.session, h₂.environment.trans h₁.environment, h₂.monitor.trans h₁.monitor,
    h₂.verdict.trans h₁.verdict, h₂.failSignal.trans h₁.failSignal,
    h₂.generators.trans h₁.generators⟩

/-- The page changes, something is recorded, or the scheduler goes on. -/
theorem aside (w : World) (site : Site) (history : List Event)
    (scheduler : Scheduler (List Frame) Job) : w.Drifts { w with site, history, scheduler } :=
  ⟨rfl, rfl, rfl, rfl, rfl, rfl⟩

end Drifts

/-- A world after quiet actions of some size: nothing is seen of them, and they have put off quiet
jobs that come to less. -/
structure Hums (w : World) (size : Nat) (w' : World) : Prop extends w.Drifts w' where
  history : ∃ new, w'.history = new ++ w.history ∧ ∀ e ∈ new, e.sight? = none
  tasks : w'.scheduler.tasks = w.scheduler.tasks
  futures : w'.scheduler.futures = w.scheduler.futures
  handles : ∃ jobs : List (List Action),
    w'.scheduler.handles.Perm (jobs.map (.job ∘ .act) ++ w.scheduler.handles) ∧
      (∀ actions ∈ jobs, ∀ a ∈ actions, a.Quiet) ∧ (jobs.map sizeOf).sum < size

namespace Hums

theorem idle {size : Nat} (hsize : 0 < size) (site : Site) {e : Option Event}
    (he : ∀ e' ∈ e, e'.sight? = none) :
    w.Hums size { w with site, history := e.toList ++ w.history } where
  toDrifts := .aside w _ _ _
  history := ⟨e.toList, rfl, by simpa using he⟩
  tasks := rfl
  futures := rfl
  handles := ⟨[], .refl _, by simp, hsize⟩

theorem trans {m n : Nat} (h₁ : w₁.Hums m w₂) (h₂ : w₂.Hums n w₃) : w₁.Hums (m + n) w₃ := by
  obtain ⟨new₁, hnew₁, hsilent₁⟩ := h₁.history
  obtain ⟨new₂, hnew₂, hsilent₂⟩ := h₂.history
  obtain ⟨jobs₁, hperm₁, hquiet₁, hless₁⟩ := h₁.handles
  obtain ⟨jobs₂, hperm₂, hquiet₂, hless₂⟩ := h₂.handles
  refine ⟨h₁.toDrifts.trans h₂.toDrifts, ⟨new₂ ++ new₁, ?_, ?_⟩, h₂.tasks.trans h₁.tasks,
    h₂.futures.trans h₁.futures, jobs₂ ++ jobs₁, ?_, ?_, ?_⟩
  · rw [hnew₂, hnew₁, List.append_assoc]
  · intro e he
    rcases List.mem_append.mp he with he | he
    · exact hsilent₂ e he
    · exact hsilent₁ e he
  · rw [List.map_append, List.append_assoc]
    exact hperm₂.trans (hperm₁.append_left _)
  · intro actions hmem
    rcases List.mem_append.mp hmem with hmem | hmem
    · exact hquiet₂ actions hmem
    · exact hquiet₁ actions hmem
  · rw [List.map_append, List.sum_append]
    omega

end Hums

end World

namespace Engine

variable {w : World}

/-- A load is told to nobody who would mind it, if loads are not counted. -/
theorem exec_deliverAll_load (hloads : w.session.loads = none) (ls : List Listener) :
    (deliverAll .load ls).exec w = (.ok (), w) := by
  induction ls with
  | nil => rfl
  | cons l ls ih =>
      have hfirst : (deliver .load l).exec w = (.ok (), w) := by
        cases l with
        | monitor => rfl
        | wait number => rfl
        | loads =>
            unfold deliver deliverLoads
            rw [exec_bind, exec_get]
            simp only [hloads]
            rfl
      unfold deliverAll
      rw [exec_bind, hfirst]
      exact ih

/-- A quiet action succeeds. -/
theorem exec_act {a : Action} (ha : a.Quiet) (hloads : w.session.loads = none) :
    ∃ w', (act a).exec w = (.ok (), w') ∧ w.Hums (sizeOf a) w' := by
  have hsize : 0 < sizeOf a := by cases ha <;> simp
  cases ha with
  | load =>
      refine ⟨w, ?_, .idle hsize w.site (e := none) (by simp)⟩
      exact exec_deliverAll_load hloads _
  | @log text => exact ⟨_, rfl, .idle hsize w.site (e := some (.log (.text text))) (by simp [Event.sight?])⟩
  | setElement | unsetElement => exact ⟨_, rfl, .idle hsize _ (e := none) (by simp)⟩
  | @later delay actions hquiet =>
      refine ⟨_, rfl, ?_⟩
      refine ⟨.aside w _ _ _, ⟨[], rfl, by simp⟩, rfl, rfl, [actions], ?_, by simpa using hquiet, ?_⟩
      · exact Scheduler.handles_after delay _
      · simp only [List.map_cons, List.map_nil, List.sum_cons, List.sum_nil, Action.later.sizeOf_spec]
        omega

/-- Quiet actions succeed, and put off nothing but smaller quiet jobs. -/
theorem exec_perform {actions : List Action} (hquiet : ∀ a ∈ actions, a.Quiet)
    (hloads : w.session.loads = none) :
    ∃ w', (perform actions).exec w = (.ok (), w') ∧ w.Hums (sizeOf actions) w' := by
  induction actions generalizing w with
  | nil => exact ⟨w, rfl, .idle (by simp) w.site (e := none) (by simp)⟩
  | cons a actions ih =>
      obtain ⟨w₁, hact, hhums₁⟩ := exec_act (hquiet a (List.mem_cons_self ..)) hloads
      have hloads₁ : w₁.session.loads = none := by rw [hhums₁.session, hloads]
      obtain ⟨w₂, hperform, hhums₂⟩ := ih (fun b hb => hquiet b (List.mem_cons_of_mem _ hb)) hloads₁
      refine ⟨w₂, ?_, ?_⟩
      · unfold perform
        rw [exec_bind, hact]
        exact hperform
      · obtain ⟨jobs, hperm, hjobs, hless⟩ := (hhums₁.trans hhums₂).handles
        refine { hhums₁.trans hhums₂ with handles := ⟨jobs, hperm, hjobs, ?_⟩ }
        simp only [List.cons.sizeOf_spec]
        omega

end Engine

/-! ## Waiting -/

namespace Scheduler

variable {s s' s₁ : Scheduler (List Frame) Job} {h : Handle Job}

theorem weight_takes (ht : s.Takes h s') : s.weight = h.weight + s'.weight := by
  unfold weight
  rw [(ht.perm.map Handle.weight).sum_nat, List.map_cons, List.sum_cons]

/-- What a task is due by weighs less than what gave it. -/
theorem Abides.weight_lt {t : TaskId} {task : Task (List Frame)} (ha : Abides Job.Quiet t task s s₁ s')
    (ht : s.Takes h s₁) (hweight : h.weight = 2) : s'.weight < s.weight := by
  rw [weight_takes ht, hweight]
  rcases ha.handles with heq | ⟨f, heq⟩
  · simp [weight, heq]
  · simp [weight, heq, Handle.weight]
    omega

/-- Quiet actions keep a task due. -/
theorem Pends.hums {w w' : World} {t : TaskId} {task : Task (List Frame)} {actions : List Action}
    (hp : w.scheduler.Pends Job.Quiet t task) (hg : w.scheduler.Groups)
    (ht : w.scheduler.Takes (.job (.act actions)) s)
    (hh : ({ w with scheduler := s } : World).Hums (sizeOf actions) w') :
    w'.scheduler.Pends Job.Quiet t task := by
  obtain ⟨jobs, hperm, hjobs, -⟩ := hh.handles
  have hmem (h : Handle Job) : h ∈ w'.scheduler.handles ↔
      (∃ actions ∈ jobs, .job (.act actions) = h) ∨ h ∈ s.handles := by
    rw [hperm.mem_iff, List.mem_append, List.mem_map]
    rfl
  refine hp.all_last hg ht ?_ (hh.tasks.trans ht.tasks) (.of_futures (hh.futures.trans ht.futures))
    (fun h hh => (hmem h).mpr (.inr hh)) ?_
  · rintro (hother | ⟨f, -, -, -, heq⟩)
    · cases hother
    · cases heq
  · intro h hh
    rcases (hmem h).mp hh with ⟨actions', hmem', rfl⟩ | hh
    · exact .inr (hjobs actions' hmem')
    · exact .inl hh

end Scheduler

/-- What actions have put off weighs less than the actions. -/
theorem World.Hums.weight_lt {w w' : World} {actions : List Action}
    {s : Scheduler (List Frame) Job}
    (hh : ({ w with scheduler := s } : World).Hums (sizeOf actions) w')
    (ht : w.scheduler.Takes (.job (.act actions)) s) : w'.scheduler.weight < w.scheduler.weight := by
  obtain ⟨jobs, hperm, -, hless⟩ := hh.handles
  have hweights : (jobs.map (Handle.weight ∘ .job ∘ .act)).sum < sizeOf actions := hless
  have hsum : w'.scheduler.weight =
      (jobs.map (Handle.weight ∘ .job ∘ .act)).sum + s.weight := by
    unfold Scheduler.weight
    rw [(hperm.map Handle.weight).sum_nat, List.map_append, List.sum_append, List.map_map]
  rw [hsum, Scheduler.weight_takes ht]
  exact Nat.add_lt_add_right hweights _

namespace Machine

variable {w : World} {t : TaskId} {task : Task (List Frame)}

/-- Where no task has its turn, a step handles what is next. -/
theorem step_next {handle : Handle Job} {s : Scheduler (List Frame) Job}
    (h : w.scheduler.next = some (handle, s)) :
    step ⟨w, none⟩ = some (Machine.handle { w with scheduler := s } handle) := by
  simp [step, stepTask, h]

/-- A world in which a task that was due has got its turn, while nothing else has happened to any task. -/
structure Woken (t : TaskId) (task : Task (List Frame)) (w w' : World) : Prop
    extends w.Drifts w' where
  tasks : w'.scheduler.tasks = w.scheduler.tasks.set t { task with stack := [], awaiting := none }
  idle : ∀ h ∈ w'.scheduler.handles, w'.scheduler.Idle Job.Quiet h
  lasts : w.scheduler.Lasts (fun f => task.awaiting ≠ some f) w'.scheduler

/-- The turn of a task that is due. -/
theorem lull_turn {handle : Handle Job} {s : Scheduler (List Frame) Job}
    (hm : Machine.Sound ⟨w, none⟩) (hp : w.scheduler.Pends Job.Quiet t task)
    (hnext : w.scheduler.next = some (handle, s))
    (hturn : handle.turn? = some (t, task.awaiting)) :
    ∃ w', Shows ⟨w, none⟩ [] ⟨w', some (t, .outcome .finished task.stack)⟩ ∧
      Woken t task w w' := by
  have htakes := Scheduler.takes_next hnext
  have hmem : handle ∈ w.scheduler.handles := htakes.perm.mem_iff.mpr (List.mem_cons_self ..)
  have hsettled (f : FutureId) (hf : task.awaiting = some f) :
      w.scheduler.outcome? f = some .finished := by
    have hne := ((hm.threads_idle rfl).turn t task.awaiting
      (List.mem_filterMap.mpr ⟨handle, hmem, hturn⟩)).2.2 f hf
    have hdue := hp.due
    rw [hf] at hdue
    cases hdue with
    | wake _ ho => exact ho
    | release hopen | news hopen => exact absurd hopen hne
  have hbegin : Machine.handle { w with scheduler := s } handle = ⟨{ w with
      scheduler := s.setTask t { task with stack := [], awaiting := none } },
      some (t, .outcome .finished task.stack)⟩ := by
    have hheld : s.task? t = some task := by
      unfold Scheduler.task?
      rw [htakes.tasks]
      exact hp.held
    have hgiven : s.beginTurn t .finished =
        some ((task.stack, .finished), s.setTask t { task with stack := [], awaiting := none }) := by
      unfold Scheduler.beginTurn
      rw [hheld]
      simp only [Option.map_some, hp.stopping, Bool.false_eq_true, if_false]
      rw [← hp.stopping]
      rfl
    cases handle with
    | turn u =>
        obtain ⟨rfl, -⟩ := Prod.mk.inj (Option.some.inj hturn)
        simp only [Machine.handle, beginTurn, hgiven]
    | wake u f =>
        obtain ⟨rfl, hwait⟩ := Prod.mk.inj (Option.some.inj hturn)
        have ho : s.outcome? f = some .finished := by
          rw [htakes.outcome?]
          exact hsettled f hwait.symm
        simp only [Machine.handle, beginTurn, ho, Option.getD_some, hgiven]
    | told g m | release f | job job => cases hturn
  have hstep := step_next hnext
  rw [hbegin] at hstep
  have hlasts : w.scheduler.Lasts (fun _ => True)
      (s.setTask t { task with stack := [], awaiting := none }) := .of_futures htakes.futures
  refine ⟨_, Shows.mute hstep rfl rfl, .aside w _ _ _, ?_, ?_,
    hlasts.mono fun _ _ => trivial⟩
  · exact congrArg (List.set · t _) htakes.tasks
  · intro h hmem'
    have hold := htakes.mem hmem'
    have houtcome (f : FutureId) (hf : task.awaiting = some f) :
        (s.setTask t { task with stack := [], awaiting := none }).outcome? f ≠ none := by
      rw [hlasts.outcome? trivial, hsettled f hf]
      simp
    rcases hp.handles h hold with hidle | hother | ⟨f, hf, rfl | ⟨m, rfl⟩⟩
    · exact hidle.mono hm.groups hold hlasts (fun _ _ _ => trivial) fun _ _ => .inl trivial
    · -- A task is due for one turn only.
      exact absurd (List.mem_filterMap.mpr ⟨h, hmem', hother⟩)
        (((hm.step hstep).threads_current rfl).busy t rfl |>.2.2 _)
    · exact houtcome f hf
    · exact .inl (houtcome f hf)

/-- A task that is due gets its turn, and all that a test knows of is the same. -/
theorem lull (hm : Machine.Sound ⟨w, none⟩) (hloads : w.session.loads = none)
    (hp : w.scheduler.Pends Job.Quiet t task) :
    ∃ w', Shows ⟨w, none⟩ [] ⟨w', some (t, .outcome .finished task.stack)⟩ ∧
      Woken t task w w' := by
  -- Whatever else is handled weighs more than what comes of it.
  induction hn : w.scheduler.weight using Nat.strongRecOn generalizing w with
  | ind n ih =>
  subst hn
  obtain ⟨handle, s, hnext⟩ := Scheduler.exists_next (hp.due.handles_ne_nil hm.groups)
  have htakes := Scheduler.takes_next hnext
  have hmem : handle ∈ w.scheduler.handles := htakes.perm.mem_iff.mpr (List.mem_cons_self ..)
  by_cases hturn : handle.turn? = some (t, task.awaiting)
  · exact lull_turn hm hp hnext hturn
  have hon {w₁ : World} (hstep : step ⟨w, none⟩ = some ⟨w₁, none⟩) (hdrifts : w.Drifts w₁)
      (hhistory : ∃ new, w₁.history = new ++ w.history ∧ ∀ e ∈ new, e.sight? = none)
      (hpends : w₁.scheduler.Pends Job.Quiet t task)
      (hlasts : w.scheduler.Lasts (fun f => task.awaiting ≠ some f) w₁.scheduler)
      (htasks : w₁.scheduler.tasks = w.scheduler.tasks)
      (hweight : w₁.scheduler.weight < w.scheduler.weight) :
      ∃ w', Shows ⟨w, none⟩ [] ⟨w', some (t, .outcome .finished task.stack)⟩ ∧
        Woken t task w w' := by
    obtain ⟨new, hnew, hsilent⟩ := hhistory
    obtain ⟨w', hshows, hwoken⟩ :=
      ih _ hweight (hm.step hstep) (by rw [hdrifts.session, hloads]) hpends rfl
    exact ⟨w', (Shows.silent new hstep hnew rfl hsilent).silently hshows,
      hdrifts.trans hwoken.toDrifts, by rw [hwoken.tasks, htasks], hwoken.idle,
      hlasts.trans hwoken.lasts⟩
  have hstep := step_next hnext
  have hnothing : ∃ new, w.history = new ++ w.history ∧ ∀ e ∈ new, e.sight? = none :=
    ⟨[], rfl, by simp⟩
  cases handle with
  | turn u | wake u f =>
      rcases hp.handles _ hmem with hidle | hother | ⟨f', -, heq | ⟨m, heq⟩⟩
      · cases hidle
      · exact absurd hother hturn
      · cases heq
      · cases heq
  | told g m =>
      have habides := hp.tell hm.groups htakes
      exact hon hstep (.aside w _ _ _) hnothing habides.pends habides.lasts habides.tasks
        (habides.weight_lt htakes rfl)
  | release f =>
      have habides := hp.release hm.groups htakes
      exact hon hstep (.aside w _ _ _) hnothing habides.pends habides.lasts habides.tasks
        (habides.weight_lt htakes rfl)
  | job job =>
      have hquiet : job.Quiet := by
        rcases hp.handles _ hmem with hidle | hother | ⟨f', -, heq | ⟨m, heq⟩⟩
        · exact hidle
        · cases hother
        · cases heq
        · cases heq
      cases job with
      | expire error => cases hquiet
      | act actions =>
          obtain ⟨w₁, hperform, hhums⟩ :=
            Engine.exec_perform (w := { w with scheduler := s }) hquiet hloads
          have hw₁ : Machine.handle { w with scheduler := s } (.job (.act actions)) = ⟨w₁, none⟩ := by
            simp only [Machine.handle, hperform]
          rw [hw₁] at hstep
          have hlasts : w.scheduler.Lasts (fun _ => True) w₁.scheduler :=
            .of_futures (hhums.futures.trans htakes.futures)
          exact hon hstep ((World.Drifts.aside w _ _ s).trans hhums.toDrifts) hhums.history
            (hp.hums hm.groups htakes hhums) (hlasts.mono fun _ _ => trivial)
            (hhums.tasks.trans htakes.tasks) (hhums.weight_lt htakes)

end Machine

end HotSpec
