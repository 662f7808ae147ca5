import HotSpec.Proofs.Engine.Quiet

/-!
# What a quiet environment does

A quiet environment does what it is asked for and tells nothing.  While it is at work other tasks
wait, and nothing that a test knows of changes.

Main definitions:

- `Environment.Quiet`: an environment that does not fail, and hands its page over as it should.
- `World.Passes`: a world in which time has passed for a task.

Main results:

- Theorem `DevServer.quiet_environment`: a server that does not fail is quiet.
- Theorem `shows_sleep`: time passes for a task that is alone.
- Theorem `shows_chores`: quiet chores are done in turn.
- Theorem `shows_write`: files are written.
-/

namespace HotSpec

/-! ## Quiet environments -/

/-- Whether a chore neither fails nor tells anything that a test could fail of. -/
inductive Chore.Quiet : Chore → Prop
  | sleep {delay : Float} : Quiet (.sleep delay)
  | act {actions : List Action} (h : ∀ a ∈ actions, a.Quiet) : Quiet (.act actions)
  | clear : Quiet .clear
  | install {files : Table Value} : Quiet (.install files)
  | leave : Quiet .leave

/-- Whether an environment does not fail and tells nothing, and in a load first lets the page be
prepared and then hands it over, each of them once. -/
structure Environment.Quiet (e : Environment) : Prop where
  reset : ∀ files, ∀ c ∈ e.reset files, c.Quiet
  write : ∀ number files, ∀ c ∈ e.write number files, c.Quiet
  load : ∀ url, ∃ before opened closed : List Chore,
    e.load url = ⟨before.map .chore ++ .openPage :: opened.map .chore, some (closed.map .chore)⟩ ∧
      (∀ c ∈ before, c.Quiet) ∧ (∀ c ∈ opened, c.Quiet) ∧ ∀ c ∈ closed, c.Quiet

/-- A server is quiet if none of its work fails and its page tells nothing, and if it opens its page and
hands it over. -/
theorem DevServer.quiet_environment {s : DevServer} (hreset : s.resetFailure = none)
    (hwrites : ∀ rule ∈ s.writeRules, rule.failure = none ∧ ∀ a ∈ rule.actions, a.Quiet)
    (hload : s.loadFailure = none) (hopens : s.opens = true) (hloaded : ∀ a ∈ s.loaded, a.Quiet)
    (hhands : s.handsOver = true) (hclosed : ∀ a ∈ s.closed, a.Quiet)
    (hunload : s.unloadFailure = none) : s.environment.Quiet := by
  have hsleeping (delay : Option Float) : ∀ c ∈ sleeping delay, c.Quiet := by
    cases delay with
    | none => simp [sleeping]
    | some delay => simpa [sleeping] using Chore.Quiet.sleep
  refine ⟨fun files => ?_, fun number files => ?_, fun url => ?_⟩
  · simpa [environment, hreset, failing] using ⟨Chore.Quiet.clear, .install⟩
  · intro c hc
    rcases List.mem_append.mp hc with hc | hc
    · rcases List.mem_append.mp hc with hc | hc
      · obtain ⟨rule, hrule, hc⟩ := List.mem_flatMap.mp hc
        obtain ⟨hfailure, hactions⟩ := hwrites rule (List.mem_filter.mp hrule).1
        simp only [hfailure, failing, Option.map_none, Option.toList_none, List.mem_singleton] at hc
        exact hc ▸ .act hactions
      · exact hsleeping _ c hc
    · exact List.mem_singleton.mp hc ▸ .install
  · refine ⟨sleeping s.loadDelay, [.act [.load], .act s.loaded], [.leave, .act s.closed], ?_,
      hsleeping _, ?_, ?_⟩
    · simp [environment, loading, hload, hopens, hhands, hunload, failing]
    · simpa using ⟨.act (by simpa using Action.Quiet.load), Chore.Quiet.act hloaded⟩
    · simpa using ⟨.leave, Chore.Quiet.act hclosed⟩

/-! ## Time that passes -/

namespace Scheduler

variable {s s₁ s₂ s₃ : Scheduler (List Frame) Job}

/-- A scheduler after some time in which nothing has happened to the futures and tasks that there were. -/
structure Passes (s s' : Scheduler (List Frame) Job) : Prop where
  tasks : s'.tasks = s.tasks
  length : s.futures.length ≤ s'.futures.length
  lasts : s.Lasts (· < s.futures.length) s'
  idle : ∀ h ∈ s'.handles, s'.Idle Job.Quiet h

theorem Passes.refl (h : ∀ h ∈ s.handles, s.Idle Job.Quiet h) : s.Passes s :=
  ⟨rfl, Nat.le_refl _, .of_futures rfl, h⟩

theorem Passes.trans (h₁ : s₁.Passes s₂) (h₂ : s₂.Passes s₃) : s₁.Passes s₃ where
  tasks := h₂.tasks.trans h₁.tasks
  length := Nat.le_trans h₁.length h₂.length
  lasts := h₁.lasts.trans (h₂.lasts.mono fun _ hf => Nat.lt_of_lt_of_le hf h₁.length)
  idle := h₂.idle

end Scheduler

namespace World

variable {w w' w₁ w₂ w₃ : World} {t : TaskId}

/-- A world in which time has passed for a task. -/
structure Passes (w w' : World) : Prop extends w.Drifts w' where
  scheduler : w.scheduler.Passes w'.scheduler

theorem Passes.trans (h₁ : w₁.Passes w₂) (h₂ : w₂.Passes w₃) : w₁.Passes w₃ :=
  ⟨h₁.toDrifts.trans h₂.toDrifts, h₁.scheduler.trans h₂.scheduler⟩

/-- Whether a task has its turn, and nothing is to be handled but what is of no use to any task. -/
structure Lone (w : World) (t : TaskId) : Prop where
  task : ∃ ending, w.scheduler.task? t = some ⟨[], ending, none, false⟩
  idle : ∀ h ∈ w.scheduler.handles, w.scheduler.Idle Job.Quiet h
  loads : w.session.loads = none

/-- The page changes, or something is recorded. -/
theorem Lone.aside (h : w.Lone t) (site : Site) (history : List Event) :
    w.Passes { w with site, history } := ⟨.aside w _ _ _, .refl h.idle⟩

theorem Lone.refl (h : w.Lone t) : w.Passes w := h.aside w.site w.history

theorem Passes.lone (hp : w.Passes w') (h : w.Lone t) : w'.Lone t where
  task := by
    obtain ⟨ending, htask⟩ := h.task
    refine ⟨ending, ?_⟩
    unfold Scheduler.task?
    rw [hp.scheduler.tasks]
    exact htask
  idle := hp.scheduler.idle
  loads := by rw [hp.session, h.loads]

/-- A world in which time has passed for a task, and perhaps other expectations are pending. -/
structure Flows (w w' : World) : Prop where
  drifts : ∃ pending, ({ w with session := { w.session with pending } } : World).Drifts w'
  scheduler : w.scheduler.Passes w'.scheduler

theorem Passes.flows (h : w.Passes w') : w.Flows w' :=
  ⟨⟨w.session.pending, h.toDrifts⟩, h.scheduler⟩

theorem Flows.trans (h₁ : w₁.Flows w₂) (h₂ : w₂.Flows w₃) : w₁.Flows w₃ := by
  obtain ⟨pending₁, hd₁⟩ := h₁.drifts
  obtain ⟨pending₂, hd₂⟩ := h₂.drifts
  refine ⟨⟨pending₂, ?_, ?_, ?_, ?_, ?_, ?_⟩, h₁.scheduler.trans h₂.scheduler⟩
  · rw [hd₂.session]
    simp only [hd₁.session]
  · exact hd₂.environment.trans hd₁.environment
  · exact hd₂.monitor.trans hd₁.monitor
  · exact hd₂.verdict.trans hd₁.verdict
  · exact hd₂.failSignal.trans hd₁.failSignal
  · exact hd₂.generators.trans hd₁.generators

theorem Flows.lone (hf : w.Flows w') (h : w.Lone t) : w'.Lone t := by
  obtain ⟨pending, hd⟩ := hf.drifts
  obtain ⟨ending, htask⟩ := h.task
  refine ⟨⟨ending, ?_⟩, hf.scheduler.idle, ?_⟩
  · unfold Scheduler.task?
    rw [hf.scheduler.tasks]
    exact htask
  · rw [hd.session]
    exact h.loads

theorem Hums.passes {size : Nat} (hh : w.Hums size w') (h : w.Lone t) (hg : w.scheduler.Groups) :
    w.Passes w' where
  toDrifts := hh.toDrifts
  scheduler := by
    obtain ⟨jobs, hperm, hquiet, -⟩ := hh.handles
    have hlasts {p : FutureId → Prop} : w.scheduler.Lasts p w'.scheduler := .of_futures hh.futures
    refine ⟨hh.tasks, Nat.le_of_eq (by rw [hh.futures]), hlasts, ?_⟩
    intro handle hmem
    rcases List.mem_append.mp (hperm.mem_iff.mp hmem) with hmem | hmem
    · obtain ⟨actions, hactions, rfl⟩ := List.mem_map.mp hmem
      exact hquiet actions hactions
    · exact (h.idle handle hmem).mono hg hmem hlasts (fun _ _ _ => trivial) fun _ _ => .inl trivial

end World

namespace Machine

open World

variable {w : World} {t : TaskId} {stack : List Frame}

/-- A task that had its turn has it again, and its record is as it was. -/
theorem set_woken {tasks : List (Task (List Frame))} {old : Task (List Frame)}
    (h : tasks[t]? = some old) (new : Task (List Frame)) : (tasks.set t new).set t old = tasks := by
  rw [List.set_set]
  exact List.ext_getElem? fun i => by
    by_cases hi : t = i
    · subst hi
      rw [List.getElem?_set_self (List.getElem?_eq_some_iff.mp h).1, h]
    · rw [List.getElem?_set_ne hi]

/-- Time has passed for a task that is due and was alone before, once it has its turn again. -/
theorem Woken.passes {w₁ w' : World} {task old : Task (List Frame)} {c c' : Control}
    {sights : List Sight} (hwoken : Woken t task w₁ w')
    (hm : Machine.Sound ⟨w, some (t, c)⟩)
    (hshows : Shows ⟨w, some (t, c)⟩ sights ⟨w', some (t, c')⟩)
    (hdrifts : w.Drifts w₁) (htask : w.scheduler.task? t = some old)
    (htasks : w₁.scheduler.tasks = w.scheduler.tasks.set t task)
    (hold : old = { task with stack := [], awaiting := none })
    (hlasts : w.scheduler.Lasts (· < w.scheduler.futures.length) w₁.scheduler)
    (hwait : ∀ f, task.awaiting = some f → w.scheduler.futures.length ≤ f) : w.Passes w' where
  toDrifts := hdrifts.trans hwoken.toDrifts
  scheduler := by
    obtain ⟨more, hextends⟩ := Steps.extends hm hshows.steps
    refine ⟨?_, hextends.length, hlasts.trans (hwoken.lasts.mono ?_), hwoken.idle⟩
    · rw [hwoken.tasks, htasks, ← hold]
      exact set_woken htask task
    · intro f hf hwaiting
      exact Nat.not_lt.mpr (hwait f hwaiting) hf

/-- Time passes for a task that is alone. -/
theorem shows_sleep (delay : Float) (hm : Machine.Sound ⟨w, some (t, .work (.sleep delay) stack)⟩)
    (hl : w.Lone t) : ∃ w', Shows ⟨w, some (t, .work (.sleep delay) stack)⟩ []
      ⟨w', some (t, .outcome .finished stack)⟩ ∧ w.Passes w' := by
  obtain ⟨ending, htask⟩ := hl.task
  have hstep := step_work w t (.sleep delay) stack
  by_cases hdelay : delay ≤ 0.0
  · have hpause : step ⟨w, some (t, .work (.sleep delay) stack)⟩ =
        some ⟨w.withScheduler (·.pause t stack), none⟩ := by
      rw [hstep]
      simp only [Work.run, Move.sleep, if_pos hdelay]
      rfl
    obtain ⟨w', hshows, hwoken⟩ := lull (hm.step hpause) hl.loads
      (Scheduler.pends_pause htask rfl rfl hl.idle stack)
    have hall := (Shows.mute hpause rfl rfl).silently hshows
    have heq : w.scheduler.pause t stack =
        (w.scheduler.setTask t ⟨stack, ending, none, false⟩).enqueue [.turn t] := by
      simp only [Scheduler.pause, htask]
    refine ⟨w', hall, hwoken.passes hm hall (.aside w _ _ _) htask ?_ rfl ?_ (by simp)⟩
    · exact congrArg Scheduler.tasks heq
    · refine .of_futures ?_
      change (w.scheduler.pause t stack).futures = _
      rw [heq]
      rfl
  · let f := w.scheduler.futures.length
    let s := (w.scheduler.newFuture .released).2.after delay (.release f)
    have hopen : s.outcome? f = none :=
      (Scheduler.outcome?_newFuture _ f).trans Scheduler.outcome?_length
    have hpark : step ⟨w, some (t, .work (.sleep delay) stack)⟩ =
        some ⟨w.withScheduler fun _ => s.park t f stack, none⟩ := by
      rw [hstep]
      simp only [Work.run, Move.sleep, if_neg hdelay]
      change some (follow t stack (.await f []) (w.withScheduler fun _ => s)) = _
      simp only [follow, World.withScheduler, hopen, List.nil_append]
    obtain ⟨hpends, hlasts⟩ :=
      Scheduler.pends_sleep htask rfl hm.groups hl.idle delay stack
    obtain ⟨w', hshows, hwoken⟩ := lull (hm.step hpark) hl.loads hpends
    have hall := (Shows.mute hpark rfl rfl).silently hshows
    refine ⟨w', hall, hwoken.passes hm hall (.aside w _ _ _) htask ?_ rfl hlasts ?_⟩
    · change (s.park t f stack).tasks = _
      have htask' : s.task? t = some ⟨[], ending, none, false⟩ := htask
      simp only [Scheduler.park, htask']
      change (s.watch f (.task t)).tasks.set t _ = _
      rw [Scheduler.tasks_watch]
      rfl
    · rintro g ⟨⟩
      exact Nat.le_refl _

/-! ## Chores -/

/-- Something is done at once, and what is left comes next. -/
theorem run_doingThen {e : Engine Unit} {w' : World} (he : e.exec w = (.ok (), w'))
    (rest : List Deed) : (Move.doingThen e rest).run w = (.call (.deeds rest) [], w') := by
  have he' : e w = (.ok (), w') := he
  simp only [Move.doingThen, Move.ofEngine, StateT.run, bind, StateT.bind, ExceptT.run,
    ExceptT.bind, ExceptT.mk, he']
  rfl

/-- A quiet chore is done. -/
theorem shows_chore {c : Chore} {rest : List Deed} (hc : c.Quiet)
    (hm : Machine.Sound ⟨w, some (t, .work (.deeds (.chore c :: rest)) stack)⟩) (hl : w.Lone t) :
    ∃ w', Shows ⟨w, some (t, .work (.deeds (.chore c :: rest)) stack)⟩ []
      ⟨w', some (t, .work (.deeds rest) stack)⟩ ∧ w.Passes w' := by
  have hstep := step_work w t (.deeds (.chore c :: rest)) stack
  have hdone (new : List Event) {e : Engine Unit} {w' : World}
      (hdoes : Move.chore rest c = Move.doingThen e rest) (he : e.exec w = (.ok (), w'))
      (hpasses : w.Passes w') (hnew : w'.history = new ++ w.history)
      (hsilent : ∀ e ∈ new, e.sight? = none) :
      ∃ w', Shows ⟨w, some (t, .work (.deeds (.chore c :: rest)) stack)⟩ []
        ⟨w', some (t, .work (.deeds rest) stack)⟩ ∧ w.Passes w' := by
    have hrun : (Move.chore rest c).run w = (.call (.deeds rest) [], w') := by
      rw [hdoes, run_doingThen he]
    have hnext : step ⟨w, some (t, .work (.deeds (.chore c :: rest)) stack)⟩ =
        some ⟨w', some (t, .work (.deeds rest) stack)⟩ := by
      rw [hstep]
      simp only [Work.run, Move.deeds, hrun]
      rfl
    exact ⟨w', .silent new hnext hnew rfl hsilent, hpasses⟩
  cases hc with
  | @sleep delay =>
      have hcall : step ⟨w, some (t, .work (.deeds (.chore (.sleep delay) :: rest)) stack)⟩ =
          some ⟨w, some (t, .work (.sleep delay) (.deeds rest :: stack))⟩ := rfl
      obtain ⟨w', hshows, hpasses⟩ := shows_sleep delay (hm.step hcall) hl
      have hback : step ⟨w', some (t, .outcome .finished (.deeds rest :: stack))⟩ =
          some ⟨w', some (t, .work (.deeds rest) stack)⟩ := rfl
      refine ⟨w', ?_, hpasses⟩
      exact ((Shows.mute hcall rfl rfl).silently hshows).silently
        (.mute hback rfl rfl)
  | @act actions hquiet =>
      obtain ⟨w', hperform, hhums⟩ := Engine.exec_perform hquiet hl.loads
      obtain ⟨new, hnew, hsilent⟩ := hhums.history
      exact hdone new rfl hperform (hhums.passes hl hm.groups) hnew hsilent
  | clear | install => exact hdone [] rfl rfl (hl.aside _ _) rfl (by simp)
  | leave => exact hdone [.log .pageDone] rfl rfl (hl.aside _ _) rfl (by simp [Event.sight?])

/-- Quiet chores are done in turn. -/
theorem shows_chores {chores : List Chore} {rest : List Deed} (hquiet : ∀ c ∈ chores, c.Quiet)
    (hm : Machine.Sound ⟨w, some (t, .work (.deeds (chores.map .chore ++ rest)) stack)⟩)
    (hl : w.Lone t) :
    ∃ w', Shows ⟨w, some (t, .work (.deeds (chores.map .chore ++ rest)) stack)⟩ []
      ⟨w', some (t, .work (.deeds rest) stack)⟩ ∧ w.Passes w' := by
  induction chores generalizing w with
  | nil => exact ⟨w, .refl _, hl.refl⟩
  | cons c chores ih =>
      obtain ⟨w₁, hshows₁, hpasses₁⟩ := shows_chore (hquiet c (List.mem_cons_self ..)) hm hl
      obtain ⟨w₂, hshows₂, hpasses₂⟩ := ih (fun c hc => hquiet c (List.mem_cons_of_mem _ hc))
        (hshows₁.sound hm) (hpasses₁.lone hl)
      exact ⟨w₂, hshows₁.silently hshows₂, hpasses₁.trans hpasses₂⟩

/-- Quiet chores come to an end. -/
theorem shows_deeds {chores : List Chore} (hquiet : ∀ c ∈ chores, c.Quiet)
    (hm : Machine.Sound ⟨w, some (t, .work (.deeds (chores.map .chore)) stack)⟩) (hl : w.Lone t) :
    ∃ w', Shows ⟨w, some (t, .work (.deeds (chores.map .chore)) stack)⟩ []
      ⟨w', some (t, .outcome .finished stack)⟩ ∧ w.Passes w' := by
  rw [← List.append_nil (chores.map Deed.chore)] at hm ⊢
  obtain ⟨w', hshows, hpasses⟩ := shows_chores hquiet hm hl
  have hend : step ⟨w', some (t, .work (.deeds []) stack)⟩ =
      some ⟨w', some (t, .outcome .finished stack)⟩ := rfl
  exact ⟨w', hshows.silently (.mute hend rfl rfl), hpasses⟩

/-- Files are written. -/
theorem shows_write {files : Table Value} (he : w.environment.Quiet)
    (hm : Machine.Sound ⟨w, some (t, .work (.write files) stack)⟩) (hl : w.Lone t) :
    ∃ w', Shows ⟨w, some (t, .work (.write files) stack)⟩ [.write files]
      ⟨w', some (t, .outcome .finished stack)⟩ ∧ w.Passes w' := by
  let w₁ : World := { w with
    site := { w.site with writes := w.site.writes + 1 }
    history := .log (.write files) :: w.history }
  have hcall : step ⟨w, some (t, .work (.write files) stack)⟩ =
      some ⟨w₁, some (t, .work (.deeds ((w.environment.write w.site.writes files).map .chore))
        (.during .update files.keys :: stack))⟩ := rfl
  have hpasses₁ : w.Passes w₁ := hl.aside _ _
  obtain ⟨w', hshows, hpasses⟩ := shows_deeds (he.write _ _) (hm.step hcall) (hpasses₁.lone hl)
  have hback : step ⟨w', some (t, .outcome .finished (.during .update files.keys :: stack))⟩ =
      some ⟨w', some (t, .outcome .finished stack)⟩ := rfl
  have hwrite := Shows.single [.log (.write files)] hcall rfl
  exact ⟨w', (hwrite.then_silently hshows).then_silently
    (.mute hback rfl rfl), hpasses₁.trans hpasses⟩

end Machine

end HotSpec
