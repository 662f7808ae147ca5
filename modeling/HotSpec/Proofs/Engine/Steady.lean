import HotSpec.Proofs.Engine.Steps
import HotSpec.Proofs.Scheduler.Growth

/-!
# What lasts while a task has its turn

Acts leave most of a world alone: they settle signals and put jobs off, and the only events that
they record are lines of the log and failures of the test.

Main definitions:

- `World.Signals`: what the world waits for and tells of itself are signals.
- `World.Steady`: a world that differs in what acts may change, and in where its scripts stand.

Main results:

- Theorem `Acts.steady`: acts keep a world steady.
- Theorem `Advances.steady`: so does a script that is resumed.
-/

namespace HotSpec

/-- Whether an event is a line of the log, a failure of the test, or something that a script
yielded. -/
def Event.isMinor : Event → Bool
  | .log _ | .failed _ | .yielded .. => true
  | _ => false

namespace World

/-- The verdict of the monitor, the fail signal and the waits for messages are signals. -/
structure Signals (w : World) : Prop where
  verdict : ∀ f, w.verdict = some f → w.scheduler.kind f = .signal ∧ f < w.scheduler.futures.length
  failSignal : ∀ f, w.failSignal = some f →
    w.scheduler.kind f = .signal ∧ f < w.scheduler.futures.length
  waits : ∀ wait ∈ w.waits,
    w.scheduler.kind wait.found = .signal ∧ wait.found < w.scheduler.futures.length
  distinct : ∀ f, w.verdict = some f → w.failSignal ≠ some f

/-- A world that nobody was asked anything in. -/
structure Quiet (w w' : World) : Prop where
  environment : w'.environment = w.environment
  processor : w'.processor = w.processor
  verdict : w'.verdict = w.verdict
  failSignal : w'.failSignal = w.failSignal
  waits : w'.waits = w.waits
  scheduler : w.Signals → w.scheduler.SignalSteps w'.scheduler

/-- A world that differs in what acts may change, and in where its scripts stand. -/
structure Steady (w w' : World) : Prop extends w.Quiet w' where
  session : w.session.Keeps w'.session
  history : ∃ new, w'.history = new ++ w.history ∧ ∀ e ∈ new, e.isMinor = true

variable {w w' w₁ w₂ w₃ : World}

/-- Signals stay signals. -/
theorem Signals.mono {more : Nat} (h : w.Signals) (hg : w.scheduler.Extends more w'.scheduler)
    (hverdict : w'.verdict = w.verdict) (hfail : w'.failSignal = w.failSignal)
    (hwaits : w'.waits = w.waits) : w'.Signals where
  verdict f hf := by
    obtain ⟨hk, hlt⟩ := h.verdict f (by rw [← hverdict]; exact hf)
    exact ⟨hg.signal hlt hk, Nat.lt_of_lt_of_le hlt hg.length⟩
  failSignal f hf := by
    obtain ⟨hk, hlt⟩ := h.failSignal f (by rw [← hfail]; exact hf)
    exact ⟨hg.signal hlt hk, Nat.lt_of_lt_of_le hlt hg.length⟩
  waits wait hwait := by
    obtain ⟨hk, hlt⟩ := h.waits wait (by rw [← hwaits]; exact hwait)
    exact ⟨hg.signal hlt hk, Nat.lt_of_lt_of_le hlt hg.length⟩
  distinct f hf := by
    rw [hfail]
    exact h.distinct f (by rw [← hverdict]; exact hf)

namespace Quiet

theorem refl (w : World) : w.Quiet w := ⟨rfl, rfl, rfl, rfl, rfl, fun _ => .refl _⟩

theorem grows (h : w.Quiet w') (hs : w.Signals) : w.scheduler.Grows [] w'.scheduler :=
  .signals (h.scheduler hs)

theorem signals (h : w.Quiet w') (hs : w.Signals) : w'.Signals :=
  hs.mono (h.grows hs).toExtends h.verdict h.failSignal h.waits

theorem trans (h₁ : w₁.Quiet w₂) (h₂ : w₂.Quiet w₃) : w₁.Quiet w₃ where
  environment := h₂.environment.trans h₁.environment
  processor := h₂.processor.trans h₁.processor
  verdict := h₂.verdict.trans h₁.verdict
  failSignal := h₂.failSignal.trans h₁.failSignal
  waits := h₂.waits.trans h₁.waits
  scheduler hs := (h₁.scheduler hs).trans (h₂.scheduler (h₁.signals hs))

/-- Events are recorded, and what is known of the test changes. -/
theorem note (w : World) (session : Session) (history : List Event) :
    w.Quiet { w with session, history } := ⟨rfl, rfl, rfl, rfl, rfl, fun _ => .refl _⟩

end Quiet

namespace Steady

theorem refl (w : World) : w.Steady w := ⟨.refl w, .refl _, [], rfl, by simp⟩

theorem trans (h₁ : w₁.Steady w₂) (h₂ : w₂.Steady w₃) : w₁.Steady w₃ := by
  obtain ⟨new₁, hnew₁, hminor₁⟩ := h₁.history
  obtain ⟨new₂, hnew₂, hminor₂⟩ := h₂.history
  refine ⟨h₁.toQuiet.trans h₂.toQuiet, h₁.session.trans h₂.session, new₂ ++ new₁, ?_, ?_⟩
  · rw [hnew₂, hnew₁, List.append_assoc]
  · intro e he
    rcases List.mem_append.mp he with he | he
    · exact hminor₂ e he
    · exact hminor₁ e he

/-- A minor event is recorded. -/
theorem record (w : World) {e : Event} (h : e.isMinor = true) : w.Steady (w.record e) :=
  ⟨⟨rfl, rfl, rfl, rfl, rfl, fun _ => .refl _⟩, .refl _, [e], rfl, by simpa using h⟩

/-- A signal is settled. -/
theorem settle (w : World) (f : Option FutureId) (o : Outcome)
    (h : w.Signals → ∀ g, f = some g → w.scheduler.kind g = .signal) : w.Steady (w.settle f o) := by
  cases f with
  | none => exact refl w
  | some g =>
      refine ⟨⟨rfl, rfl, rfl, rfl, rfl, ?_⟩, .refl _, [], rfl, by simp⟩
      intro hs
      exact (Scheduler.SignalStep.settle (h hs g rfl)).steps

/-- A job is put off. -/
theorem later (w : World) (delay : Float) (job : Job) :
    w.Steady (w.withScheduler (·.after delay (.job job))) :=
  ⟨⟨rfl, rfl, rfl, rfl, rfl, fun _ => Scheduler.SignalStep.after.steps⟩, .refl _, [], rfl, by simp⟩

/-- The page or the monitor changes. -/
theorem look (w : World) (site : Site) (monitor : Monitor) :
    w.Steady { w with site, monitor } :=
  ⟨⟨rfl, rfl, rfl, rfl, rfl, fun _ => .refl _⟩, .refl _, [], rfl, by simp⟩

/-- Scripts begin or go on. -/
theorem scripts (w : World) (generators : List Generator) : w.Steady { w with generators } :=
  ⟨⟨rfl, rfl, rfl, rfl, rfl, fun _ => .refl _⟩, .refl _, [], rfl, by simp⟩

end Steady

/-- A new verdict settles the future of those who wait for it. -/
theorem steady_passVerdict (w : World) (before after : Option (Option Fault)) :
    w.Steady (w.passVerdict before after) := by
  unfold passVerdict
  split
  · exact .settle w _ _ fun hs g hg => (hs.verdict g hg).1
  · next fault =>
      refine (Steady.record w (e := .failed fault) rfl).trans (.settle _ _ _ ?_)
      intro hs g hg
      exact (hs.verdict g hg).1
  · exact .refl w

theorem steady_tellMonitor (w : World) (signal : Monitor.Signal) :
    w.Steady (w.tellMonitor signal) := by
  rcases hstep : w.monitor.step w.session.console signal with ⟨monitor, reaction⟩
  have hmonitor := Steady.look w w.site monitor
  have hdetach : w.Steady (if reaction.detach then { w with monitor }.unlistenMonitor
      else { w with monitor }) := by
    split
    · exact hmonitor.trans (.look _ _ _)
    · exact hmonitor
  unfold tellMonitor
  rw [hstep]
  refine Steady.trans ?_ (steady_passVerdict _ _ _)
  cases reaction.timer with
  | none => exact hdetach
  | some error => exact hdetach.trans (.later _ _ _)

/-- What is known of the test changes. -/
theorem Steady.know {f : Session → Session} (h : w.session.Keeps (f w.session)) :
    w.Steady (w.withSession f) :=
  ⟨⟨rfl, rfl, rfl, rfl, rfl, fun _ => .refl _⟩, h, [], rfl, by simp⟩

theorem Act.steady (h : w.Act w') : w.Steady w' := by
  cases h with
  | log entry => exact .record w rfl
  | know f hretain => exact .know hretain.toKeeps
  | look f => exact .look w _ _
  | begin r => exact .scripts w _
  | tell s => exact steady_tellMonitor w s
  | @signal f fault hf hopen =>
      refine (Steady.record w (e := .failed fault) rfl).trans (.settle _ _ _ ?_)
      rintro hs g ⟨⟩
      exact (hs.failSignal f hf).1
  | @meet n wait hwait =>
      refine .settle w _ _ ?_
      rintro hs g ⟨⟩
      exact (hs.waits wait (List.mem_of_getElem? hwait)).1
  | attach hattach => exact .look w _ _
  | release => exact .settle w _ _ fun hs g hg => (hs.failSignal g hg).1
  | later delay actions => exact .later w _ _

/-- A wait for a console message that has ended leaves a world steady. -/
theorem steady_unhearing (w : World) (n : Nat) : w.Steady (w.unhearing n) := .look w _ _

/-- Acts keep a world steady. -/
theorem Acts.steady (h : w.Acts w') : w.Steady w' := h.keeps Steady.refl Steady.trans Act.steady

/-- So does a command that registers something. -/
theorem Sets.steady (h : w.Sets w') : w.Steady w' :=
  h.keeps Steady.refl Steady.trans Act.steady fun _ => Steady.know

theorem setting_setting (phase : Phase) (c : Command) : Engine.Setting (Engine.setting phase c) := by
  cases phase with
  | prepare => exact Engine.setting_prepare c
  | run => exact Engine.setting_configure c

/-- What a handler does at once is made of acts and of what it registers. -/
theorem sets_of_answers {phase : Phase} {c : Command} {r : Reply}
    (h : w.Answers phase c r w') : w.Sets w' := by
  cases h with
  | acts hset h => exact h.sets
  | sets hset => exact setting_setting phase c w

theorem Answers.steady {phase : Phase} {c : Command} {r : Reply} (h : w.Answers phase c r w') :
    w.Steady w' := (sets_of_answers h).steady

theorem steady_setProgress (w : World) (g : Nat) (p : Progress) :
    w.Steady (w.setProgress g p) := by
  unfold setProgress
  split
  · exact .scripts w _
  · exact .refl w

/-- A script that is resumed keeps a world steady. -/
theorem Advances.steady {g : Nat} {adv : Advance} (h : w.Advances g adv w') : w.Steady w' := by
  cases h with
  | stays h => exact h.steady
  | ends h => exact h.steady.trans (steady_setProgress _ _ _)
  | yields h => exact (h.steady.trans (steady_setProgress _ _ _)).trans (.record _ rfl)

end World

end HotSpec
