import HotSpec.Proofs.Engine.Acts
import HotSpec.Proofs.Scheduler.Calm
import HotSpec.Proofs.Scheduler.Threads

/-!
# What a monitor hears

Everything that can happen to the monitor of a page: the page tells it something, a burst is over,
the monitor is closed, or something happens elsewhere, such as a change of the policy.  Each happening
is described by what it does to the monitor, to the future of its verdict, and to the bursts that are
still open.

Main definitions:

- `Watched`, `World.Watch`: a happening, and what it makes of a world.
- `World.Watches`: happenings in a row, each with the world that it came upon.

Main results:

- Theorems `monitor_tellMonitor`, `bursts_tellMonitor`, `outcome?_tellMonitor`: a monitor that is
  told something.
- Theorems `watch_console`, `watch_pageError`, `watch_error`: what the page tells.
- Theorem `watch_signal`: whatever happens, the monitor hears one signal or none.
-/

namespace HotSpec

/-- What can happen to a monitor. -/
inductive Watched
  | told (event : PageEvent)
  | expired
  | elsewhere
  | closed

/-- The console message that a monitor is told of. -/
def Watched.message? : Watched → Option ConsoleMessage
  | .told (.console message) => some message
  | _ => none

/-- The burst that a job ends. -/
def Job.burst? : Job → Option Bool
  | .expire error => some error
  | .act _ => none

/-- The burst that is ended by what is handled. -/
def Handle.burst? : Handle Job → Option Bool
  | .job j => j.burst?
  | _ => none

/-- The fault that an error of the page is: it is passed on as it is. -/
def errorFault (kind : Option FaultKind) (text : String) : Fault :=
  match kind with
  | none => .page ("Page error: " ++ text)
  | some kind => .given ⟨kind, text⟩

namespace World

variable {w w' : World} {f : FutureId}

/-! ## Bursts -/

/-- The bursts that the clock is still to end, of an error or else of a warning. -/
def bursts (w : World) : List Bool := w.scheduler.handles.filterMap Handle.burst?

theorem bursts_settle (w : World) (f : Option FutureId) (o : Outcome) :
    (w.settle f o).bursts = w.bursts := by
  unfold settle
  split
  · next f =>
    unfold bursts
    by_cases hopen : w.scheduler.outcome? f = none ∧ f < w.scheduler.futures.length
    · have hhandles := Scheduler.handles_settle o hopen.1
      change (w.scheduler.settle f o).handles.filterMap _ = _
      rw [hhandles, List.filterMap_append]
      have hnone : ((w.scheduler.watchers f).map
          (Scheduler.handleOf f)).filterMap Handle.burst? = [] := by
        rw [List.filterMap_eq_nil_iff]
        intro h hh
        obtain ⟨watcher, -, rfl⟩ := List.mem_map.mp hh
        cases watcher <;> rfl
      rw [hnone, List.append_nil]
    · change (w.scheduler.settle f o).handles.filterMap _ = _
      rw [Scheduler.settle_of_settled hopen]
  · rfl

theorem bursts_after (w : World) (delay : Float) (error : Bool) :
    (w.withScheduler (·.after delay (.job (.expire error)))).bursts.Perm (error :: w.bursts) := by
  have hperm := (Scheduler.handles_after delay (Handle.job (.expire error))
    (s := w.scheduler)).filterMap Handle.burst?
  have hburst : Handle.burst? (.job (.expire error)) = some error := rfl
  rwa [List.filterMap_cons_some hburst] at hperm

/-- A burst that the clock has ended is not open any more. -/
theorem bursts_takes {s : Scheduler (List Frame) Job} {error : Bool}
    (h : w.scheduler.Takes (.job (.expire error)) s) :
    w.bursts.Perm (error :: ({ w with scheduler := s } : World).bursts) := by
  have hperm := h.perm.filterMap Handle.burst?
  have hburst : Handle.burst? (.job (.expire error)) = some error := rfl
  rwa [List.filterMap_cons_some hburst] at hperm

/-! ## Signals -/

/-- What a monitor makes of a signal, under the policy in force. -/
def heard (w : World) (signal : Monitor.Signal) : Monitor × Monitor.Reaction :=
  w.monitor.step w.session.console signal

/-- The world in which a monitor has asked for what it asks after a signal. -/
def asked (w : World) (signal : Monitor.Signal) : World :=
  let w₁ : World := { w with monitor := (w.heard signal).1 }
  let w₂ := if (w.heard signal).2.detach then w₁.unlistenMonitor else w₁
  match (w.heard signal).2.timer with
  | some error =>
    w₂.withScheduler (·.after w₂.session.settings.bufferDelay (.job (.expire error)))
  | none => w₂

theorem tellMonitor_eq (w : World) (signal : Monitor.Signal) : w.tellMonitor signal =
    (w.asked signal).passVerdict w.monitor.verdict (w.heard signal).1.verdict := rfl

/-- To be taken off the page or to be told later changes neither the monitor nor any future. -/
theorem asked_spec (w : World) (signal : Monitor.Signal) :
    (w.asked signal).monitor = (w.heard signal).1 ∧ (w.asked signal).session = w.session ∧
      (w.asked signal).verdict = w.verdict ∧
      (w.asked signal).scheduler.futures = w.scheduler.futures ∧
      (w.asked signal).bursts.Perm ((w.heard signal).2.timer.toList ++ w.bursts) := by
  unfold asked
  rcases (w.heard signal).2 with ⟨detach, timer⟩
  cases detach <;> cases timer with
  | none => exact ⟨rfl, rfl, rfl, rfl, .refl _⟩
  | some error => exact ⟨rfl, rfl, rfl, rfl, bursts_after w _ error⟩

theorem passVerdict_spec (w : World) (before after : Option (Option Fault)) :
    (w.passVerdict before after).monitor = w.monitor ∧
      (w.passVerdict before after).session = w.session ∧
      (w.passVerdict before after).verdict = w.verdict ∧
      (w.passVerdict before after).bursts = w.bursts := by
  unfold passVerdict
  split
  · have hbursts := w.bursts_settle w.verdict .finished
    cases hv : w.verdict with
    | none => exact ⟨rfl, rfl, hv, rfl⟩
    | some f => exact ⟨rfl, rfl, hv, by rwa [hv] at hbursts⟩
  · next fault =>
    have hbursts := (w.record (.failed fault)).bursts_settle w.verdict (.fault fault)
    cases hv : w.verdict with
    | none => exact ⟨rfl, rfl, hv, rfl⟩
    | some f => exact ⟨rfl, rfl, hv, by rwa [hv] at hbursts⟩
  · exact ⟨rfl, rfl, rfl, rfl⟩

theorem monitor_tellMonitor (w : World) (signal : Monitor.Signal) :
    (w.tellMonitor signal).monitor = (w.heard signal).1 := by
  rw [tellMonitor_eq, (passVerdict_spec _ _ _).1]
  exact (w.asked_spec signal).1

theorem verdict_tellMonitor (w : World) (signal : Monitor.Signal) :
    (w.tellMonitor signal).verdict = w.verdict := by
  rw [tellMonitor_eq, (passVerdict_spec _ _ _).2.2.1]
  exact (w.asked_spec signal).2.2.1

theorem born_tellMonitor (w : World) (signal : Monitor.Signal) :
    (w.tellMonitor signal).scheduler.futures.length = w.scheduler.futures.length := by
  have hsettle (w : World) (f : Option FutureId) (o : Outcome) :
      (w.settle f o).scheduler.futures.length = w.scheduler.futures.length := by
    cases f with
    | none => rfl
    | some f => exact w.scheduler.length_settle f o
  have hasked := congrArg List.length (w.asked_spec signal).2.2.2.1
  rw [tellMonitor_eq]
  unfold passVerdict
  split
  · exact (hsettle _ _ _).trans hasked
  · exact (hsettle _ _ _).trans hasked
  · exact hasked

theorem bursts_tellMonitor (w : World) (signal : Monitor.Signal) :
    (w.tellMonitor signal).bursts.Perm ((w.heard signal).2.timer.toList ++ w.bursts) := by
  rw [tellMonitor_eq, (passVerdict_spec _ _ _).2.2.2]
  exact (w.asked_spec signal).2.2.2.2

/-! ## The future of the verdict -/

/-- How a verdict settles its future. -/
def outcomeOf : Option Fault → Outcome
  | none => .finished
  | some fault => .fault fault

/-- Only a new verdict settles the future of the verdict, and it settles nothing else. -/
theorem outcome?_tellMonitor {signal : Monitor.Signal} (hv : w.verdict = some f)
    (hlt : f < w.scheduler.futures.length) (hopen : w.scheduler.outcome? f = none) :
    (w.tellMonitor signal).scheduler.outcome? f =
      if w.monitor.verdict = none then (w.heard signal).1.verdict.map outcomeOf else none := by
  obtain ⟨-, -, hverdict, hfutures, -⟩ := w.asked_spec signal
  have hopen' : (w.asked signal).scheduler.outcome? f = none :=
    (Scheduler.outcome?_congr hfutures f).trans hopen
  have hlt' : f < (w.asked signal).scheduler.futures.length := by rwa [hfutures]
  rw [tellMonitor_eq]
  generalize w.asked signal = w₁ at *
  cases hbefore : w.monitor.verdict with
  | some verdict => simpa [passVerdict] using hopen'
  | none =>
    cases hafter : (w.heard signal).1.verdict with
    | none => simpa [passVerdict] using hopen'
    | some verdict =>
      have hset (o : Outcome) (w₂ : World) (h : w₂.scheduler = w₁.scheduler) :
          (w₂.settle (some f) o).scheduler.outcome? f = some o := by
        change (w₂.scheduler.settle f o).outcome? f = some o
        rw [h, Scheduler.outcome?_settle o hopen' hlt' f, if_pos rfl]
      cases verdict with
      | none =>
        change (w₁.settle w₁.verdict _).scheduler.outcome? f = _
        rw [hverdict, hv]
        exact hset _ w₁ rfl
      | some fault =>
        change ((w₁.record _).settle w₁.verdict _).scheduler.outcome? f = _
        rw [hverdict, hv]
        exact hset _ _ rfl

/-- A settled future stays as it is. -/
theorem outcome?_tellMonitor_of_some {o : Outcome} (signal : Monitor.Signal)
    (h : w.scheduler.outcome? f = some o) :
    (w.tellMonitor signal).scheduler.outcome? f = some o := by
  have hasked : (w.asked signal).scheduler.outcome? f = some o :=
    (Scheduler.outcome?_congr (w.asked_spec signal).2.2.2.1 f).trans h
  rw [tellMonitor_eq]
  unfold passVerdict settle
  split
  · split
    · exact Scheduler.outcome?_settle_of_some hasked _ _
    · exact hasked
  · split
    · exact Scheduler.outcome?_settle_of_some hasked _ _
    · exact hasked
  · exact hasked

/-! ## Happenings -/

/-- Two worlds that are the same for the monitor: it has heard the same, and the future of its verdict
stands as before. -/
structure Alike (w w' : World) : Prop where
  monitor : w'.monitor = w.monitor
  verdict : w'.verdict = w.verdict
  outcome? : ∀ f, w.verdict = some f → w'.scheduler.outcome? f = w.scheduler.outcome? f
  born : w.scheduler.futures.length ≤ w'.scheduler.futures.length

/-- What a happening makes of a world.  No handler of errors raises a fault of its own. -/
inductive Watch : World → Watched → World → Prop
  /-- The page tells the monitor something. -/
  | told {w w' : World} {event : PageEvent} (h : (Engine.deliver event .monitor).exec w = (.ok (), w')) :
      Watch w (.told event) w'
  /-- The clock has come to the end of a burst. -/
  | expired {w : World} {s : Scheduler (List Frame) Job} {error : Bool}
      (h : w.scheduler.Takes (.job (.expire error)) s) :
      Watch w .expired (({ w with scheduler := s } : World).tellMonitor (.expired error))
  /-- Something happens elsewhere: the policy or the handlers of errors change, or others have their
  turns. -/
  | elsewhere {w w' : World} (h : w.Alike w') (hbursts : w'.bursts.Perm w.bursts) :
      Watch w .elsewhere w'
  /-- The monitor is closed. -/
  | closed {w : World} : Watch w .closed (w.tellMonitor .close)

/-- Happenings in a row, each with the world that it came upon. -/
inductive Watches (w₀ : World) : List (World × Watched) → World → Prop
  | nil : Watches w₀ [] w₀
  | snoc {past : List (World × Watched)} {w w' : World} {what : Watched} (h : Watches w₀ past w) (hlast : w.Watch what w') :
      Watches w₀ (past ++ [(w, what)]) w'

/-- A world that differs from another one in its session and its history only. -/
def SameMonitor (w w' : World) : Prop :=
  w' = { w with session := w'.session, history := w'.history }

theorem SameMonitor.alike (h : w.SameMonitor w') : w.Alike w' := by
  rw [show w' = _ from h]
  exact ⟨rfl, rfl, fun _ _ => rfl, Nat.le_refl _⟩

theorem SameMonitor.bursts (h : w.SameMonitor w') : w'.bursts = w.bursts := by
  rw [show w' = _ from h]
  rfl

theorem SameMonitor.trans {w₁ w₂ w₃ : World} (h₁ : w₁.SameMonitor w₂) (h₂ : w₂.SameMonitor w₃) :
    w₁.SameMonitor w₃ := by
  unfold SameMonitor at *
  rw [h₂, h₁]

end World

namespace Engine

/-- Whoever is asked whether it claims an error changes nothing but what is known of the test. -/
theorem sameMonitor_claim (text : String) (handlers : List ErrorHandler) (w : World) :
    w.SameMonitor ((claim text handlers).exec w).2 := by
  have hone (h : ErrorHandler) (w : World) : w.SameMonitor ((claimBy text h).exec w).2 := by
    cases h with
    | text part => rfl
    | counter =>
      unfold claimBy
      rw [exec_bind]
      simp only [exec_get]
      split
      · rfl
      · rfl
  induction handlers generalizing w with
  | nil => rfl
  | cons h handlers ih =>
    have hfirst := hone h w
    unfold claim
    rw [exec_bind]
    split
    · next claimed w₁ hexec =>
      rw [hexec] at hfirst
      cases claimed with
      | true => exact hfirst
      | false => exact hfirst.trans (ih w₁)
    · next fault w₁ hexec => rwa [hexec] at hfirst

end Engine

namespace World

variable {w w' : World}

/-- A console message that the page tells is one that the monitor hears. -/
theorem watch_console {message : ConsoleMessage} (h : w.Watch (.told (.console message)) w') :
    ∃ w₁, w.SameMonitor w₁ ∧ w₁.session = w.session ∧ w' = w₁.tellMonitor (.message message) := by
  cases h with
  | told h =>
    simp only [Engine.deliver, Engine.deliverMonitor, Engine.exec_bind, Engine.exec_get] at h
    split at h
    · exact ⟨w.record (.log (.echo message.echo)), rfl, rfl, (congrArg Prod.snd h).symm⟩
    · exact ⟨w, rfl, rfl, (congrArg Prod.snd h).symm⟩

/-- An uncaught error is told to the monitor once it is known whether somebody claims it. -/
theorem watch_pageError {text : String} (h : w.Watch (.told (.pageError text)) w') :
    ∃ w₁ claimed, (Engine.claim text w.session.errorHandlers).exec w = (.ok claimed, w₁) ∧
      w.SameMonitor w₁ ∧ w' = w₁.tellMonitor (.pageError text claimed) := by
  cases h with
  | told h =>
    simp only [Engine.deliver, Engine.deliverMonitor, Engine.exec_bind, Engine.exec_get] at h
    have hsame := Engine.sameMonitor_claim text w.session.errorHandlers w
    split at h
    · next claimed w₁ hexec =>
      rw [hexec] at hsame
      exact ⟨w₁, claimed, hexec, hsame, (congrArg Prod.snd h).symm⟩
    · cases congrArg Prod.fst h

/-- A generic error is told to the monitor as it is. -/
theorem watch_error {kind : Option FaultKind} {text : String}
    (h : w.Watch (.told (.error kind text)) w') :
    w' = w.tellMonitor (.error (errorFault kind text)) := by
  cases h with
  | told h => cases kind <;> exact (congrArg Prod.snd h).symm

/-- A load is nothing that the monitor hears. -/
theorem watch_load (h : w.Watch (.told .load) w') : w' = w := by
  cases h with
  | told h => exact (congrArg Prod.snd h).symm

theorem alike_takes {s : Scheduler (List Frame) Job} {handle : Handle Job}
    (h : w.scheduler.Takes handle s) : w.Alike { w with scheduler := s } where
  monitor := rfl
  verdict := rfl
  outcome? f _ := h.outcome? f
  born := h.futures.symm ▸ Nat.le_refl _

/-- Whatever happens, the monitor hears one signal or none. -/
theorem watch_signal {what : Watched} (h : w.Watch what w') :
    w.Alike w' ∨ ∃ w₁ signal, w.Alike w₁ ∧ w' = w₁.tellMonitor signal := by
  have hself : w.Alike w := ⟨rfl, rfl, fun _ _ => rfl, Nat.le_refl _⟩
  cases what with
  | told event =>
    cases event with
    | console m =>
      obtain ⟨w₁, hsame, -, heq⟩ := watch_console h
      exact .inr ⟨w₁, _, hsame.alike, heq⟩
    | pageError text =>
      obtain ⟨w₁, claimed, -, hsame, heq⟩ := watch_pageError h
      exact .inr ⟨w₁, _, hsame.alike, heq⟩
    | error kind text => exact .inr ⟨w, _, hself, watch_error h⟩
    | load => exact .inl (watch_load h ▸ hself)
  | expired =>
    cases h with
    | expired ht => exact .inr ⟨_, _, alike_takes ht, rfl⟩
  | elsewhere =>
    cases h with
    | elsewhere hsame _ => exact .inl hsame
  | closed =>
    cases h with
    | closed => exact .inr ⟨w, _, hself, rfl⟩

end World

end HotSpec
