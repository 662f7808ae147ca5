import HotSpec.Engine.Machine
import HotSpec.Proofs.Scheduler.Views

/-!
# What is done at once

Between two waits a script, a function, the page and the environment change the world only in a few
ways.  This module names these ways and proves that everything the engine does at once is made of
them, so that a property of worlds has to be checked for ten kinds of change only.  What the commands
of the first phase register is changed by these commands alone, and on those who wait for a console
message nothing has any effect but the messages themselves.

Main definitions:

- `Session.preparation`: what commands register before anything runs.
- `World.Act`, `World.Aside`: the kinds of change, and changes that no wait depends on.
- `World.Acts`, `World.Sets`: what is done at once, and what a command does that registers something.

Main results:

- Theorem `touching_tell`: a console message changes the world by such changes.
- Theorem `acting_perform`: actions change the world by acts.
- Theorems `acting_apply`, `acting_reach`: so do the effects and what is asked of the page.
- Theorems `setting_prepare`, `setting_configure`: commands that do not wait change the world by acts
  and by what they register.
- Theorem `Acts.preparation`: acts register nothing.
-/

namespace HotSpec

/-- Two sessions that agree on everything that only the engine itself may change. -/
structure Session.Keeps (s s' : Session) : Prop where
  settings : s'.settings = s.settings
  registry : s'.registry = s.registry
  file : s'.file = s.file
  pending : s'.pending = s.pending
  started : s'.started = s.started
  /-- No label comes to be expected twice. -/
  expects : s.expects.keys.Nodup → s'.expects.keys.Nodup

namespace Session.Keeps

theorem refl (s : Session) : s.Keeps s := ⟨rfl, rfl, rfl, rfl, rfl, id⟩

theorem trans {s₁ s₂ s₃ : Session} (h₁ : s₁.Keeps s₂) (h₂ : s₂.Keeps s₃) : s₁.Keeps s₃ where
  settings := h₂.settings.trans h₁.settings
  registry := h₂.registry.trans h₁.registry
  file := h₂.file.trans h₁.file
  pending := h₂.pending.trans h₁.pending
  started := h₂.started.trans h₁.started
  expects h := h₂.expects (h₁.expects h)

end Session.Keeps

/-- What commands register before anything runs. -/
structure Preparation where
  specs : Table (Table String)
  expects : Table Expectation
  inits : Table Value
  templates : Table Value
  initLabel : Option String
  console : ConsolePolicy
  beforeLoad : Option Value

/-- What a session has registered. -/
def Session.preparation (s : Session) : Preparation :=
  ⟨s.specs, s.expects, s.inits, s.templates, s.initLabel, s.console, s.beforeLoad⟩

/-- Two sessions that differ neither in what only the engine may change nor in what commands
register. -/
structure Session.Retains (s s' : Session) : Prop extends s.Keeps s' where
  preparation : s'.preparation = s.preparation

namespace World

/-- One change of the world that may happen while nobody waits. -/
inductive Act : World → World → Prop
  /-- A line of the log. -/
  | log {w} (entry : LogEntry) : Act w (w.record (.log entry))
  /-- What is known of the test changes, but nothing is registered. -/
  | know {w} (f : Session → Session) (h : w.session.Retains (f w.session)) :
      Act w (w.withSession f)
  /-- The page changes. -/
  | look {w} (f : Site → Site) : Act w (w.withSite f)
  /-- A script begins. -/
  | begin {w} (r : Routine) : Act w (w.begin r).2
  /-- The monitor is told something. -/
  | tell {w} (s : Monitor.Signal) : Act w (w.tellMonitor s)
  /-- The test is failed by its fail signal. -/
  | signal {w} {f : FutureId} (fault : Fault) (h : w.failSignal = some f)
      (hopen : w.scheduler.isSettled f = false) :
      Act w ((w.record (.failed fault)).settle (some f) (.fault fault))
  /-- A wait for a console message is met. -/
  | meet {w} {n : Nat} {wait : MessageWait} (h : w.waits[n]? = some wait) :
      Act w (w.settle (some wait.found) .finished)
  /-- The monitor begins to listen to the page. -/
  | attach {w} {monitor : Monitor} (h : w.monitor.attach = .ok monitor) :
      Act w { w with monitor }.listenMonitor
  /-- The fail signal is let go of. -/
  | release {w} : Act w (w.settle w.failSignal .finished)
  /-- Actions are put off. -/
  | later {w} (delay : Float) (actions : List Action) :
      Act w (w.withScheduler (·.after delay (.job (.act actions))))

/-- Changes of the world that may happen while nobody waits, in turn. -/
def Touches : World → World → Prop := Relation.ReflTransGen Act

theorem Touches.trans {w₁ w₂ w₃ : World} (h₁ : w₁.Touches w₂) (h₂ : w₂.Touches w₃) : w₁.Touches w₃ :=
  Relation.ReflTransGen.trans h₁ h₂

/-- Who listens to the console of the page. -/
def audience (w : World) : List Listener := w.site.listenersOf "console"

/-- A change that no wait for a console message depends on: at most the monitor comes to listen or is
taken off, or a wait that has not begun; and nobody is told anything but by the verdict and by the fail
signal. -/
structure Aside (w w' : World) : Prop where
  audience : w'.audience = w.audience ∨ w'.audience = w.audience ++ [.monitor] ∨
    w'.audience = w.audience.filter (· ≠ .monitor) ∨
    w'.audience = w.audience.filter (· ≠ .wait w.waits.length)
  outcome? : ∀ f, w.verdict ≠ some f → w.failSignal ≠ some f →
    w'.scheduler.outcome? f = w.scheduler.outcome? f

/-- One thing that is done at once: a change that no wait for a console message depends on, or a console
message that the page tells to all who listen. -/
inductive Doing (w : World) : World → Prop
  | act {w'} (h : w.Act w') (haside : w.Aside w') : Doing w w'
  | tell (message : ConsoleMessage) : Doing w ((Engine.emit (.console message)).exec w).2

/-- What is done at once while nobody waits. -/
def Acts : World → World → Prop := Relation.ReflTransGen Doing

theorem Acts.refl (w : World) : w.Acts w := Relation.ReflTransGen.refl

theorem Acts.trans {w₁ w₂ w₃ : World} (h₁ : w₁.Acts w₂) (h₂ : w₂.Acts w₃) : w₁.Acts w₃ :=
  Relation.ReflTransGen.trans h₁ h₂

/-- One thing that a command may do which registers something. -/
inductive Setting : World → World → Prop
  | act {w w'} (h : Doing w w') : Setting w w'
  | set {w} (f : Session → Session) (h : w.session.Keeps (f w.session)) :
      Setting w (w.withSession f)

/-- What a command may do which registers something. -/
def Sets : World → World → Prop := Relation.ReflTransGen Setting

theorem Sets.refl (w : World) : w.Sets w := Relation.ReflTransGen.refl

theorem Sets.trans {w₁ w₂ w₃ : World} (h₁ : w₁.Sets w₂) (h₂ : w₂.Sets w₃) : w₁.Sets w₃ :=
  Relation.ReflTransGen.trans h₁ h₂

theorem Acts.sets {w w' : World} (h : w.Acts w') : w.Sets w' :=
  Relation.ReflTransGen.mono (fun _ _ => Setting.act) _ _ h

/-! ## Changes aside -/

section

variable {w w' : World}

/-- Neither the page nor the scheduler changes. -/
theorem Aside.of_eq (hsite : w'.site = w.site) (hscheduler : w'.scheduler = w.scheduler) : w.Aside w' where
  audience := .inl (congrArg (·.listenersOf "console") hsite)
  outcome? f _ _ := by rw [hscheduler]

theorem Aside.settle {f : Option FutureId} (hf : f = w.verdict ∨ f = w.failSignal) (o : Outcome) :
    w.Aside (w.settle f o) where
  audience := by cases f <;> exact .inl rfl
  outcome? g hverdict hfail := by
    cases f with
    | none => rfl
    | some f =>
        refine Scheduler.outcome?_settle_of_ne ?_ o
        rintro rfl
        exact hf.elim (fun h => hverdict h.symm) fun h => hfail h.symm

/-- One who listens to the console comes last. -/
theorem audience_hear (w : World) (l : Listener) :
    (w.withSite (·.listen Move.consoleEvent l)).audience = w.audience ++ [l] :=
  (Site.listenersOf_listen _ _ _ _).trans (if_pos rfl)

/-- Only one who does not listen to the console any more is missing. -/
theorem audience_unhear (w : World) (l : Listener) :
    (w.withSite (·.unlisten Move.consoleEvent l)).audience = w.audience.filter (· ≠ l) :=
  (Site.listenersOf_unlisten _ _ _ _).trans (if_pos rfl)

end

/-- The acts that no wait for a console message depends on. -/
theorem acts_of_aside {w w' : World} (h : w.Act w') (haside : w.Aside w') : w.Acts w' :=
  Relation.ReflTransGen.single (.act h haside)

theorem acts_log (w : World) (entry : LogEntry) : w.Acts (w.record (.log entry)) :=
  acts_of_aside (.log entry) (.of_eq rfl rfl)

theorem acts_know (w : World) {f : Session → Session} (h : w.session.Retains (f w.session)) :
    w.Acts (w.withSession f) := acts_of_aside (.know f h) (.of_eq rfl rfl)

theorem acts_begin (w : World) (r : Routine) : w.Acts (w.begin r).2 :=
  acts_of_aside (.begin r) (.of_eq rfl rfl)

/-- The page changes, but not who listens to its console. -/
theorem acts_look {w : World} {f : Site → Site} (h : (w.withSite f).audience = w.audience) :
    w.Acts (w.withSite f) := acts_of_aside (.look f) ⟨.inl h, fun _ _ _ => rfl⟩

/-- A wait that listens for a moment does not begin. -/
theorem acts_hearNothing (w : World) :
    w.Acts (w.withSite fun site =>
      (site.listen Move.consoleEvent (.wait w.waits.length)).unlisten Move.consoleEvent
        (.wait w.waits.length)) := by
  refine acts_of_aside (.look _) ⟨.inr (.inr (.inr ?_)), fun _ _ _ => rfl⟩
  change ((w.withSite (·.listen Move.consoleEvent (.wait w.waits.length))).withSite
    (·.unlisten Move.consoleEvent (.wait w.waits.length))).audience = _
  rw [audience_unhear, audience_hear, List.filter_append]
  simp

end World

namespace Engine

variable {α β : Type}

/-! ## Running engines -/

@[simp]
theorem exec_pure (a : α) (w : World) : exec (pure a) w = (.ok a, w) := rfl

@[simp]
theorem exec_fail (f : Fault) (w : World) : exec (fail f : Engine α) w = (.error f, w) := rfl

@[simp]
theorem exec_change (f : World → World) (w : World) : exec (change f) w = (.ok (), f w) := rfl

@[simp]
theorem exec_get (w : World) : exec (get : Engine World) w = (.ok w, w) := rfl

@[simp]
theorem exec_log (e : LogEntry) (w : World) : exec (log e) w = (.ok (), w.record (.log e)) := rfl

@[simp]
theorem exec_ofExcept (r : Except Fault α) (w : World) : exec (ofExcept r) w = (r, w) := rfl

theorem exec_bind (e : Engine α) (f : α → Engine β) (w : World) :
    exec (e >>= f) w =
      match exec e w with
      | (.ok a, w) => exec (f a) w
      | (.error fault, w) => (.error fault, w) := by
  simp only [exec, ExceptT.run, bind, ExceptT.bind, ExceptT.mk, StateT.bind]
  rcases e w with ⟨r | r, w'⟩ <;> rfl

/-- Whether an engine changes the world by steps of some kind only. -/
def Going (S : World → World → Prop) (e : Engine α) : Prop :=
  ∀ w : World, Relation.ReflTransGen S w (exec e w).2

section

variable {S : World → World → Prop}

theorem Going.pure (a : α) : Going S (Pure.pure a : Engine α) := fun _ => Relation.ReflTransGen.refl

theorem Going.fail (f : Fault) : Going S (Engine.fail f : Engine α) :=
  fun _ => Relation.ReflTransGen.refl

theorem Going.get : Going S (MonadState.get : Engine World) := fun _ => Relation.ReflTransGen.refl

theorem Going.ofExcept (r : Except Fault α) : Going S (Engine.ofExcept r) :=
  fun _ => Relation.ReflTransGen.refl

theorem Going.bind {e : Engine α} {f : α → Engine β} (he : Going S e) (hf : ∀ a, Going S (f a)) :
    Going S (e >>= f) := by
  intro w
  have h := he w
  rw [exec_bind]
  split
  · next a w' hw =>
      rw [hw] at h
      exact Relation.ReflTransGen.trans h (hf a w')
  · next hw => simpa [hw] using h

/-- Something that looks at the world first takes such steps, if what it does there does. -/
theorem Going.look {f : World → Engine β} (hf : ∀ a, Going S (f a)) :
    Going S (MonadState.get >>= f) := Going.bind .get hf

theorem Going.change {f : World → World} (h : ∀ w, S w (f w)) : Going S (Engine.change f) :=
  fun w => Relation.ReflTransGen.single (h w)

end

/-- Whether an engine changes the world by acts only. -/
abbrev Acting (e : Engine α) : Prop := Going World.Doing e

theorem Going.acts {e : Engine α} (h : Acting e) (w : World) : w.Acts (exec e w).2 := h w

theorem Going.log (e : LogEntry) : Acting (Engine.log e) := fun w => World.acts_log w e

theorem Going.know {f : Session → Session} (h : ∀ s : Session, s.Retains (f s)) :
    Acting (Engine.change (·.withSession f)) := fun w => World.acts_know w (h w.session)

/-- The page changes, but not who listens to its console. -/
theorem Going.site {f : Site → Site}
    (h : ∀ s : Site, (f s).listenersOf "console" = s.listenersOf "console") :
    Acting (Engine.change (·.withSite f)) := fun w => World.acts_look (h w.site)

/-- Whether an engine changes the world as a command may that registers something. -/
def Setting (e : Engine α) : Prop := ∀ w : World, w.Sets (exec e w).2

theorem Going.setting {e : Engine α} (h : Acting e) : Setting e := fun w => (h.acts w).sets

theorem Setting.bind {e : Engine α} {f : α → Engine β} (he : Setting e)
    (hf : ∀ a, Setting (f a)) : Setting (e >>= f) := by
  intro w
  have h := he w
  rw [exec_bind]
  split
  · next a w' hw =>
      rw [hw] at h
      exact h.trans (hf a w')
  · next hw => simpa [hw] using h

/-- Something that looks at the world first registers something, if what it does there does. -/
theorem Setting.look {f : World → Engine β} (hf : ∀ a, Setting (f a)) :
    Setting (MonadState.get >>= f) := Setting.bind Going.get.setting hf

theorem Setting.register {f : Session → Session} (h : ∀ s : Session, s.Keeps (f s)) :
    Setting (change (·.withSession f)) :=
  fun w => Relation.ReflTransGen.single (.set f (h w.session))

end Engine

namespace World

/-- Scripts that begin one after the other are begun by acts. -/
theorem acts_begin_all (routines : List Routine) (w : World) :
    w.Acts (routines.foldl (fun w r => (w.begin r).2) w) := by
  induction routines generalizing w with
  | nil => exact .refl w
  | cons r rs ih => exact (acts_begin w r).trans (ih _)

end World

namespace Engine

variable {α : Type}

/-! ## Values and calls -/

theorem acting_make (m : Making α) : Acting (make m) := by
  unfold make
  refine .look fun w => .bind (.ofExcept _) fun (a, maker) => .bind ?_ fun _ => .pure a
  exact fun w => World.acts_begin_all maker.made w

section

variable {S : World → World → Prop} (hS : ∀ {w w' : World}, w.Act w' → w.Aside w' → S w w')

include hS

/-- The fail signal fails the test by an act, unless it has done so before. -/
theorem going_signal (fault : Fault) : Going S (signal fault) := by
  intro w
  unfold signal
  rw [exec_bind]
  simp only [exec_get]
  split
  · exact Relation.ReflTransGen.refl
  · next f hf =>
      split
      · exact Relation.ReflTransGen.refl
      · next hopen =>
          have hact := World.Act.signal fault hf (by simpa using hopen)
          have haside : w.Aside ((w.record (.failed fault)).settle (some f) (.fault fault)) := by
            have h := World.Aside.settle (w := w.record (.failed fault)) (.inr hf.symm) (.fault fault)
            exact ⟨h.audience, h.outcome?⟩
          exact Relation.ReflTransGen.single (hS hact haside)

theorem going_signalText (text : Option String) : Going S (signalText text) := by
  unfold signalText
  split
  · exact going_signal hS _
  · exact .pure _

theorem going_deliverLoads : Going S deliverLoads := by
  unfold deliverLoads
  refine .look fun w => ?_
  split
  · exact .pure _
  · refine .bind (.change fun w => ?_) fun _ => .bind (.ofExcept _) fun _ => going_signalText hS _
    exact hS (.know _ ⟨⟨rfl, rfl, rfl, rfl, rfl, id⟩, rfl⟩) (.of_eq rfl rfl)

end

theorem acting_signal (fault : Fault) : Acting (signal fault) := going_signal .act fault

/-! ## Console messages -/

theorem touching_deliverMonitor (message : ConsoleMessage) :
    Going World.Act (deliverMonitor (.console message)) := by
  unfold deliverMonitor
  refine .look fun w => ?_
  have htell : Going World.Act (change (·.tellMonitor (.message message))) :=
    .change fun _ => .tell _
  split
  · exact .bind (.change fun _ => .log _) fun _ => htell
  · exact htell

/-- A wait takes its listener off, and is met or listens again. -/
theorem touching_deliverWait (number : Nat) (message : ConsoleMessage) :
    Going World.Act (deliverWait number (.console message)) := by
  intro w
  unfold deliverWait
  have hoff : w.Touches (w.withSite (·.unlisten "console" (.wait number))) :=
    Relation.ReflTransGen.single (.look _)
  rw [exec_bind, exec_change]
  simp only
  rw [exec_bind, exec_get]
  simp only
  refine hoff.trans ?_
  split
  · exact Relation.ReflTransGen.refl
  · next wait hwait =>
      split
      · exact Relation.ReflTransGen.single (.meet hwait)
      · exact Relation.ReflTransGen.single (World.Act.look (·.listen "console" (.wait number)))

theorem touching_deliverAll (message : ConsoleMessage) (listeners : List Listener) :
    Going World.Act (deliverAll (.console message) listeners) := by
  induction listeners with
  | nil => exact .pure _
  | cons l listeners ih =>
      refine .bind ?_ fun _ => ih
      cases l with
      | monitor => exact touching_deliverMonitor message
      | wait number => exact touching_deliverWait number message
      | loads => exact going_deliverLoads fun h _ => h

/-- A console message changes the world by changes of the kinds that there are. -/
theorem touching_tell (message : ConsoleMessage) : Going World.Act (emit (.console message)) :=
  .look fun _ => touching_deliverAll message _

end Engine

namespace World

variable {w w' : World}

theorem Doing.touches (h : w.Doing w') : w.Touches w' := by
  cases h with
  | act h => exact Relation.ReflTransGen.single h
  | tell message => exact Engine.touching_tell message w

/-- What every change keeps is kept by one thing that is done at once. -/
theorem Doing.keeps {R : World → World → Prop} (hrefl : ∀ w, R w w)
    (htrans : ∀ {w₁ w₂ w₃}, R w₁ w₂ → R w₂ w₃ → R w₁ w₃)
    (hact : ∀ {w w'}, Act w w' → R w w') (h : w.Doing w') : R w w' := by
  have htouches := h.touches
  clear h
  induction htouches with
  | refl => exact hrefl _
  | tail _ h ih => exact htrans ih (hact h)

/-- What every act keeps, acts keep. -/
theorem Acts.keeps {R : World → World → Prop} (hrefl : ∀ w, R w w)
    (htrans : ∀ {w₁ w₂ w₃}, R w₁ w₂ → R w₂ w₃ → R w₁ w₃)
    (hact : ∀ {w w'}, Act w w' → R w w') (h : w.Acts w') : R w w' := by
  induction h with
  | refl => exact hrefl _
  | tail _ h ih => exact htrans ih (h.keeps hrefl htrans hact)

/-- What acts and every registration keep, a command keeps that registers something. -/
theorem Sets.keeps {R : World → World → Prop} (hrefl : ∀ w, R w w)
    (htrans : ∀ {w₁ w₂ w₃}, R w₁ w₂ → R w₂ w₃ → R w₁ w₃)
    (hact : ∀ {w w'}, Act w w' → R w w')
    (hset : ∀ {w : World} (f : Session → Session), w.session.Keeps (f w.session) →
      R w (w.withSession f)) (h : w.Sets w') : R w w' := by
  induction h with
  | refl => exact hrefl _
  | tail _ h ih =>
      refine htrans ih ?_
      cases h with
      | act h => exact h.keeps hrefl htrans hact
      | set f h => exact hset f h

/-! ## What is registered -/

theorem session_settle (w : World) (f : Option FutureId) (o : Outcome) :
    (w.settle f o).session = w.session := by cases f <;> rfl

theorem session_tellMonitor (w : World) (signal : Monitor.Signal) :
    (w.tellMonitor signal).session = w.session := by
  unfold tellMonitor passVerdict
  simp only
  split <;> (try rw [session_settle]) <;> (split <;> split <;> rfl)

theorem Act.preparation {w w' : World} (h : w.Act w') :
    w'.session.preparation = w.session.preparation := by
  cases h with
  | know f h => exact h.preparation
  | tell s => rw [session_tellMonitor]
  | signal =>
      rw [session_settle]
      rfl
  | meet | release => rw [session_settle]
  | _ => rfl

/-- Acts register nothing. -/
theorem Acts.preparation {w w' : World} (h : w.Acts w') :
    w'.session.preparation = w.session.preparation :=
  h.keeps (R := fun w w' => w'.session.preparation = w.session.preparation) (fun _ => rfl)
    (fun h₁ h₂ => h₂.trans h₁) Act.preparation

end World

namespace World

/-! ## The monitor -/

theorem audience_listenMonitor (w : World) : w.listenMonitor.audience = w.audience ++ [.monitor] := by
  simp [audience, listenMonitor, monitorEvents, withSite, Site.listenersOf_listen]

theorem audience_unlistenMonitor (w : World) :
    w.unlistenMonitor.audience = w.audience.filter (· ≠ .monitor) := by
  simp [audience, unlistenMonitor, monitorEvents, withSite, Site.listenersOf_unlisten]

theorem audience_settle (w : World) (f : Option FutureId) (o : Outcome) :
    (w.settle f o).audience = w.audience := by cases f <;> rfl

/-- A new verdict is told to those who wait for it, and to nobody else. -/
theorem aside_passVerdict (w : World) (before after : Option (Option Fault)) :
    w.Aside (w.passVerdict before after) := by
  unfold passVerdict
  split
  · exact .settle (.inl rfl) _
  · next fault =>
      have h := Aside.settle (w := w.record (.failed fault)) (f := w.verdict) (.inl rfl) (.fault fault)
      exact ⟨h.audience, h.outcome?⟩
  · exact .of_eq rfl rfl

/-- What the monitor is told, those who wait for a message do not notice. -/
theorem aside_tellMonitor (w : World) (signal : Monitor.Signal) :
    w.Aside (w.tellMonitor signal) := by
  rcases hstep : w.monitor.step w.session.console signal with ⟨monitor, reaction⟩
  unfold tellMonitor
  rw [hstep]
  dsimp only
  generalize hw₁ : (if reaction.detach then { w with monitor }.unlistenMonitor
    else { w with monitor }) = w₁
  have hdetach : (w₁.audience = w.audience ∨ w₁.audience = w.audience.filter (· ≠ .monitor)) ∧
      w₁.scheduler = w.scheduler ∧ w₁.verdict = w.verdict ∧ w₁.failSignal = w.failSignal := by
    rw [← hw₁]
    split
    · exact ⟨.inr (audience_unlistenMonitor _), rfl, rfl, rfl⟩
    · exact ⟨.inl rfl, rfl, rfl, rfl⟩
  obtain ⟨haudience, hscheduler, hverdict, hfail⟩ := hdetach
  -- a timer is put off or not, and then the verdict is told
  have hrest (w₂ : World) (hsite : w₂.site = w₁.site)
      (houtcome : ∀ f, w₂.scheduler.outcome? f = w₁.scheduler.outcome? f)
      (hv : w₂.verdict = w₁.verdict) (hf : w₂.failSignal = w₁.failSignal) :
      w.Aside (w₂.passVerdict w.monitor.verdict monitor.verdict) := by
    have hpass := aside_passVerdict w₂ w.monitor.verdict monitor.verdict
    have hsame : (w₂.passVerdict w.monitor.verdict monitor.verdict).audience = w₁.audience := by
      have hsite₂ : (w₂.passVerdict w.monitor.verdict monitor.verdict).audience = w₂.audience := by
        unfold passVerdict
        split
        · exact audience_settle _ _ _
        · exact audience_settle _ _ _
        · rfl
      rw [hsite₂]
      exact congrArg (·.listenersOf "console") hsite
    refine ⟨?_, fun f hnot hnot' => ?_⟩
    · rw [hsame]
      rcases haudience with h | h
      · exact .inl h
      · exact .inr (.inr (.inl h))
    · rw [hpass.outcome? f (by rw [hv, hverdict]; exact hnot) (by rw [hf, hfail]; exact hnot'),
        houtcome, hscheduler]
  cases reaction.timer with
  | none => exact hrest w₁ rfl (fun _ => rfl) rfl rfl
  | some error => exact hrest _ rfl (fun _ => rfl) rfl rfl

theorem acts_tell (w : World) (signal : Monitor.Signal) : w.Acts (w.tellMonitor signal) :=
  acts_of_aside (.tell signal) (aside_tellMonitor w signal)

/-- The monitor begins to listen to the page. -/
theorem acts_attach {w : World} {monitor : Monitor} (h : w.monitor.attach = .ok monitor) :
    w.Acts { w with monitor }.listenMonitor :=
  acts_of_aside (.attach h) ⟨.inr (.inl (audience_listenMonitor _)), fun _ _ _ => rfl⟩

theorem acts_release (w : World) : w.Acts (w.settle w.failSignal .finished) :=
  acts_of_aside .release (.settle (.inr rfl) _)

theorem acts_later (w : World) (delay : Float) (actions : List Action) :
    w.Acts (w.withScheduler (·.after delay (.job (.act actions)))) :=
  acts_of_aside (.later delay actions) ⟨.inl rfl, fun _ _ _ => rfl⟩

end World

namespace Engine

variable {α : Type}

theorem Going.tell (s : Monitor.Signal) : Acting (Engine.change (·.tellMonitor s)) :=
  fun w => World.acts_tell w s

/-! ## Page events -/

theorem acting_claimBy (text : String) (h : ErrorHandler) : Acting (claimBy text h) := by
  unfold claimBy
  split
  · exact .pure _
  · refine .look fun w => ?_
    split
    · exact .pure _
    · exact .bind (Going.know fun s => ⟨⟨rfl, rfl, rfl, rfl, rfl, id⟩, rfl⟩) fun _ => .ofExcept _

theorem acting_claim (text : String) (handlers : List ErrorHandler) :
    Acting (claim text handlers) := by
  induction handlers with
  | nil => exact .pure _
  | cons h handlers ih =>
      unfold claim
      refine .bind (acting_claimBy text h) fun claimed => ?_
      split
      · exact .pure _
      · exact ih

theorem acting_deliverMonitor (event : PageEvent) : Acting (deliverMonitor event) := by
  unfold deliverMonitor
  split
  · refine .look fun w => ?_
    split
    · exact .bind (Going.log _) fun _ => Going.tell _
    · exact Going.tell _
  · exact .look fun w => .bind (acting_claim _ _) fun _ => Going.tell _
  · exact Going.tell _
  · exact Going.tell _
  · exact .pure _

theorem acting_deliverLoads : Acting deliverLoads := going_deliverLoads .act

/-- What is no console message does not matter to a wait for one. -/
theorem acting_deliverAll {event : PageEvent} (hevent : ∀ message, event ≠ .console message)
    (listeners : List Listener) : Acting (deliverAll event listeners) := by
  induction listeners with
  | nil => exact .pure _
  | cons l listeners ih =>
      refine .bind ?_ fun _ => ih
      cases l with
      | monitor => exact acting_deliverMonitor event
      | loads => exact acting_deliverLoads
      | wait number =>
          cases event with
          | console message => exact absurd rfl (hevent message)
          | pageError | error | load => exact .pure _

theorem acting_emit (event : PageEvent) : Acting (emit event) := by
  cases event with
  | console message => exact fun _ => Relation.ReflTransGen.single (.tell message)
  | pageError | error | load => exact .look fun _ => acting_deliverAll (by simp) _

theorem acting_visit (url : Value) : Acting (visit url) :=
  .bind (.log _) fun _ => .bind (.site fun _ => rfl) fun _ => acting_emit _

/-! ## Actions -/

theorem acting_act (action : Action) : Acting (act action) := by
  cases action with
  | console type text => exact acting_emit _
  | pageError message => exact acting_emit _
  | error kind message => exact acting_emit _
  | load => exact acting_emit _
  | log text => exact .log _
  | setElement selector html => exact .site fun _ => rfl
  | unsetElement selector => exact .site fun _ => rfl
  | fail kind message => exact acting_signal _
  | post sub => exact .bind (acting_make _) fun _ => .know fun s => ⟨⟨rfl, rfl, rfl, rfl, rfl, id⟩, rfl⟩
  | raise given => exact .fail _
  | later delay actions => exact fun w => World.acts_later w delay actions

theorem acting_perform (actions : List Action) : Acting (perform actions) := by
  induction actions with
  | nil => exact .pure _
  | cons a actions ih => exact .bind (acting_act a) fun _ => ih

theorem acting_callCallback (c : Callback) : Acting (callCallback c) := by
  unfold callCallback
  refine .bind (.log _) fun _ => .bind (acting_perform _) fun _ => ?_
  split
  · exact .fail _
  · split
    · exact .pure _
    · exact .bind (acting_make _) fun _ => .pure _

theorem acting_callTemplate (name text : String) (default : Option Value) (args : List Value) :
    Acting (callTemplate name text default args) := by
  unfold callTemplate
  have hfill (value : Value) : Acting do
      log (.template name value)
      return Called.value (.text (String.ofList (fillHoles value.plain.toList text.toList))) :=
    .bind (.log _) fun _ => .pure _
  split
  · exact .bind (acting_make _) hfill
  · exact .bind (.fail _) hfill

theorem acting_call (f : Value) (args : List Value) : Acting (call f args) := by
  unfold call
  split
  · exact acting_callCallback _
  · exact .pure _
  · exact acting_callTemplate _ _ _ _
  · exact .pure _
  · exact .fail _

theorem acting_content (f : Value) (args : List Value) : Acting (content f args) := by
  unfold content
  refine .bind (acting_call f args) fun called => ?_
  split <;> exact .pure _

/-! ## Preparing commands -/

theorem acting_changedFiles (changes : Table Value) : Acting (changedFiles changes) := by
  induction changes with
  | nil => exact .pure _
  | cons row rest ih =>
      obtain ⟨path, value⟩ := row
      have hrest (value : Value) : Acting do
          return (path, value) :: (← changedFiles rest) := .bind ih fun _ => .pure _
      unfold changedFiles
      refine .look fun w => ?_
      split
      · exact .bind (.pure _) hrest
      · exact .bind (acting_content _ _) hrest
      · exact .bind (.pure _) hrest

theorem setting_initialFiles (files changes inits : Table Value) :
    Setting (initialFiles files changes inits) := by
  induction inits generalizing files changes with
  | nil => exact (Going.pure _).setting
  | cons row rest ih =>
      obtain ⟨path, value⟩ := row
      unfold initialFiles
      split
      · refine .bind (.register fun s => ⟨rfl, rfl, rfl, rfl, rfl, id⟩) fun _ => ?_
        exact .bind (acting_content _ _).setting fun _ => ih _ _
      · exact ih _ _

theorem setting_addSteps (pairs : List (String × Value)) : Setting (addSteps pairs) := by
  induction pairs with
  | nil => exact (Going.pure _).setting
  | cons pair pairs ih =>
      refine .bind (Going.ofExcept _).setting fun step => .bind (.register fun s => ?_) fun _ => ih
      exact ⟨rfl, rfl, rfl, rfl, rfl, fun h => Table.nodup_keys_put h _ _⟩

theorem setting_initLabel (label : String) : Setting (initLabel label) := by
  unfold initLabel
  refine .look fun w => ?_
  split
  · exact (Going.fail _).setting
  · refine .bind (.look fun w => (Going.pure _).setting) fun files => ?_
    exact .register fun s => ⟨rfl, rfl, rfl, rfl, rfl, id⟩

theorem setting_initFiles (inits : Table Value) : Setting (initFiles inits) := by
  unfold initFiles
  refine .bind (setting_initialFiles _ _ _) fun (files, changes) => ?_
  refine .bind (acting_changedFiles _).setting fun _ => ?_
  exact .register fun s => ⟨rfl, rfl, rfl, rfl, rfl, id⟩

theorem keeps_mergeExpectation (s : Session) (label : String) (e : Expectation) :
    s.Keeps (s.mergeExpectation label e) :=
  ⟨rfl, rfl, rfl, rfl, rfl, fun h => Table.nodup_keys_put h _ _⟩

theorem keeps_install (s : Session) (spec : CompiledSpec) : s.Keeps (s.install spec) := by
  have hfold (rows : List (String × Expectation)) (s : Session) :
      s.Keeps (rows.foldl (fun s row => s.mergeExpectation row.1 row.2) s) := by
    induction rows generalizing s with
    | nil => exact .refl s
    | cons row rows ih =>
        exact (keeps_mergeExpectation s row.1 row.2).trans (ih _)
  have h := hfold spec.expects { s with specs := s.specs.merge spec.files }
  exact ⟨h.settings, h.registry, h.file, h.pending, h.started, h.expects⟩

theorem setting_install (spec : CompiledSpec) : Setting (install spec) :=
  .register fun s => keeps_install s spec

theorem acting_state : Acting state := .look fun _ => .pure _

theorem setting_configure (c : Command) : Setting (configure c) := by
  unfold configure
  have hdone {f : Session → Session} (h : ∀ s : Session, s.Keeps (f s)) :
      Setting do change (·.withSession f); return Value.nothing :=
    .bind (.register h) fun _ => (Going.pure _).setting
  split
  · exact hdone fun s => ⟨rfl, rfl, rfl, rfl, rfl, id⟩
  · exact hdone fun s => ⟨rfl, rfl, rfl, rfl, rfl, id⟩
  · exact acting_state.setting
  · split
    · exact (Going.fail _).setting
    · exact acting_state.setting
  · exact (Going.pure _).setting

/-- A command that sets neither templates nor policies registers nothing. -/
theorem acting_configure {c : Command} (htemplates : ∀ table, c ≠ .templates table)
    (hignore : ∀ errors policy, c ≠ .ignore errors policy) : Acting (configure c) := by
  unfold configure
  split
  · exact absurd rfl (htemplates _)
  · exact absurd rfl (hignore _ _)
  · exact acting_state
  · split
    · exact .fail _
    · exact acting_state
  · exact .pure _

theorem setting_prepare (c : Command) : Setting (prepare c) := by
  unfold prepare
  refine .look fun w => ?_
  have hdone {e : Engine Unit} (he : Setting e) : Setting do e; return Value.nothing :=
    .bind he fun _ => (Going.pure _).setting
  split
  · exact .bind (Going.ofExcept _).setting fun _ => hdone (setting_install _)
  · exact .bind (Going.ofExcept _).setting fun _ => hdone (setting_install _)
  · exact hdone (setting_install _)
  · exact hdone (setting_addSteps _)
  · exact hdone (.register fun s => ⟨rfl, rfl, rfl, rfl, rfl, fun h => Table.nodup_keys_put h _ _⟩)
  · exact hdone (setting_initLabel _)
  · exact hdone (setting_initFiles _)
  · exact hdone (.register fun s => ⟨rfl, rfl, rfl, rfl, rfl, id⟩)
  · exact setting_configure c

/-! ## Commands on the page -/

theorem acting_addScaled (a b scale : Value) : Acting (addScaled a b scale) := by
  unfold addScaled
  split
  · exact .pure _
  · exact .pure _
  · split
    · exact .pure _
    · exact .fail _
  · exact .fail _

theorem acting_evaluate (expression arg : Value) : Acting (evaluate expression arg) :=
  .bind (.log _) fun _ => .site fun _ => rfl

theorem acting_callMethod (m : Site.Method) (args : List Value) (options : Table Value) :
    Acting (callMethod m args options) := by
  have hdone {e : Engine Unit} (he : Acting e) : Acting do e; return Value.nothing :=
    .bind he fun _ => .pure _
  cases m with
  | title => exact .pure _
  | visit => exact hdone (acting_visit _)
  | click => exact hdone (.log _)
  | evaluate => exact hdone (acting_evaluate _ _)
  | press => exact .bind (.log _) fun _ => .pure _
  | add => exact acting_addScaled _ _ _
  | boom => exact hdone (.fail _)

theorem acting_reach (path : List String) (args : List Value) (options : Table Value) :
    Acting (reach path args options) := by
  unfold reach
  refine .look fun w => ?_
  split
  · exact .fail _
  · exact acting_callMethod _ _ _
  · split
    · exact .pure _
    · exact .fail _

theorem acting_navigate (text : String) : Acting (navigate text) := by
  unfold navigate
  refine .look fun w => ?_
  simp only
  split
  · exact acting_visit _
  · exact .fail _

theorem acting_expectErrors (expected : Value) (limit : Option Int) (message : Option String) :
    Acting (expectErrors expected limit message) := by
  unfold expectErrors
  refine .look fun w => ?_
  split <;> exact .know fun s => ⟨⟨rfl, rfl, rfl, rfl, rfl, id⟩, rfl⟩

theorem acting_expectLoads (expected : Value) (message : Option String) :
    Acting (expectLoads expected message) := by
  unfold expectLoads
  refine .look fun w => ?_
  split
  · exact .know fun s => ⟨⟨rfl, rfl, rfl, rfl, rfl, id⟩, rfl⟩
  · refine .bind (.know fun s => ⟨⟨rfl, rfl, rfl, rfl, rfl, id⟩, rfl⟩) fun _ => .site fun s => ?_
    exact Site.listenersOf_listen s _ _ _

theorem acting_apply (e : Effect) : Acting (apply e) := by
  cases e with
  | own actions failure answer =>
      refine .bind (.log _) fun _ => .bind (acting_perform _) fun _ => ?_
      split
      · exact .fail _
      · exact acting_make _
  | click selector => exact .bind (.log _) fun _ => .pure _
  | goto url => exact .bind (acting_navigate _) fun _ => .pure _
  | gotoState url => exact .bind (acting_evaluate _ _) fun _ => .pure _
  | pageErrors expected limit message =>
      exact .bind (acting_expectErrors _ _ _) fun _ => .pure _
  | pageLoads expected message => exact .bind (acting_expectLoads _ _) fun _ => .pure _

/-! ## Checks at the end -/

theorem acting_failWith (text : Option String) : Acting (Move.failWith text) := by
  unfold Move.failWith
  split
  · exact .pure _
  · exact .bind (acting_signal _) fun _ => .fail _

theorem acting_checkErrors : Acting Move.checkErrors := .look fun _ => acting_failWith _

theorem acting_checkLoads : Acting Move.checkLoads :=
  .bind (.site fun s => by rw [Site.listenersOf_unlisten]; rfl) fun _ =>
    .look fun _ => acting_failWith _

end Engine

end HotSpec
