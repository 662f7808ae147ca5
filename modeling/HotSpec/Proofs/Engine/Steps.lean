import HotSpec.Proofs.Engine.Rules

/-!
# Every step is made by a rule

Main results:

- Theorem `advances_advance`: a script that is resumed changes the world by acts, apart from where
  it stands and from what it yields.
- Theorem `rule_run`: what is done at a head is done by a rule.
- Theorem `step_cases`: a step of the machine is a rule, the end of a task, or something that the
  scheduler has to handle.
-/

namespace HotSpec

/-! ## Scripts -/

namespace World

/-- Between two yields a script changes the world by acts. -/
theorem advances_follow {w₀ : World} (g : Nat) (name : String) (answer : Value) (index : Nat)
    (script : Script) (w : World) (h : w₀.Acts w) :
    w₀.Advances g (follow g name answer index script w).1
      (follow g name answer index script w).2 := by
  induction script generalizing index w with
  | nil => exact .ends (h.trans (Engine.acting_make _ w))
  | cons instruction rest ih =>
      cases instruction with
      | act action =>
          have hact := h.trans (Engine.acting_act action w)
          unfold follow
          rcases hexec : (Engine.act action).exec w with ⟨fault | _, w'⟩
          · rw [hexec] at hact
            exact .ends hact
          · rw [hexec] at hact
            exact ih (index + 1) w' hact
      | stop value => exact .ends (h.trans (Engine.acting_make _ w))
      | ask request caught wanted =>
          have hact := h.trans (Engine.acting_make request.build w)
          unfold follow
          rcases hexec : (Engine.make request.build).exec w with ⟨fault | y, w'⟩
          · rw [hexec] at hact
            simp only
            split
            · exact ih (index + 1) _ (hact.trans (acts_log _ _))
            · exact .ends hact
          · rw [hexec] at hact
            exact .yields hact

/-- A script that is resumed changes the world by acts, apart from where it stands and from what it
yields. -/
theorem advances_advance (w : World) (g : Nat) (reply : Reply) :
    w.Advances g (w.advance g reply).1 (w.advance g reply).2 := by
  unfold advance
  split
  · exact .stays (.refl w)
  · next name answer progress _ =>
      split
      · exact .stays (.refl w)
      · exact .stays (.refl w)
      · exact .ends (.refl w)
      · exact advances_follow g name answer _ _ w (.refl w)
      · exact .ends (.refl w)
      · exact .ends (.refl w)
      · exact .yields (.refl w)
      · split
        · exact advances_follow g name answer _ _ _ (acts_log _ _)
        · exact .ends (.refl w)
      · simp only
        split
        · exact .ends (acts_log _ _)
        · exact advances_follow g name answer _ _ _ (acts_log _ _)

end World

/-! ## Moves -/

/-- Whether a move that is made in one world, at a head that was reached in another one, follows the
rules. -/
def Follows (head : Head) (w w₁ : World) (m : Move) : Prop := Rule head w (m.run w₁).1 (m.run w₁).2

namespace Follows

variable {head : Head} {w w₁ : World} {α : Type}

theorem get {f : World → Move} (h : Follows head w w₁ (f w₁)) :
    Follows head w w₁ (MonadState.get >>= f) := h

theorem changing {g : World → World} {f : PUnit → Move} (h : Follows head w (g w₁) (f ⟨⟩)) :
    Follows head w w₁ (modify g >>= f) := h

theorem returning {turn : Turn} (h : Rule head w turn w₁) :
    Follows head w w₁ (Move.ofEngine (return turn)) := h

theorem failing {fault : Fault} (h : Rule head w (.fail fault) w₁) :
    Follows head w w₁ (Move.ofEngine (Engine.fail fault)) := h

theorem set {w₂ : World} {f : PUnit → Move} (h : Follows head w w₂ (f ⟨⟩)) :
    Follows head w w₁ (MonadStateOf.set w₂ >>= f) := h

/-- The turn that follows from the result of something that is done at once. -/
private def followed (f : α → Engine Turn) : Except Fault α × World → Turn × World
  | (.ok a, w) => (Move.ofEngine (f a)).run w
  | (.error fault, w) => (.fail fault, w)

/-- What is done at once after acts begins with acts. -/
theorem acting {w₀ : World} {e : Engine α} {f : α → Engine Turn} (h : w₀.Acts w₁)
    (he : Engine.Acting e)
    (hok : ∀ a w₂, w₀.Acts w₂ → Follows head w w₂ (Move.ofEngine (f a)))
    (herror : ∀ fault w₂, w₀.Acts w₂ → Rule head w (.fail fault) w₂) :
    Follows head w w₁ (Move.ofEngine (e >>= f)) := by
  have hacts := h.trans (he w₁)
  have hrun : (Move.ofEngine (e >>= f)).run w₁ = followed f (e.exec w₁) := by
    simp only [Move.ofEngine, StateT.run, bind, StateT.bind, Engine.exec, ExceptT.run,
      ExceptT.bind, ExceptT.mk]
    rcases e w₁ with ⟨r | r, w'⟩ <;> rfl
  unfold Follows
  rw [hrun]
  rcases hexec : e.exec w₁ with ⟨fault | a, w₂⟩
  · rw [hexec] at hacts
    exact herror fault w₂ hacts
  · rw [hexec] at hacts
    exact hok a w₂ hacts

/-- Whatever replies at once follows the rule for it. -/
theorem giving {e : Engine Value} (hhead : head.replies = true) (h : w.Acts w₁)
    (he : Engine.Acting e) : Follows head w w₁ (Move.giving e) :=
  Rule.reply (e.exec w₁).1 hhead (h.trans (he w₁))

/-- A frame that passes all but values on is right if it is right about values. -/
theorem onValue {f : Frame} {o : Outcome} {next : Value → Move}
    (hpass : ∀ o, (∀ v, o ≠ .value v) → f.passes o = true)
    (hvalue : ∀ v, o = .value v → Follows (.frame f o) w w (next v)) :
    Follows (.frame f o) w w (Move.onValue o next) := by
  cases o with
  | value v => exact hvalue v rfl
  | fault fault => exact Rule.pass (hpass _ (by simp)) (.refl w)
  | stopped => exact Rule.pass (hpass _ (by simp)) (.refl w)

end Follows

/-- Nothing more to do is a reply. -/
theorem rule_done {head : Head} (hhead : head.replies = true) {w w' : World} (h : w.Acts w') :
    Rule head w .done w' := Rule.reply (.ok .nothing) hhead h

theorem rule_fail {head : Head} (hhead : head.replies = true) {w w' : World} (h : w.Acts w')
    (fault : Fault) : Rule head w (.fail fault) w' :=
  Rule.reply (.error fault) hhead h

theorem failSignal_settle (w : World) (f : Option FutureId) (o : Outcome) :
    (w.settle f o).failSignal = w.failSignal := by cases f <;> rfl

theorem failSignal_tellMonitor (w : World) (s : Monitor.Signal) :
    (w.tellMonitor s).failSignal = w.failSignal := by
  unfold World.tellMonitor World.passVerdict
  simp only
  split <;> (try rw [failSignal_settle]) <;> (split <;> split <;> rfl)

theorem acts_closePage (w : World) : w.Acts w.closePage := by
  have htell : w.Acts (w.tellMonitor .close) := World.acts_tell w .close
  have hrelease : (w.tellMonitor .close).Acts w.closePage := by
    unfold World.closePage
    rw [← failSignal_tellMonitor w .close]
    exact World.acts_release _
  exact htell.trans hrelease

/-! ## Work -/

theorem follows_posts (i : Nat) (w : World) : Follows (.work (.posts i)) w w (Move.posts i) := by
  have hcheck {e : Engine Unit} (he : Engine.Acting e) :
      Follows (.work (.posts i)) w w
        (Move.ofEngine do e; return .call (.posts (i + 1)) []) := by
    refine .acting (.refl w) he (fun _ w₂ h => ?_) fun fault w₂ h => rule_fail rfl h fault
    exact Rule.call .postNext h
  refine .get ?_
  split
  · exact rule_done rfl (.refl w)
  · exact .call .postSub (.refl w)
  · exact hcheck Engine.acting_checkErrors
  · exact hcheck Engine.acting_checkLoads

/-- What can be called is called at once; what is to be awaited is awaited by more work. -/
theorem follows_called {head : Head} {e : Engine Called} {w w₁ : World}
    (hhead : head.replies = true) (h : w.Acts w₁) (he : Engine.Acting e)
    (hcall : ∀ a, Calls head [.begin (.await a)]) :
    Follows head w w₁ (Move.ofEngine do return Move.called (← e)) := by
  refine .acting h he (fun called w₂ h => ?_) fun fault w₂ h => rule_fail hhead h fault
  cases called with
  | value v => exact Rule.reply (.ok v) hhead h
  | awaitable a => exact Rule.call (hcall a) h

theorem follows_sub (p : Processor) (v : Value) (w : World) :
    Follows (.work (.sub p v)) w w (Move.sub p v) := by
  unfold Move.sub
  split
  · exact .call .list (.refl w)
  · exact .call .list (.refl w)
  · exact .call .list (.refl w)
  · exact .call .generator (World.acts_begin _ _)
  · exact .call .generator (.refl w)
  · split
    · exact follows_called rfl (.refl w) (Engine.acting_call _ _) fun _ => .call
    · exact rule_fail rfl (.refl w) _

theorem follows_sleep (delay : Float) (w : World) :
    Follows (.work (.sleep delay)) w w (Move.sleep delay) := by
  unfold Move.sleep
  split
  · exact Rule.pause
  · exact Rule.asks .sleep

/-- The body of a function acts and then replies. -/
theorem follows_body {head : Head} (hhead : head.replies = true) (c : Callback) {w w₁ : World}
    (h : w.Acts w₁) : Follows head w w₁ (Move.body c) := by
  refine .giving hhead h (.bind (Engine.acting_perform _) fun _ => ?_)
  split
  · exact .fail _
  · exact Engine.acting_make _

theorem follows_await (a : Awaitable) (w : World) :
    Follows (.work (.await a)) w w (Move.await a) := by
  cases a with
  | answer c => exact .call .answered (.refl w)
  | body c =>
      unfold Move.await
      refine .changing ?_
      split
      · exact .call .delayed (World.acts_log w _)
      · exact follows_body rfl c (World.acts_log w _)

theorem follows_doingThen {c : Chore} {rest : List Deed} {e : Engine Unit} (w : World)
    (he : Engine.Acting e) :
    Follows (.work (.deeds (.chore c :: rest))) w w (Move.doingThen e rest) := by
  refine .acting (.refl w) he (fun _ w₂ h => ?_) fun fault w₂ h => rule_fail rfl h fault
  exact Rule.call .chore h

theorem follows_deeds (ds : List Deed) (w : World) :
    Follows (.work (.deeds ds)) w w (Move.deeds ds) := by
  unfold Move.deeds
  split
  · exact rule_done rfl (.refl w)
  · next c rest =>
      cases c with
      | fail given => exact rule_fail rfl (.refl w) _
      | sleep delay => exact .call .nap (.refl w)
      | act actions => exact follows_doingThen w (Engine.acting_perform _)
      | clear => exact follows_doingThen w (.site fun _ => rfl)
      | install files =>
          refine follows_doingThen w fun w₁ => ?_
          exact World.acts_look (f := fun s => w₁.environment.install s files) rfl
      | leave => exact follows_doingThen w (.log _)
  · next rest =>
      refine .get ?_
      split
      · exact rule_fail rfl (.refl w) _
      · next monitor hattach =>
          have hacts := World.acts_attach hattach
          refine .set ?_
          split
          · exact .call .openPage hacts
          · exact .call .beforeLoad hacts
  · exact .call .handOver (.refl w)

theorem follows_write (files : Table Value) (w : World) :
    Follows (.work (.write files)) w w (Move.write files) := by
  refine .call .write ?_
  exact (World.acts_look rfl).trans (World.acts_log _ _)

/-- The initial label is the first pending one, or none is pending; or all are dropped. -/
theorem ensureFirst_cases (s : Session) (label : String) :
    (s.ensureFirst label = (s, .ok ()) ∧
      ∀ first queue, s.pending = some (first :: queue) → first.1 = label) ∨
    ∃ other queue fault, s.pending = some (other :: queue) ∧ other.1 ≠ label ∧
      s.ensureFirst label = (s.discard, .error fault) := by
  unfold Session.ensureFirst
  split
  · next first e queue hpending =>
      split
      · next hfirst =>
          refine .inl ⟨rfl, ?_⟩
          intro first' queue' h
          rw [hpending] at h
          cases h
          exact hfirst
      · next hfirst => exact .inr ⟨(first, e), queue, _, hpending, hfirst, rfl⟩
  · next hpending =>
      refine .inl ⟨rfl, ?_⟩
      intro first queue h
      exact absurd h (hpending first.1 first.2 queue)

theorem follows_inPage (first : Option Command) (w : World) :
    Follows (.work (.inPage first)) w w (Move.inPage first) := by
  refine .changing (.get ?_)
  split
  · next h =>
      unfold Move.begin
      split
      · exact Rule.ready h (.command rfl)
      · exact Rule.ready h (.script rfl)
  · next label hlabel =>
      rcases ensureFirst_cases w.session label with
        ⟨hensure, hfirst⟩ | ⟨other, queue, fault, hpending, hother, hensure⟩
      · simp only [World.record, hensure]
        exact Rule.checked hlabel hfirst
      · simp only [World.record, hensure]
        exact Rule.unchecked fault hlabel hpending hother

theorem follows_drain (until? : Option String) (already : Bool) (last : Option String)
    (w : World) : Follows (.work (.drain until? already last)) w w
      (Move.drain until? already last) := by
  refine .get ?_
  cases hpop : w.session.pop? with
  | none =>
      refine Rule.drained ?_
      cases hpending : w.session.pending with
      | none => exact .inl rfl
      | some queue =>
          cases queue with
          | nil => exact .inr rfl
          | cons first queue => simp [Session.pop?, hpending] at hpop
  | some first =>
      obtain ⟨⟨label, e⟩, session⟩ := first
      obtain ⟨queue, hpending, rfl⟩ := Session.pop?_eq_some_iff.mp hpop
      cases already with
      | true => exact Rule.popped hpending
      | false => exact Rule.writing hpending

/-- A stage that is over is followed by the next one, or by the end of the assertion. -/
theorem rule_afterStage {head : Head} {label : String} {e : Expectation} {stage : Stage} {w : World}
    (hhead : head.replies = true)
    (hcall : ∀ next, Move.nextStage e stage = some next →
      Calls head [.begin (.verify label e next)]) :
    Rule head w (Move.afterStage label e stage) w := by
  unfold Move.afterStage
  split
  · next hnext => exact .call (hcall _ hnext) (.refl w)
  · exact rule_done hhead (.refl w)

theorem follows_verify (label : String) (e : Expectation) (stage : Stage) (w : World) :
    Follows (.work (.verify label e stage)) w w (Move.verify label e stage) := by
  have hlater (hstage : stage ≠ .before) (sub : Option Value) :
      Follows (.work (.verify label e stage)) w w (Move.verifySub label e stage sub) := by
    unfold Move.verifySub
    cases sub with
    | none => exact rule_afterStage rfl fun next hnext => .verifyNext hstage hnext
    | some sub => exact .get (Rule.call (.verifySub hstage) (.refl w))
  cases stage with
  | before =>
      refine .changing ?_
      unfold Move.verifySub
      cases e.before with
      | none =>
          unfold Move.afterStage
          cases hnext : Move.nextStage e .before with
          | none => simp [Move.nextStage] at hnext
          | some next => exact Rule.verify hnext
      | some sub => exact .get Rule.verifyHook
  | after => exact hlater (by simp) e.after
  | step i =>
      have hafter : Rule (.work (.verify label e (.step i))) w
          (Move.afterStage label e (.step i)) w :=
        rule_afterStage rfl fun next hnext => .verifyNext (by simp) hnext
      unfold Move.verify
      simp only
      split
      · exact hafter
      · refine .get ?_
        split
        · exact hafter
        · exact rule_fail rfl (.refl w) _
      · exact hlater (by simp) _
      · exact hlater (by simp) _

theorem run_resume (p : Processor) (g : Nat) (reply : Reply) (w : World) :
    (Move.resume p g reply).run w =
      (resumed p g (w.advance g reply).1, (w.advance g reply).2) := by
  unfold Move.resume resumed
  simp only [bind, StateT.run, StateT.bind, modifyGet, MonadStateOf.modifyGet, StateT.modifyGet]
  generalize w.advance g reply = advanced
  obtain ⟨adv, w'⟩ := advanced
  cases adv with
  | ends reply => rfl
  | yields y => cases y with
    | command c => rfl
    | value v => cases v <;> rfl

theorem follows_resume (p : Processor) (g : Nat) (reply : Reply) (w : World) :
    Follows (.work (.resume p g reply)) w w (Move.resume p g reply) := by
  have hrule : Rule (.work (.resume p g reply)) w _ _ :=
    .resume (World.advances_advance w g reply)
  unfold Follows
  rw [run_resume]
  exact hrule

/-! ## Commands -/

/-- Whatever a handler does at once is an answer to the command. -/
theorem follows_answered {p : Processor} {y : Yielded} {phase : Phase} {c : Command} {w : World}
    {e : Engine Value} (hp : p.phase? = some phase) (hy : y.toCommand = .ok c)
    (hc : phase = .run → c.type ≠ Command.discard.type) (hset : phase.sets c = false)
    (he : Engine.Acting e) :
    Follows (.work (.process p y)) w (w.record (.handled phase c)) (Move.giving e) :=
  Rule.answered (e.exec (w.record (.handled phase c))).1 hp hy hc (.acts hset (he _))

/-- What is registered for a command is an answer to it. -/
theorem follows_set {p : Processor} {y : Yielded} {phase : Phase} {c : Command} {w : World}
    (hp : p.phase? = some phase) (hy : y.toCommand = .ok c)
    (hc : phase = .run → c.type ≠ Command.discard.type) (hset : phase.sets c = true) :
    Follows (.work (.process p y)) w (w.record (.handled phase c))
      (Move.giving (Engine.setting phase c)) :=
  Rule.answered _ hp hy hc (.sets hset)

/-- What can be called is called for a command, or called and awaited. -/
theorem follows_commanded {p : Processor} {y : Yielded} {phase : Phase} {c : Command} {w : World}
    {e : Engine Called} (hp : p.phase? = some phase) (hy : y.toCommand = .ok c)
    (hc : phase = .run → c.type ≠ Command.discard.type) (hset : phase.sets c = false)
    (he : Engine.Acting e) (hcall : ∀ a, Commands phase c [.begin (.await a)]) :
    Follows (.work (.process p y)) w (w.record (.handled phase c))
      (Move.ofEngine do return Move.called (← e)) := by
  refine .acting (.refl _) he (fun called w₂ h => ?_)
    fun fault w₂ h => Rule.answered (.error fault) hp hy hc (.acts hset h)
  cases called with
  | value v => exact Rule.answered (.ok v) hp hy hc (.acts hset h)
  | awaitable a => exact Rule.commanded hp hy (hcall a) h

theorem follows_awaitOperand {p : Processor} {y : Yielded} {phase : Phase} {operand : Value}
    {w : World} (hp : p.phase? = some phase) (hy : y.toCommand = .ok (.await operand)) :
    Follows (.work (.process p y)) w (w.record (.handled phase (.await operand)))
      (Move.awaitOperand operand) := by
  have hc : phase = .run → (Command.await operand).type ≠ Command.discard.type :=
    fun _ => by simp [Command.type]
  have hfail (fault : Fault) (w' : World)
      (h : (w.record (.handled phase (.await operand))).Acts w') :
      Rule (.work (.process p y)) w (.fail fault) w' :=
    .answered (.error fault) hp hy hc (.acts (by cases phase <;> rfl) h)
  unfold Move.awaitOperand
  simp only
  split
  · exact .failing (hfail _ _ (.refl _))
  · refine .acting (.refl _) (Engine.acting_call operand []) (fun called w₂ h => ?_) hfail
    cases called with
    | value v => exact .failing (hfail _ _ h)
    | awaitable a => exact .returning (.commanded hp hy .await h)

theorem type_eq_discard {c : Command} (h : c.type = Command.discard.type) :
    c = .discard ∨ c = .named Command.discard.type := by
  cases c with
  | discard => exact .inl rfl
  | named type => exact .inr (congrArg Command.named h)
  | hook after label sub => cases after <;> simp [Command.type] at h
  | ignore errors change => cases errors <;> simp [Command.type] at h
  | _ => simp [Command.type] at h

theorem follows_runNamed {p : Processor} {y : Yielded} {type : String} {w : World}
    (hp : p.phase? = some .run) (hy : y.toCommand = .ok (.named type)) :
    Follows (.work (.process p y)) w (w.record (.handled .run (.named type)))
      (Move.runNamed type) := by
  have hpart (hmissing : missingPart? type ≠ none) : type ≠ Command.discard.type := by
    rintro rfl
    exact hmissing (by decide)
  unfold Move.runNamed
  split
  · next fault hmissing =>
      have hc : Phase.run = .run → (Command.named type).type ≠ Command.discard.type :=
        fun _ => hpart (by rw [hmissing]; simp)
      split
      · refine .get (.changing ?_)
        unfold Move.endHearing
        refine .changing ?_
        exact Rule.answered (.error fault) hp hy hc (.acts rfl (World.acts_hearNothing _))
      · exact Rule.answered (.error fault) hp hy hc (.acts rfl (.refl _))
  · next hmissing =>
      split
      · next hflush => exact Rule.commanded hp hy (.flush hflush) (.refl _)
      · split
        · next hdiscard => exact Rule.discarded hp hy hdiscard
        · next hdiscard =>
            exact follows_answered hp hy (fun _ => hdiscard) rfl
              (Engine.acting_configure (by simp) (by simp))

theorem follows_runCommand {p : Processor} {y : Yielded} {c : Command} {w : World}
    (hp : p.phase? = some .run) (hy : y.toCommand = .ok c) :
    Follows (.work (.process p y)) w (w.record (.handled .run c)) (Move.runCommand c) := by
  have hother (hdiscard : c ≠ .discard) (hnamed : c ≠ .named Command.discard.type)
      (_ : Phase.run = .run) : c.type ≠ Command.discard.type := by
    intro htype
    rcases type_eq_discard htype with h | h
    · exact hdiscard h
    · exact hnamed h
  cases c with
  | flush => exact Rule.commanded hp hy (.flush rfl) (.refl _)
  | discard => exact Rule.discarded hp hy rfl
  | change change =>
      cases change with
      | label label => exact Rule.commanded hp hy .change (.refl _)
      | files files =>
          refine .acting (.refl _) (Engine.acting_changedFiles files) (fun files' w₂ h => ?_) ?_
          · exact .returning (.commanded hp hy .write h)
          · exact fun fault w₂ h =>
              .answered (.error fault) hp hy (hother (by simp) (by simp)) (.acts rfl h)
  | page path args options =>
      exact follows_answered hp hy (hother (by simp) (by simp)) rfl (Engine.acting_reach _ _ _)
  | innerText selector =>
      refine .get ?_
      exact Rule.answered (.ok _) hp hy (hother (by simp) (by simp)) (.acts rfl (.refl _))
  | consoleWait timeout matchers => exact Rule.commanded hp hy .hear (.refl _)
  | call f =>
      refine .get ?_
      exact follows_commanded hp hy (hother (by simp) (by simp)) rfl (Engine.acting_call _ _)
        fun _ => .call
  | effect e =>
      exact follows_answered hp hy (hother (by simp) (by simp)) rfl (Engine.acting_apply e)
  | named type => exact follows_runNamed hp hy
  | templates | ignore => exact follows_set hp hy (hother (by simp) (by simp)) rfl
  | _ =>
      exact follows_answered hp hy (hother (by simp) (by simp)) rfl
        (Engine.acting_configure (by simp) (by simp))

theorem sets_prepare {c : Command} (hsleep : ∀ d, c ≠ .sleep d) (hawait : ∀ v, c ≠ .await v) :
    Phase.prepare.sets c = true := by
  cases c with
  | sleep d => exact absurd rfl (hsleep d)
  | await v => exact absurd rfl (hawait v)
  | _ => rfl

theorem follows_handle {p : Processor} {y : Yielded} {phase : Phase} {c : Command} {w : World}
    (hp : p.phase? = some phase) (hy : y.toCommand = .ok c) :
    Follows (.work (.process p y)) w w (Move.handle phase c) := by
  refine .changing ?_
  split
  · exact Rule.commanded hp hy .sleep (.refl _)
  · exact follows_awaitOperand hp hy
  · next hsleep hawait => exact follows_set hp hy (fun h => nomatch h) (sets_prepare hsleep hawait)
  · exact follows_runCommand hp hy

theorem follows_double (y : Yielded) (w : World) :
    Follows (.work (.process .doubling y)) w w (Move.double y) := by
  have hacts := World.acts_log w (.command y)
  have hwrong : Rule (.work (.process .doubling y)) w (.fail (.notNumber y.shown))
      (w.record (.log (.command y))) := rule_fail rfl hacts _
  refine .changing ?_
  simp only
  split
  · exact Rule.reply (.ok _) rfl hacts
  · exact Rule.reply (.ok _) rfl hacts
  · split
    · exact hwrong
    · split
      · exact hwrong
      · exact Rule.call .double hacts
  · exact hwrong

theorem follows_process (p : Processor) (y : Yielded) (w : World) :
    Follows (.work (.process p y)) w w (Move.process p y) := by
  have hfail (fault : Fault) : Rule (.work (.process p y)) w (.fail fault) w :=
    rule_fail rfl (.refl w) fault
  cases p with
  | doubling => exact follows_double y w
  | phase phase =>
      unfold Move.process
      cases hy : y.toCommand with
      | error fault => exact hfail fault
      | ok c =>
          refine .get ?_
          split
          · exact hfail _
          · split
            · exact follows_handle rfl hy
            · cases phase with
              | prepare => exact Rule.call .start (.refl w)
              | run => exact hfail _
  | handlers phase =>
      unfold Move.process
      cases hy : y.toCommand with
      | error fault => exact hfail fault
      | ok c =>
          refine .get ?_
          split
          · exact hfail _
          · split
            · exact follows_handle rfl hy
            · exact hfail _

/-! ## All work -/

theorem follows_start (first : Option Command) (w : World) :
    Follows (.work (.start first)) w w (Move.start first) := by
  refine .get ?_
  split
  · exact rule_fail rfl (.refl w) _
  · next hstarted => exact Rule.asks (.start (by simpa using hstarted))

theorem follows_together (p : Processor) (subs : List Value) (w : World) :
    Follows (.work (.together p subs)) w w (Move.together p subs) := by
  unfold Move.together
  split
  · exact Rule.reply (.ok _) rfl (.refl w)
  · next hsubs =>
      have hne : subs ≠ [] := by simpa using hsubs
      exact Rule.asks (.together hne rfl)

theorem follows_work (work : Work) (w : World) : Follows (.work work) w w work.run := by
  cases work with
  | script => exact Rule.call .script (.refl w)
  | start first => exact follows_start first w
  | load first => exact Rule.load (World.acts_log w _)
  | inPage first => exact follows_inPage first w
  | posts i => exact follows_posts i w
  | resume p g reply => exact follows_resume p g reply w
  | process p y => exact follows_process p y w
  | sub p v => exact follows_sub p v w
  | together p subs => exact follows_together p subs w
  | sleep delay => exact follows_sleep delay w
  | await a => exact follows_await a w
  | hear timeout matchers => exact Rule.asks .hear
  | deeds ds => exact follows_deeds ds w
  | write files => exact follows_write files w
  | drain until? already last => exact follows_drain until? already last w
  | verify label e stage => exact follows_verify label e stage w

/-! ## Frames -/

theorem passes_of_not_value {f : Frame} {o : Outcome} (ho : ∀ v, o ≠ .value v)
    (hf : f.passes o = !o.isValue) : f.passes o = true := by
  rw [hf]
  cases o with
  | value v => exact absurd rfl (ho v)
  | fault fault | stopped => rfl

theorem follows_prepared (o : Outcome) (w : World) :
    Follows (.frame .prepared o) w w (Move.prepared o) := by
  refine .onValue (fun o ho => passes_of_not_value ho rfl) ?_
  rintro v rfl
  refine .get ?_
  simp only
  split
  · exact Rule.call .prepared (.refl w)
  · exact rule_done rfl (.refl w)

theorem follows_afterReset (first : Option Command) (o : Outcome) (w : World) :
    Follows (.frame (.reset first) o) w w (Move.afterReset first o) := by
  refine .onValue (fun o ho => passes_of_not_value ho rfl) ?_
  rintro v rfl
  exact Rule.asks .opened

theorem follows_joined (members : List FutureId) (results : Bool) (o : Outcome) (w : World) :
    Follows (.frame (.joined members results) o) w w (Move.joined members results o) := by
  refine .get ?_
  simp only
  split
  · next hopen =>
      have hrule : Rule (.frame (.joined members results) o) w
          (.give (o.andThen (w.jointOutcome members results))) w :=
        .joined (List.isEmpty_iff.mp hopen)
      cases o <;> exact hrule
  · next hopen => exact Rule.asks (.cancelled fun hnil => hopen (List.isEmpty_iff.mpr hnil))

theorem follows_collected (members : List FutureId) (results : Bool) (waited o : Outcome)
    (w : World) : Follows (.frame (.collected members results waited) o) w w
      (Move.collected members results waited o) := by
  have hrule : Rule (.frame (.collected members results waited) o) w
      (.give (o.andThen (waited.andThen (w.jointOutcome members results)))) w := .collected
  cases o <;> cases waited <;> exact hrule

theorem follows_heard (number : Nat) (found : FutureId) (o : Outcome) (w : World) :
    Follows (.frame (.heard number found) o) w w (Move.heard number found o) := by
  refine .get ?_
  split
  · next hsettled => exact Rule.met hsettled
  · next hopen => exact Rule.asks (.heard (by simpa using hopen))

theorem follows_unheard (number : Nat) (stopped : Bool) (o : Outcome) (w : World) :
    Follows (.frame (.unheard number stopped) o) w w (Move.unheard number stopped o) := by
  have hrule : Rule (.frame (.unheard number stopped) o) w
      (.give (if stopped || o.isStopped then .stopped else .fault .noMessage)) (w.unhearing number) :=
    .unheard
  rw [apply_ite Turn.give] at hrule
  exact hrule

theorem follows_asserted (until? : Option String) (already : Bool) (label : String) (o : Outcome)
    (w : World) : Follows (.frame (.asserted until? already label) o) w w
      (Move.asserted until? already label o) := by
  refine .changing ?_
  cases o with
  | fault fault => exact Rule.assertedNot (by simp)
  | stopped => exact Rule.assertedNot (by simp)
  | value v =>
      unfold Move.onValue
      simp only
      split
      · next huntil =>
          subst huntil
          exact Rule.assertedLast
      · next huntil => exact Rule.assertedNext huntil

theorem follows_changed (label : String) (o : Outcome) (w : World) :
    Follows (.frame (.changed label) o) w w (Move.changed label o) := by
  refine .onValue (fun o ho => passes_of_not_value ho rfl) ?_
  rintro v rfl
  have hwrite (hv : v ≠ .text label) : Follows (.frame (.changed label) (.value v)) w w
      (Move.writeVariant label []) := Rule.changed hv
  split
  · next last =>
      split
      · exact rule_done rfl (.refl w)
      · next hlast => exact hwrite (by simpa using hlast)
  · next hv => exact hwrite fun heq => hv label heq

theorem follows_verified (label : String) (e : Expectation) (stage : Stage) (o : Outcome)
    (w : World) : Follows (.frame (.verified label e stage) o) w w
      (Move.verified label e stage o) := by
  cases o with
  | value v =>
      exact rule_afterStage rfl fun next hnext => .verified hnext
  | fault fault => exact rule_fail rfl (.refl w) _
  | stopped => exact Rule.pass rfl (.refl w)

theorem follows_frame (f : Frame) (o : Outcome) (w : World) :
    Follows (.frame f o) w w (f.take o) := by
  cases f with
  | begin work =>
      refine .onValue (fun o ho => passes_of_not_value ho rfl) ?_
      rintro v rfl
      exact Rule.call .begin (.refl w)
  | forget =>
      refine .onValue (fun o ho => passes_of_not_value ho rfl) ?_
      rintro v rfl
      exact rule_done rfl (.refl w)
  | prepared => exact follows_prepared o w
  | reset first => exact follows_afterReset first o w
  | raced => cases o <;> exact Rule.raced
  | unloaded =>
      refine .onValue (fun o ho => passes_of_not_value ho rfl) ?_
      rintro v rfl
      exact rule_done rfl (acts_closePage w)
  | opened first =>
      refine .onValue (fun o ho => passes_of_not_value ho rfl) ?_
      rintro v rfl
      unfold Move.begin
      split
      · exact Rule.call (.opened (.command rfl)) (.refl w)
      · exact Rule.call (.opened (.script rfl)) (.refl w)
  | firstDone =>
      cases o with
      | value v => exact Rule.call (.firstDone (by simp)) (.refl w)
      | fault fault => exact Rule.call (.firstDone (by simp)) (.refl w)
      | stopped => exact Rule.pass rfl (.refl w)
  | scriptDone =>
      refine .onValue (fun o ho => passes_of_not_value ho rfl) ?_
      rintro v rfl
      exact Rule.call .scriptDone (.refl w)
  | flushed =>
      refine .onValue (fun o ho => passes_of_not_value ho rfl) ?_
      rintro v rfl
      exact Rule.call .flushed (.refl w)
  | posted i =>
      refine .onValue (fun o ho => passes_of_not_value ho rfl) ?_
      rintro v rfl
      exact Rule.call .posted (.refl w)
  | pageDone => exact Rule.pass rfl (acts_closePage w)
  | answer p g =>
      cases o with
      | value v => exact Rule.call (.answer (by simp)) (.refl w)
      | fault fault => exact Rule.call (.answer (by simp)) (.refl w)
      | stopped => exact Rule.pass rfl (.refl w)
  | joined members results => exact follows_joined members results o w
  | collected members results waited => exact follows_collected members results waited o w
  | slept name =>
      cases o with
      | value v => exact Rule.pass rfl (World.acts_log w _)
      | fault fault => exact Rule.pass rfl (.refl w)
      | stopped => exact Rule.pass rfl (World.acts_log w _)
  | give v =>
      refine .onValue (fun o ho => passes_of_not_value ho rfl) ?_
      rintro _ rfl
      exact .giving rfl (.refl w) (Engine.acting_make _)
  | body c =>
      refine .onValue (fun o ho => passes_of_not_value ho rfl) ?_
      rintro v rfl
      exact follows_body rfl c (.refl w)
  | heard number found => exact follows_heard number found o w
  | unheard number stopped => exact follows_unheard number stopped o w
  | deeds ds =>
      refine .onValue (fun o ho => passes_of_not_value ho rfl) ?_
      rintro v rfl
      exact Rule.call .deeds (.refl w)
  | during task paths =>
      cases o with
      | value v => exact rule_done rfl (.refl w)
      | fault fault => exact rule_fail rfl (.refl w) _
      | stopped => exact Rule.pass rfl (.refl w)
  | written until? already label e =>
      refine .onValue (fun o ho => passes_of_not_value ho rfl) ?_
      rintro v rfl
      exact Rule.written
  | asserted until? already label => exact follows_asserted until? already label o w
  | changed label => exact follows_changed label o w
  | verified label e stage => exact follows_verified label e stage o w

/-- What is done at a head is done by a rule. -/
theorem rule_run (head : Head) (w : World) :
    Rule head w (head.run.run w).1 (head.run.run w).2 := by
  cases head with
  | work work => exact follows_work work w
  | frame f o => exact follows_frame f o w

/-! ## Steps -/

/-- A task at a head, with the frames that come after it. -/
def Head.control : Head → List Frame → Control
  | .work w, stack => .work w stack
  | .frame f o, stack => .outcome o (f :: stack)

namespace Machine

/-- A step of the machine is a rule, the end of a task, or something that the scheduler has to
handle. -/
theorem step_cases {m m' : Machine} (h : m.step = some m') :
    (∃ t head stack turn w', m.current = some (t, head.control stack) ∧
      Rule head m.world turn w' ∧ m' = follow t stack turn w') ∨
    (∃ t o, m.current = some (t, .outcome o []) ∧
      m' = ⟨m.world.withScheduler (·.finish t o), none⟩) ∨
    (∃ handle scheduler, m.current = none ∧ m.world.scheduler.next = some (handle, scheduler) ∧
      m' = Machine.handle { m.world with scheduler } handle) := by
  unfold step at h
  cases hcurrent : m.current with
  | none =>
      have htask : m.stepTask = none := by simp [stepTask, hcurrent]
      rw [htask] at h
      obtain ⟨⟨handle, scheduler⟩, hnext, rfl⟩ := Option.map_eq_some_iff.mp h
      exact .inr (.inr ⟨handle, scheduler, rfl, hnext, rfl⟩)
  | some current =>
      obtain ⟨t, control⟩ := current
      cases control with
      | work work stack =>
          have htask : m.stepTask = some (follow t stack (work.run.run m.world).1
              (work.run.run m.world).2) := by
            simp only [stepTask, hcurrent]
            rfl
          rw [htask] at h
          cases h
          exact .inl ⟨t, .work work, stack, _, _, rfl, rule_run (.work work) m.world, rfl⟩
      | outcome o stack =>
          cases stack with
          | nil =>
              have htask : m.stepTask = some ⟨m.world.withScheduler (·.finish t o), none⟩ := by
                simp [stepTask, hcurrent]
              rw [htask] at h
              cases h
              exact .inr (.inl ⟨t, o, rfl, rfl⟩)
          | cons frame stack =>
              have htask : m.stepTask = some (follow t stack ((frame.take o).run m.world).1
                  ((frame.take o).run m.world).2) := by
                simp only [stepTask, hcurrent]
                rfl
              rw [htask] at h
              cases h
              exact .inl ⟨t, .frame frame o, stack, _, _, rfl, rule_run (.frame frame o) m.world,
                rfl⟩

end Machine

end HotSpec
