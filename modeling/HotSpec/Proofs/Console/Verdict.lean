import HotSpec.Proofs.Console.Watch

/-!
# The verdict of the monitor

Whatever happens to a monitor that listens to its page, in whatever order: it comes to one verdict at
most, and the verdict is a fault exactly where the page offended before the monitor was let go.  A
burst of messages fails the monitor with all of its messages, in the order in which they were told.

Main definitions:

- `World.Attached`: a monitor that has begun to listen.
- `World.Offends`, `World.LetsGo`: what fails the monitor, and what ends it.
- `World.Blames`: the fault for which an offence fails the monitor.
- `World.Standing`: what the happenings so far have made of a monitor.

Main results:

- Theorem `watches_standing`: the happenings so far say how a monitor stands.
- Theorem `verdict_of_watches`: the one verdict of a monitor, its cause and its messages.
-/

namespace HotSpec

namespace World

variable {w w' w₀ : World} {f : FutureId} {past : List (World × Watched)}

/-! ## Offences -/

/-- A monitor that has begun to listen, with the future of its verdict. -/
structure Attached (w : World) (f : FutureId) : Prop where
  monitor : w.monitor = { Monitor.start with attached := true }
  verdict : w.verdict = some f
  born : f < w.scheduler.futures.length
  outcome? : w.scheduler.outcome? f = none
  bursts : w.bursts = []

/-- A happening that fails the monitor: an error or a warning that the policy in force does not
ignore, an error of the page that no handler claims, or any other error. -/
def Offends (x : World × Watched) : Prop :=
  match x.2 with
  | .told (.console m) =>
    m.type = "error" ∧ x.1.session.console.errors.ignores m.text = false ∨
      m.type = "warning" ∧ x.1.session.console.warnings.ignores m.text = false
  | .told (.pageError text) =>
    ((Engine.claim text x.1.session.errorHandlers).exec x.1).1 = .ok false
  | .told (.error _ _) => True
  | _ => False

/-- A happening that ends a monitor: it is closed, has not failed and is in no burst. -/
def LetsGo (x : World × Watched) : Prop :=
  x.2 = .closed ∧ x.1.monitor.rejected = false ∧ x.1.monitor.buffering = false

/-- The messages of some happenings, in their order. -/
def messagesOf (past : List (World × Watched)) : List ConsoleMessage :=
  past.filterMap (·.2.message?)

/-- The fault for which a happening fails the monitor, by what happens before and after it.  A message
does so when its burst is over, with itself and all messages since. -/
def Blames (before : List (World × Watched)) (x : World × Watched)
    (after : List (World × Watched)) (fault : Fault) : Prop :=
  match x.2 with
  | .told (.console m) =>
    (∀ y ∈ before, ¬ Offends y) ∧ ∃ during w rest, after = during ++ (w, .expired) :: rest ∧
      (∀ y ∈ during, y.2 ≠ .expired) ∧
      fault = .console (m.type == "error") (m :: messagesOf during)
  | .told (.pageError text) => fault = .page text
  | .told (.error kind text) => fault = errorFault kind text
  | _ => False

theorem Blames.append {before after later : List (World × Watched)} {x : World × Watched}
    {fault : Fault} (h : Blames before x after fault) : Blames before x (after ++ later) fault := by
  obtain ⟨w, what⟩ := x
  cases what with
  | told event =>
    cases event with
    | console m =>
      obtain ⟨hbefore, during, w', rest, rfl, hduring⟩ := h
      exact ⟨hbefore, during, w', rest ++ later, by simp, hduring⟩
    | pageError text => exact h
    | error kind text => exact h
    | load => exact h
  | expired => exact h
  | elsewhere => exact h
  | closed => exact h

/-- A message offends exactly where the policy in force says so, as an error or as a warning. -/
theorem offence_of_offends {m : ConsoleMessage} (h : Offends (w, .told (.console m))) :
    w.session.console.offence m = some (m.type == "error") := by
  unfold ConsolePolicy.offence
  rcases h with ⟨htype, hignores⟩ | ⟨htype, hignores⟩
  · simpa [htype] using hignores
  · simpa [htype] using hignores

theorem offence_eq_none {m : ConsoleMessage} (h : ¬ Offends (w, .told (.console m))) :
    w.session.console.offence m = none := by
  unfold ConsolePolicy.offence
  have hsplit := not_or.mp h
  by_cases herror : m.type = "error"
  · simpa [herror] using hsplit.1
  · by_cases hwarning : m.type = "warning"
    · simpa [herror, hwarning] using hsplit.2
    · simp [herror, hwarning]

/-! ## A verdict that has been reached -/

/-- The future of the verdict is there, so that the monitor can settle it. -/
structure Bound (w : World) (f : FutureId) : Prop where
  verdict : w.verdict = some f
  born : f < w.scheduler.futures.length

theorem Bound.tellMonitor (h : w.Bound f) (signal : Monitor.Signal) :
    (w.tellMonitor signal).Bound f where
  verdict := (w.verdict_tellMonitor signal).trans h.verdict
  born := (w.born_tellMonitor signal).symm ▸ h.born

theorem Bound.alike (h : w.Bound f) (hsame : w.Alike w') : w'.Bound f where
  verdict := hsame.verdict.trans h.verdict
  born := Nat.lt_of_lt_of_le h.born hsame.born

theorem Bound.watch {what : Watched} (h : w.Bound f) (hwatch : w.Watch what w') : w'.Bound f := by
  obtain hsame | ⟨w₁, signal, hsame, rfl⟩ := watch_signal hwatch
  · exact h.alike hsame
  · exact (h.alike hsame).tellMonitor signal

/-- A monitor with a verdict, and the future that was settled by it. -/
def Reached (w : World) (f : FutureId) (verdict : Option Fault) : Prop :=
  w.monitor.verdict = some verdict ∧ w.scheduler.outcome? f = some (outcomeOf verdict)

theorem Reached.tellMonitor {verdict : Option Fault} (h : w.Reached f verdict)
    (signal : Monitor.Signal) : (w.tellMonitor signal).Reached f verdict := by
  constructor
  · rw [w.monitor_tellMonitor signal]
    exact Monitor.verdict_step h.1 signal
  · exact outcome?_tellMonitor_of_some signal h.2

/-- A monitor that had no verdict passes on the one that it comes to. -/
theorem reached_tellMonitor {verdict : Option Fault} {signal : Monitor.Signal} (hb : w.Bound f)
    (hnone : w.monitor.verdict = none) (hopen : w.scheduler.outcome? f = none)
    (h : (w.heard signal).1.verdict = some verdict) : (w.tellMonitor signal).Reached f verdict := by
  constructor
  · rw [w.monitor_tellMonitor signal, h]
  · rw [outcome?_tellMonitor hb.verdict hb.born hopen, if_pos hnone, h]
    rfl

theorem Reached.alike {verdict : Option Fault} (h : w.Reached f verdict) (hb : w.Bound f)
    (hsame : w.Alike w') : w'.Reached f verdict :=
  ⟨hsame.monitor ▸ h.1, (hsame.outcome? f hb.verdict).trans h.2⟩

/-- Nothing that happens changes a verdict. -/
theorem Reached.watch {verdict : Option Fault} {what : Watched} (h : w.Reached f verdict)
    (hb : w.Bound f) (hwatch : w.Watch what w') : w'.Reached f verdict := by
  obtain hsame | ⟨w₁, signal, hsame, rfl⟩ := watch_signal hwatch
  · exact h.alike hb hsame
  · exact (h.alike hb hsame).tellMonitor signal

/-! ## How a monitor stands -/

/-- A monitor that listens and has heard nothing that fails it. -/
structure Listening (w : World) (f : FutureId) (past : List (World × Watched)) : Prop where
  past : ∀ y ∈ past, ¬ Offends y ∧ ¬ LetsGo y
  monitor : w.monitor = { Monitor.start with attached := true }
  bursts : w.bursts = []
  outcome? : w.scheduler.outcome? f = none

/-- A monitor in the burst that a message has started: it has collected what was told since, and the
clock is to end the burst. -/
structure Collecting (w : World) (f : FutureId) (before : List (World × Watched)) (w₁ : World)
    (m : ConsoleMessage) (during : List (World × Watched)) : Prop where
  before : ∀ y ∈ before, ¬ Offends y ∧ ¬ LetsGo y
  first : Offends (w₁, .told (.console m))
  since : ∀ y ∈ during, y.2 ≠ .expired ∧ ¬ LetsGo y
  monitor : w.monitor = ⟨true, m :: messagesOf during, true, false, none⟩
  bursts : w.bursts = [m.type == "error"]
  outcome? : w.scheduler.outcome? f = none

/-- What the happenings so far have made of a monitor: it listens, it is in a burst, it has failed or
it was let go. -/
inductive Standing (w : World) (f : FutureId) : List (World × Watched) → Prop
  | listening {past : List (World × Watched)} (h : w.Listening f past) : Standing w f past
  | collecting {before during : List (World × Watched)} {w₁ : World} {m : ConsoleMessage}
      (h : w.Collecting f before w₁ m during) :
      Standing w f (before ++ (w₁, .told (.console m)) :: during)
  | failed {before after : List (World × Watched)} {x : World × Watched} {fault : Fault}
      (hbefore : ∀ y ∈ before, ¬ LetsGo y) (hoffends : Offends x)
      (hblames : Blames before x after fault) (hreached : w.Reached f (some fault)) :
      Standing w f (before ++ x :: after)
  | ended {before after : List (World × Watched)} {x : World × Watched}
      (hbefore : ∀ y ∈ before, ¬ Offends y) (hends : LetsGo x) (hreached : w.Reached f none) :
      Standing w f (before ++ x :: after)

/-- A monitor in a burst, after all that has happened, has not been let go. -/
theorem Collecting.not_letsGo {before during : List (World × Watched)} {w₁ : World}
    {m : ConsoleMessage} (h : w.Collecting f before w₁ m during) :
    ∀ y ∈ before ++ (w₁, .told (.console m)) :: during, ¬ LetsGo y := by
  intro y hy
  rcases List.mem_append.mp hy with hy | hy
  · exact (h.before y hy).2
  · rcases List.mem_cons.mp hy with rfl | hy
    · rintro ⟨htold, -⟩
      cases htold
    · exact (h.since y hy).2

/-- A monitor goes on listening through what neither fails nor ends it. -/
theorem Listening.snoc {x : World × Watched} (h : w.Listening f past)
    (hmonitor : w'.monitor = w.monitor) (hfuture : w'.scheduler.outcome? f = w.scheduler.outcome? f)
    (hbursts : w'.bursts.Perm w.bursts) (hx : ¬ Offends x ∧ ¬ LetsGo x) :
    w'.Listening f (past ++ [x]) where
  past y hy := by
    rcases List.mem_append.mp hy with hy | hy
    · exact h.past y hy
    · exact List.mem_singleton.mp hy ▸ hx
  monitor := hmonitor.trans h.monitor
  bursts := List.Perm.eq_nil (h.bursts ▸ hbursts)
  outcome? := hfuture.trans h.outcome?

/-- A burst goes on through whatever does not end it, and collects the messages that are told. -/
theorem Collecting.snoc {before during : List (World × Watched)} {w₁ : World}
    {m : ConsoleMessage} {x : World × Watched} (h : w.Collecting f before w₁ m during)
    (hmonitor : w'.monitor = { w.monitor with
      messages := w.monitor.messages ++ x.2.message?.toList })
    (hfuture : w'.scheduler.outcome? f = w.scheduler.outcome? f)
    (hbursts : w'.bursts.Perm w.bursts) (hx : x.2 ≠ .expired ∧ ¬ LetsGo x) :
    w'.Collecting f before w₁ m (during ++ [x]) where
  before := h.before
  first := h.first
  since y hy := by
    rcases List.mem_append.mp hy with hy | hy
    · exact h.since y hy
    · exact List.mem_singleton.mp hy ▸ hx
  monitor := by
    rw [hmonitor, h.monitor]
    cases hmessage : x.2.message? with
    | none => simp [messagesOf, hmessage]
    | some m' => simp [messagesOf, hmessage]
  bursts := List.perm_singleton.mp (h.bursts ▸ hbursts)
  outcome? := hfuture.trans h.outcome?

/-- A monitor without a verdict is failed at once by an error of the page that nobody claims. -/
theorem standing_pageError {text : String} (hb : w.Bound f) (hpast : ∀ y ∈ past, ¬ LetsGo y)
    (hnone : w.monitor.verdict = none) (hopen : w.scheduler.outcome? f = none)
    (h : w.Watch (.told (.pageError text)) w') (hoffends : Offends (w, .told (.pageError text))) :
    w'.Standing f (past ++ [(w, .told (.pageError text))]) := by
  obtain ⟨w₁, claimed, hclaim, hsame, rfl⟩ := watch_pageError h
  have hclaimed : claimed = false := by
    have hresult : ((Engine.claim text w.session.errorHandlers).exec w).1 = .ok false := hoffends
    rw [hclaim] at hresult
    exact Except.ok.inj hresult
  have hblames : Blames past (w, .told (.pageError text)) [] (.page text) := rfl
  refine .failed hpast hoffends hblames ?_
  apply reached_tellMonitor (hb.alike hsame.alike)
  · rw [hsame.alike.monitor, hnone]
  · rw [hsame.alike.outcome? f hb.verdict, hopen]
  · subst hclaimed
    simp [heard, Monitor.step, Monitor.reject, Monitor.settle, hsame.alike.monitor, hnone]

/-- A monitor without a verdict is failed at once by any other error. -/
theorem standing_error {kind : Option FaultKind} {text : String} (hb : w.Bound f)
    (hpast : ∀ y ∈ past, ¬ LetsGo y) (hnone : w.monitor.verdict = none)
    (hopen : w.scheduler.outcome? f = none) (h : w.Watch (.told (.error kind text)) w') :
    w'.Standing f (past ++ [(w, .told (.error kind text))]) := by
  obtain rfl := watch_error h
  have hblames : Blames past (w, .told (.error kind text)) [] (errorFault kind text) := rfl
  refine .failed hpast trivial hblames ?_
  apply reached_tellMonitor hb hnone hopen
  simp [heard, Monitor.step, Monitor.reject, Monitor.settle, hnone]

/-- What neither the monitor nor the page is asked anything for changes nothing. -/
theorem tellMonitor_quiet {signal : Monitor.Signal} (h : w.heard signal = (w.monitor, .quiet)) :
    w.tellMonitor signal = w := by
  have hasked : w.asked signal = w := by
    unfold asked
    rw [h]
    rfl
  rw [tellMonitor_eq, hasked, h]
  cases hverdict : w.monitor.verdict with
  | none => rfl
  | some verdict => rfl

/-- What a monitor that listens comes to. -/
theorem Listening.watch {what : Watched} (h : w.Listening f past) (hb : w.Bound f)
    (hwatch : w.Watch what w') : w'.Standing f (past ++ [(w, what)]) := by
  have hnone : w.monitor.verdict = none := by rw [h.monitor]; rfl
  have hrejected : w.monitor.rejected = false := by rw [h.monitor]; rfl
  have hbuffering : w.monitor.buffering = false := by rw [h.monitor]; rfl
  cases what with
  | told event =>
    have hgo : ¬ LetsGo (w, .told event) := by
      rintro ⟨hexpired, -⟩
      cases hexpired
    cases event with
    | console m =>
      obtain ⟨w₁, hsame, hsession, rfl⟩ := watch_console hwatch
      have hmonitor := hsame.alike.monitor
      by_cases hoffends : Offends (w, .told (.console m))
      · have hheard : w₁.heard (.message m) =
            (⟨true, [m], true, false, none⟩, ⟨false, some (m.type == "error")⟩) := by
          simp [heard, Monitor.step, Monitor.hear, hmonitor, h.monitor, hsession,
            offence_of_offends hoffends, Monitor.start]
        refine .collecting ⟨h.past, hoffends, by simp, ?_, ?_, ?_⟩
        · rw [monitor_tellMonitor, hheard]
          rfl
        · have hbursts := w₁.bursts_tellMonitor (.message m)
          rw [hheard, hsame.bursts, h.bursts] at hbursts
          exact List.perm_singleton.mp hbursts
        · rw [outcome?_tellMonitor (hb.alike hsame.alike).verdict (hb.alike hsame.alike).born
            ((hsame.alike.outcome? f hb.verdict).trans h.outcome?), hheard]
          simp
      · have hheard : w₁.heard (.message m) = (w₁.monitor, .quiet) := by
          simp [heard, Monitor.step, Monitor.hear, hmonitor, h.monitor, hsession,
            offence_eq_none hoffends, Monitor.start]
        rw [tellMonitor_quiet hheard]
        exact .listening (h.snoc hmonitor (hsame.alike.outcome? f hb.verdict)
          (by rw [hsame.bursts]) ⟨hoffends, hgo⟩)
    | pageError text =>
      by_cases hoffends : Offends (w, .told (.pageError text))
      · exact standing_pageError hb (fun y hy => (h.past y hy).2) hnone h.outcome? hwatch hoffends
      · obtain ⟨w₁, claimed, hclaim, hsame, rfl⟩ := watch_pageError hwatch
        cases claimed with
        | false =>
          have hresult : Offends (w, .told (.pageError text)) := congrArg Prod.fst hclaim
          exact absurd hresult hoffends
        | true =>
          rw [tellMonitor_quiet rfl]
          exact .listening (h.snoc hsame.alike.monitor (hsame.alike.outcome? f hb.verdict)
            (by rw [hsame.bursts]) ⟨hoffends, hgo⟩)
    | error kind text =>
      exact standing_error hb (fun y hy => (h.past y hy).2) hnone h.outcome? hwatch
    | load =>
      obtain rfl := watch_load hwatch
      exact .listening (h.snoc rfl rfl (.refl _) ⟨id, hgo⟩)
  | expired =>
    -- no burst is open that the clock could end
    cases hwatch with
    | expired ht =>
      have hperm := bursts_takes ht
      rw [h.bursts] at hperm
      exact absurd hperm.symm.eq_nil (by simp)
  | elsewhere =>
    cases hwatch with
    | elsewhere hsame hbursts =>
      exact .listening (h.snoc hsame.monitor (hsame.outcome? f hb.verdict) hbursts
        ⟨id, by rintro ⟨⟨⟩, -⟩⟩)
  | closed =>
    cases hwatch with
    | closed =>
      refine .ended (fun y hy => (h.past y hy).1) ⟨rfl, hrejected, hbuffering⟩ ?_
      apply reached_tellMonitor hb hnone h.outcome?
      simp [heard, Monitor.step, Monitor.settle, hrejected, hbuffering, hnone]

/-- What a monitor in a burst comes to. -/
theorem Collecting.watch {before during : List (World × Watched)} {w₁ : World}
    {m : ConsoleMessage} {what : Watched} (h : w.Collecting f before w₁ m during)
    (hb : w.Bound f) (hwatch : w.Watch what w') :
    w'.Standing f ((before ++ (w₁, .told (.console m)) :: during) ++ [(w, what)]) := by
  have hnone : w.monitor.verdict = none := by rw [h.monitor]
  have hrejected : w.monitor.rejected = false := by rw [h.monitor]
  have hbuffering : w.monitor.buffering = true := by rw [h.monitor]
  have hgo (what : Watched) : ¬ LetsGo (w, what) := fun hgo => by
    have hfalse : w.monitor.buffering = false := hgo.2.2
    exact absurd (hbuffering.symm.trans hfalse) (by decide)
  have hon {w' : World} (h' : w'.Collecting f before w₁ m (during ++ [(w, what)])) :
      w'.Standing f ((before ++ (w₁, .told (.console m)) :: during) ++ [(w, what)]) := by
    simpa using Standing.collecting h'
  cases what with
  | told event =>
    cases event with
    | console m' =>
      obtain ⟨w₂, hsame, hsession, rfl⟩ := watch_console hwatch
      have hmonitor := hsame.alike.monitor
      have hheard : w₂.heard (.message m') =
          ({ w.monitor with messages := w.monitor.messages ++ [m'] }, .quiet) := by
        simp [heard, Monitor.step, Monitor.hear, hmonitor, hrejected, hbuffering]
      apply hon
      apply h.snoc
      · rw [monitor_tellMonitor, hheard]
        rfl
      · rw [outcome?_tellMonitor (hb.alike hsame.alike).verdict (hb.alike hsame.alike).born
          ((hsame.alike.outcome? f hb.verdict).trans h.outcome?), hheard, h.outcome?]
        simp [hnone]
      · have hbursts := w₂.bursts_tellMonitor (.message m')
        rwa [hheard, hsame.bursts] at hbursts
      · exact ⟨by simp, hgo _⟩
    | pageError text =>
      by_cases hoffends : Offends (w, .told (.pageError text))
      · exact standing_pageError hb h.not_letsGo hnone h.outcome? hwatch hoffends
      · obtain ⟨w₂, claimed, hclaim, hsame, rfl⟩ := watch_pageError hwatch
        cases claimed with
        | false =>
          have hresult : Offends (w, .told (.pageError text)) := congrArg Prod.fst hclaim
          exact absurd hresult hoffends
        | true =>
          rw [tellMonitor_quiet rfl]
          exact hon (h.snoc (by simp [hsame.alike.monitor, Watched.message?])
            (hsame.alike.outcome? f hb.verdict) (by rw [hsame.bursts]) ⟨by simp, hgo _⟩)
    | error kind text => exact standing_error hb h.not_letsGo hnone h.outcome? hwatch
    | load =>
      obtain rfl := watch_load hwatch
      exact hon (h.snoc (by simp [Watched.message?]) rfl (.refl _) ⟨by simp, hgo _⟩)
  | expired =>
    -- the clock ends the one burst that is open
    cases hwatch with
    | @expired s error ht =>
      have hperm := bursts_takes ht
      rw [h.bursts] at hperm
      obtain ⟨rfl, -⟩ := List.cons.inj (List.perm_singleton.mp hperm.symm)
      have hblames : Blames before (w₁, .told (.console m)) (during ++ [(w, .expired)])
          (.console (m.type == "error") (m :: messagesOf during)) :=
        ⟨fun y hy => (h.before y hy).1, during, w, [], rfl, fun y hy => (h.since y hy).1, rfl⟩
      have hreached : (({ w with scheduler := s } : World).tellMonitor
          (.expired (m.type == "error"))).Reached f
            (some (.console (m.type == "error") (m :: messagesOf during))) := by
        apply reached_tellMonitor (hb.alike (alike_takes ht)) hnone ((ht.outcome? f).trans h.outcome?)
        simp [heard, Monitor.step, Monitor.reject, Monitor.settle, h.monitor]
      have hstanding := Standing.failed (fun y hy => (h.before y hy).2) h.first hblames hreached
      simpa using hstanding
  | elsewhere =>
    cases hwatch with
    | elsewhere hsame hbursts =>
      exact hon (h.snoc (by simp [hsame.monitor, Watched.message?])
        (hsame.outcome? f hb.verdict) hbursts ⟨by simp, hgo _⟩)
  | closed =>
    cases hwatch with
    | closed =>
      have hheard : w.heard .close = (w.monitor, .quiet) := by
        simp [heard, Monitor.step, hbuffering]
      rw [tellMonitor_quiet hheard]
      exact hon (h.snoc (by simp [Watched.message?]) rfl (.refl _) ⟨by simp, hgo _⟩)

/-- What happens next makes of a monitor what the happenings up to then and this one say. -/
theorem Standing.watch {what : Watched} (h : w.Standing f past) (hb : w.Bound f)
    (hwatch : w.Watch what w') : w'.Standing f (past ++ [(w, what)]) := by
  cases h with
  | listening h => exact h.watch hb hwatch
  | collecting h => exact h.watch hb hwatch
  | failed hbefore hoffends hblames hreached =>
    simpa using Standing.failed hbefore hoffends hblames.append (hreached.watch hb hwatch)
  | @ended before after x hbefore hends hreached =>
    have hended : w'.Standing f (before ++ x :: (after ++ [(w, what)])) :=
      .ended hbefore hends (hreached.watch hb hwatch)
    simpa using hended

/-- The happenings since a monitor began to listen say how it stands. -/
theorem watches_standing (h₀ : w₀.Attached f) (h : w₀.Watches past w) :
    w.Bound f ∧ w.Standing f past := by
  induction h with
  | nil => exact ⟨⟨h₀.verdict, h₀.born⟩, .listening ⟨by simp, h₀.monitor, h₀.bursts, h₀.outcome?⟩⟩
  | snoc _ hlast ih => exact ⟨ih.1.watch hlast, ih.2.watch ih.1 hlast⟩

/-- What has been settled stays as it is, whatever happens. -/
theorem Bound.settled_watches {later : List (World × Watched)} {o : Outcome} (hb : w.Bound f)
    (ho : w.scheduler.outcome? f = some o) (h : w.Watches later w') :
    w'.Bound f ∧ w'.scheduler.outcome? f = some o := by
  induction h with
  | nil => exact ⟨hb, ho⟩
  | snoc _ hlast ih =>
    refine ⟨ih.1.watch hlast, ?_⟩
    obtain hsame | ⟨w₁, signal, hsame, rfl⟩ := watch_signal hlast
    · exact (hsame.outcome? f ih.1.verdict).trans ih.2
    · exact outcome?_tellMonitor_of_some signal ((hsame.outcome? f ih.1.verdict).trans ih.2)

/-- Where a list is cut at two different items, one of them stands before the other. -/
theorem mem_of_cut {α : Type} {before before' after after' : List α} {x y : α}
    (h : before ++ x :: after = before' ++ y :: after') (hxy : x ≠ y) :
    y ∈ before ∨ x ∈ before' := by
  obtain ⟨gap, rfl, hgap⟩ | ⟨gap, rfl, hgap⟩ := List.append_eq_append_iff.mp h
  · cases gap with
    | nil => exact absurd (List.cons.inj hgap).1 hxy
    | cons z gap => exact .inr (by simp [(List.cons.inj hgap).1])
  · cases gap with
    | nil => exact absurd (List.cons.inj hgap).1 hxy.symm
    | cons z gap => exact .inl (by simp [(List.cons.inj hgap).1])

/-- An offence before the monitor was let go: it has failed, or is in the burst that will fail it. -/
theorem Standing.of_offence {before after : List (World × Watched)} {x : World × Watched}
    (h : w.Standing f (before ++ x :: after)) (hoffends : Offends x)
    (hbefore : ∀ y ∈ before, ¬ LetsGo y) :
    (∃ fault, w.scheduler.outcome? f = some (.fault fault)) ∨
      w.scheduler.outcome? f = none ∧ w.bursts ≠ [] := by
  generalize hpast : before ++ x :: after = past at h
  cases h with
  | listening h => exact absurd hoffends (h.past x (by simp [← hpast])).1
  | collecting h => exact .inr ⟨h.outcome?, by simp [h.bursts]⟩
  | @failed _ _ _ fault _ _ _ hreached => exact .inl ⟨fault, hreached.2⟩
  | @ended before' _ y hquiet hends _ =>
    -- what let the monitor go comes after the offence, which would have to be before it
    have hne : x ≠ y := by
      rintro rfl
      obtain ⟨world, what⟩ := x
      obtain ⟨hclosed, -⟩ := hends
      have hclosed' : what = .closed := hclosed
      subst hclosed'
      exact hoffends
    rcases mem_of_cut hpast hne with hmem | hmem
    · exact absurd hends (hbefore y hmem)
    · exact absurd hoffends (hquiet x hmem)

/-- A monitor that has failed was failed by an offence before it was let go. -/
theorem Standing.of_fault {fault : Fault} (h : w.Standing f past)
    (hfault : w.scheduler.outcome? f = some (.fault fault)) :
    ∃ before x after, past = before ++ x :: after ∧ Offends x ∧ (∀ y ∈ before, ¬ LetsGo y) ∧
      Blames before x after fault := by
  cases h with
  | listening h => exact absurd (h.outcome?.symm.trans hfault) (by simp)
  | collecting h => exact absurd (h.outcome?.symm.trans hfault) (by simp)
  | failed hbefore hoffends hblames hreached =>
    have heq := hreached.2.symm.trans hfault
    simp only [outcomeOf, Option.some.injEq, Outcome.fault.injEq] at heq
    subst heq
    exact ⟨_, _, _, rfl, hoffends, hbefore, hblames⟩
  | ended _ _ hreached =>
    have heq := hreached.2.symm.trans hfault
    simp [outcomeOf, Outcome.finished] at heq

/-- Only a message is blamed with a list of messages. -/
theorem Blames.of_console {before after : List (World × Watched)} {x : World × Watched}
    {error : Bool} {messages : List ConsoleMessage}
    (h : Blames before x after (.console error messages)) :
    ∃ w₁ m during w₂ rest, x = (w₁, .told (.console m)) ∧ (∀ y ∈ before, ¬ Offends y) ∧
      after = during ++ (w₂, .expired) :: rest ∧ (∀ y ∈ during, y.2 ≠ .expired) ∧
      error = (m.type == "error") ∧ messages = m :: messagesOf during := by
  obtain ⟨world, what⟩ := x
  cases what with
  | told event =>
    cases event with
    | console m =>
      obtain ⟨hbefore, during, w₂, rest, hafter, hduring, heq⟩ := h
      injection heq with herror hmessages
      exact ⟨world, m, during, w₂, rest, rfl, hbefore, hafter, hduring, herror, hmessages⟩
    | pageError text => exact nomatch (show Fault.console error messages = .page text from h)
    | error kind text =>
      have heq : Fault.console error messages = errorFault kind text := h
      cases kind <;> cases heq
    | load => exact h.elim
  | expired => exact h.elim
  | elsewhere => exact h.elim
  | closed => exact h.elim

/-- The future of a monitor is settled once.  It is not settled normally if the page offended before
the monitor was let go: then it is settled with a fault as soon as no burst is open.  It is settled
with a fault only for such an offence; and with messages only for the first offence of all, with that
message and every message told from then on up to the end of the burst. -/
theorem verdict_of_watches (h₀ : w₀.Attached f) (h : w₀.Watches past w) :
    (∀ later w' o, w.scheduler.outcome? f = some o → w.Watches later w' →
      w'.scheduler.outcome? f = some o) ∧
    (∀ before x after, past = before ++ x :: after → Offends x → (∀ y ∈ before, ¬ LetsGo y) →
      (∀ v, w.scheduler.outcome? f ≠ some (.value v)) ∧
      (w.bursts = [] → ∃ fault, w.scheduler.outcome? f = some (.fault fault))) ∧
    (∀ fault, w.scheduler.outcome? f = some (.fault fault) →
      ∃ before x after, past = before ++ x :: after ∧ Offends x ∧ (∀ y ∈ before, ¬ LetsGo y) ∧
        Blames before x after fault) ∧
    (∀ error messages, w.scheduler.outcome? f = some (.fault (.console error messages)) →
      ∃ before w₁ m during w₂ after,
        past = before ++ (w₁, .told (.console m)) :: (during ++ (w₂, .expired) :: after) ∧
        Offends (w₁, .told (.console m)) ∧ (∀ y ∈ before, ¬ Offends y ∧ ¬ LetsGo y) ∧
        (∀ y ∈ during, y.2 ≠ .expired) ∧ error = (m.type == "error") ∧
        messages = m :: messagesOf during) := by
  obtain ⟨hb, hstanding⟩ := watches_standing h₀ h
  refine ⟨?_, ?_, ?_, ?_⟩
  · intro later w' o ho hlater
    exact (hb.settled_watches ho hlater).2
  · rintro before x after rfl hoffends hbefore
    rcases hstanding.of_offence hoffends hbefore with ⟨fault, hfault⟩ | ⟨hopen, hbursts⟩
    · exact ⟨by simp [hfault], fun _ => ⟨fault, hfault⟩⟩
    · exact ⟨by simp [hopen], fun hnil => absurd hnil hbursts⟩
  · intro fault hfault
    exact hstanding.of_fault hfault
  · intro error messages hfault
    obtain ⟨before, x, after, rfl, hoffends, hbefore, hblames⟩ := hstanding.of_fault hfault
    obtain ⟨w₁, m, during, w₂, rest, rfl, hquiet, rfl, hduring, herror, hmessages⟩ :=
      hblames.of_console
    exact ⟨before, w₁, m, during, w₂, rest, rfl, hoffends,
      fun y hy => ⟨hquiet y hy, hbefore y hy⟩, hduring, herror, hmessages⟩

/-- The monitor begins to listen when the page is opened. -/
theorem attached_openPage (rest : List Deed) (hmonitor : w.monitor = .start) (hb : w.Bound f)
    (hopen : w.scheduler.outcome? f = none) (hbursts : w.bursts = []) :
    ((Move.openPage rest).run w).2.Attached f := by
  have hworld : ((Move.openPage rest).run w).2 =
      { w with monitor := { Monitor.start with attached := true } }.listenMonitor := by
    rw [← hmonitor]
    unfold Move.openPage
    cases hbefore : w.session.beforeLoad <;>
      simp [hbefore, hmonitor, Monitor.attach, Monitor.start, get, getThe, MonadStateOf.get,
        StateT.get, set, StateT.set, StateT.run, bind, StateT.bind, pure, StateT.pure]
  rw [hworld]
  exact ⟨rfl, hb.verdict, hb.born, hopen, hbursts⟩

/-- A close that comes during a burst is too early: the burst fails the monitor with both messages. -/
theorem verdict_of_burst : ∃ w₀ w past, w₀.Attached 0 ∧ Watches w₀ past w ∧
    past.map Prod.snd = [.told (.console ⟨"error", "boom"⟩), .closed,
      .told (.console ⟨"log", "after"⟩), .expired] ∧
    w.scheduler.outcome? 0 =
      some (.fault (.console true [⟨"error", "boom"⟩, ⟨"log", "after"⟩])) ∧
    ∃ before w₁ m during w₂ after,
      past = before ++ (w₁, .told (.console m)) :: (during ++ (w₂, .expired) :: after) ∧
      [⟨"error", "boom"⟩, ⟨"log", "after"⟩] = m :: messagesOf during := by
  let w₀ : World := ((Move.openPage []).run { start default default with
    verdict := some 0, scheduler := (Scheduler.empty.newFuture .signal).2 }).2
  let w₁ : World := ((Engine.deliver (.console ⟨"error", "boom"⟩) .monitor).exec w₀).2
  let w₂ : World := w₁.tellMonitor .close
  let w₃ : World := ((Engine.deliver (.console ⟨"log", "after"⟩) .monitor).exec w₂).2
  let s : Scheduler (List Frame) Job := { w₃.scheduler with timers := [] }
  have h₀ : w₀.Attached 0 := attached_openPage [] rfl ⟨rfl, by decide⟩ rfl rfl
  have htakes : w₃.scheduler.Takes (.job (.expire true)) s := ⟨.refl _, rfl, rfl⟩
  have hboom : w₀.Watch (.told (.console ⟨"error", "boom"⟩)) w₁ := .told rfl
  have hafter : w₂.Watch (.told (.console ⟨"log", "after"⟩)) w₃ := .told rfl
  have h₁ : Watches w₀ _ w₁ := .snoc .nil hboom
  have h₂ : Watches w₀ _ w₂ := h₁.snoc .closed
  have h₃ : Watches w₀ _ w₃ := h₂.snoc hafter
  have hpast := h₃.snoc (.expired htakes)
  have hfault : (({ w₃ with scheduler := s } : World).tellMonitor
      (.expired true)).scheduler.outcome? 0 =
        some (.fault (.console true [⟨"error", "boom"⟩, ⟨"log", "after"⟩])) := rfl
  obtain ⟨before, w₁, m, during, w₂, after, hcut, -, -, -, -, hmessages⟩ :=
    (verdict_of_watches h₀ hpast).2.2.2 _ _ hfault
  exact ⟨_, _, _, h₀, hpast, rfl, hfault, before, w₁, m, during, w₂, after, hcut, hmessages⟩

end World

end HotSpec
