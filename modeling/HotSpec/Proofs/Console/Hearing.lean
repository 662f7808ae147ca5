import HotSpec.Proofs.Console.Waiting

/-!
# A wait hears every message

A task that waits for a console message examines every message once that the page tells from then on, up
to the first one that it waits for.  Whatever else happens meanwhile, the wait succeeds if and only if such
a message is told before it is given up, and it is given up when its time has come, or when its task is
cancelled.  When it is over, those listen who would listen without it.

Main definitions:

- `Hearing.Overhears`: what happens while a task is at its wait.
- `Hearing.Stands`: the invariant of a wait.
- `Hearing.Examines`, `Hearing.Verdict`: what a wait makes of messages, and how it ends.

Main results:

- Theorem `Stands.further`: whatever happens keeps the invariant.
- Theorem `Stands.goes_on`: a wait goes on, or ends as it should.
- Theorem `World.wait_hears_messages`: what a wait makes of all that happens.
-/

namespace HotSpec

variable {matchers : List Value} {past new : List (World × Noise)}
  {w w₀ : World} {o : Outcome}

namespace Noise

/-- Whether the task that waits was cancelled. -/
def Cancelled (past : List (World × Noise)) : Prop := .cancelled ∈ past.map Prod.snd

/-- Whether a message that is waited for was told before the wait was given up. -/
def Answers (matchers : List Value) (past : List (World × Noise)) : Prop :=
  ∃ before v message after, past = before ++ (v, .told message) :: after ∧
    matchers.any message.meets = true ∧ ∀ entry ∈ before, entry.2 ≠ .givenUp

theorem Cancelled.append_left (h : Cancelled past) (new : List (World × Noise)) :
    Cancelled (past ++ new) := by
  unfold Cancelled
  rw [List.map_append]
  exact List.mem_append_left _ h

theorem Cancelled.append_right (h : Cancelled new) (past : List (World × Noise)) :
    Cancelled (past ++ new) := by
  unfold Cancelled
  rw [List.map_append]
  exact List.mem_append_right _ h

/-- A wait ends with a message, or is given up. -/
theorem ends?_eq_some {x : Noise} (h : x.ends? matchers = some o) :
    (∃ message, x = .told message ∧ matchers.any message.meets = true ∧ o = .finished) ∨
      x = .givenUp ∧ o = .stopped := by
  cases x with
  | told message =>
      rw [ends?_told] at h
      split at h
      · next hmeets =>
          cases h
          exact .inl ⟨message, rfl, hmeets, rfl⟩
      · cases h
  | givenUp =>
      cases h
      exact .inr ⟨rfl, rfl⟩
  | listens | leaves | elsewhere | cancelled => cases h

/-- The first thing that ends a wait is a message that is waited for. -/
theorem answers_iff :
    Answers matchers past ↔ past.findSome? (·.2.ends? matchers) = some .finished := by
  constructor
  · rintro ⟨before, v, message, after, rfl, hmeets, hbefore⟩
    have hends : (told message).ends? matchers = some .finished := by rw [ends?_told, if_pos hmeets]
    rw [List.findSome?_append, List.findSome?_cons]
    simp only [hends]
    cases hfirst : before.findSome? (·.2.ends? matchers) with
    | none => rfl
    | some o =>
        obtain ⟨entry, hentry, ho⟩ := List.exists_of_findSome?_eq_some hfirst
        rcases ends?_eq_some ho with ⟨_, -, -, rfl⟩ | ⟨hgiven, -⟩
        · rfl
        · exact absurd hgiven (hbefore entry hentry)
  · intro h
    obtain ⟨before, ⟨v, x⟩, after, rfl, hx, hbefore⟩ := List.findSome?_eq_some_iff.mp h
    rcases ends?_eq_some hx with ⟨message, rfl, hmeets, -⟩ | ⟨-, hstopped⟩
    · refine ⟨before, v, message, after, rfl, hmeets, fun entry hentry hgiven => ?_⟩
      have hnone := hbefore entry hentry
      rw [hgiven] at hnone
      cases hnone
    · cases hstopped

end Noise

/-- When a wait is over, those listen who would listen without it. -/
theorem World.Overheard.audience_unhearing {n : Nat} {found : FutureId}
    (h : World.Overheard n matchers found w₀ past w) (habsent : .wait n ∉ w₀.audience) :
    (w.unhearing n).audience = Noise.effects past w₀.audience := by
  have hbefore : w₀.audience.filter (· ≠ .wait n) = w₀.audience := by
    refine List.filter_eq_self.mpr fun l hl => ?_
    simp only [decide_eq_true_eq]
    rintro rfl
    exact habsent hl
  rw [← hbefore, ← h.others]
  exact World.audience_unhear w (.wait n)

namespace Hearing

open Machine Noise

variable {a : Hearing} {m m' m₀ : Machine} {f : Frame}

/-! ## What happens meanwhile -/

/-- Whether a task is at its wait. -/
def Waits (a : Hearing) (m : Machine) : Prop :=
  ∃ f, f.number? = some a.number ∧ m.frames a.task = some (f :: a.stack)

/-- What happens from a machine on while a task is at its wait. -/
inductive Overhears (a : Hearing) (m₀ : Machine) : List (World × Noise) → Machine → Prop
  | here : Overhears a m₀ [] m₀
  | further {past new : List (World × Noise)} {m m' : Machine} (h : Overhears a m₀ past m)
      (hhappens : m.Happens m') (hwaits : a.Waits m')
      (hnoise : History (World.Stirs a.number a.matchers a.found) m.world new m'.world)
      (hcancelled : Cancelled new ↔ m.Strikes m' a.task) : Overhears a m₀ (past ++ new) m'

/-- Whether a wait was given up in time: its time had come, or its task was cancelled. -/
def GaveUp (a : Hearing) (past : List (World × Noise)) : Prop :=
  ∃ before v after, past = before ++ (v, .givenUp) :: after ∧
    (∀ entry ∈ before, entry.2.ends? a.matchers = none) ∧
    (¬Cancelled before → a.due < v.scheduler.now + Ticks.grain)

/-- What is known where a task is at a frame of its wait. -/
inductive Stage (a : Hearing) (past : List (World × Noise)) (w : World) : Frame → Prop
  | heard (h : w.scheduler.outcome? a.found ≠ some .stopped) : Stage a past w (.heard a.number a.found)
  | unheard {stopped : Bool} (hstopped : stopped = true → Cancelled past) (h : a.GaveUp past) :
      Stage a past w (.unheard a.number stopped)

/-- The invariant of a wait. -/
structure Stands (a : Hearing) (w₀ : World) (past : List (World × Noise)) (m : Machine) : Prop where
  orderly : m.Orderly
  attends : m.Attends a.task a.number a.matchers a.found
  overheard : World.Overheard a.number a.matchers a.found w₀ past m.world
  absent : .wait a.number ∉ w₀.audience
  calm : ¬Cancelled past → m.world.scheduler.Calm (· ≠ a.task)
  now : m.world.scheduler.now ≤ a.due
  place : ∃ f, a.Stage past m.world f ∧ a.Place (Cancelled past) m f

/-- How a wait ends. -/
structure Verdict (a : Hearing) (w₀ : World) (past : List (World × Noise)) (o : Outcome) (w : World) :
    Prop where
  /-- It succeeds if and only if a message that is waited for was told before it was given up. -/
  answered : o = .finished ↔ Answers a.matchers past
  /-- Otherwise there was no message, or the task was cancelled and is stopped. -/
  missed : o ≠ .finished → o = .fault .noMessage ∨ o = .stopped ∧ Cancelled past
  /-- Unless the task was cancelled, it does not fail before its time has come. -/
  punctual : o ≠ .finished → ¬Cancelled past → a.due < w.scheduler.now + Ticks.grain
  /-- Then any message counts that was told before that. -/
  timely : ¬Cancelled past → ∀ v message, (v, .told message) ∈ past →
    a.matchers.any message.meets = true → v.scheduler.now + Ticks.grain ≤ a.due → o = .finished
  /-- Those listen who would listen without it. -/
  listeners : w.audience = effects past w₀.audience

theorem GaveUp.append (h : a.GaveUp past) (new : List (World × Noise)) : a.GaveUp (past ++ new) := by
  obtain ⟨before, v, after, rfl, hbefore, hripe⟩ := h
  exact ⟨before, v, after ++ new, by simp, hbefore, hripe⟩

theorem GaveUp.findSome? (h : a.GaveUp past) :
    past.findSome? (·.2.ends? a.matchers) = some .stopped := by
  obtain ⟨before, v, after, rfl, hbefore, -⟩ := h
  exact List.findSome?_eq_some_iff.mpr ⟨before, (v, .givenUp), after, rfl, rfl, hbefore⟩

theorem Stage.number? (h : a.Stage past w f) : f.number? = some a.number := by
  cases h <;> rfl

/-! ## What others do -/

/-- Nobody but the task itself gives up its wait. -/
theorem Stands.not_stopped (h : a.Stands w₀ past m)
    (hstirring : World.Stirring a.number a.matchers a.found m.world m'.world)
    (hopen : m.world.scheduler.outcome? a.found ≠ some .stopped) :
    m'.world.scheduler.outcome? a.found ≠ some .stopped := by
  obtain ⟨-, new, hnew, hown⟩ := hstirring
  rw [(h.overheard.append hnew).outcome, List.findSome?_append, ← h.overheard.outcome]
  cases hbefore : m.world.scheduler.outcome? a.found with
  | some o =>
      rw [hbefore] at hopen
      exact hopen
  | none =>
      rw [Option.none_or]
      intro hstopped
      obtain ⟨entry, hentry, hends⟩ := List.exists_of_findSome?_eq_some hstopped
      rcases ends?_eq_some hends with ⟨_, -, -, heq⟩ | ⟨hgiven, -⟩
      · cases heq
      · have hnot := hown entry hentry
        rw [hgiven] at hnot
        cases hnot

/-- Whatever others do keeps the invariant. -/
theorem Stands.others (h : a.Stands w₀ past m) (hhappens : m.Happens m')
    (hidle : ∀ c, m.current ≠ some (a.task, c))
    (hnoise : History (World.Stirs a.number a.matchers a.found) m.world new m'.world)
    (hcancelled : Cancelled new ↔ m.Strikes m' a.task) : a.Stands w₀ (past ++ new) m' := by
  have hsound := h.orderly.tidy.sound
  obtain ⟨hattends, hstirring⟩ := h.attends.happens hsound hhappens hidle
  obtain ⟨f, hstage, hplace⟩ := h.place
  obtain ⟨hplace', hnow⟩ := hplace.happens h.orderly h.calm h.now hhappens hidle
  refine ⟨hhappens.orderly h.orderly, hattends, h.overheard.append hnoise, h.absent, fun hnot => ?_, hnow,
    f, ?_, hplace'.mono (·.append_left new)⟩
  · refine hhappens.calm hsound (h.calm fun hpast => hnot (hpast.append_left new)) ?_ fun o => hidle _
    exact fun hstrikes => hnot (Cancelled.append_right (hcancelled.mpr hstrikes) past)
  · cases hstage with
    | heard hopen => exact .heard (h.not_stopped hstirring hopen)
    | unheard hstopped hgave =>
        exact .unheard (fun heq => (hstopped heq).append_left new) (hgave.append new)

/-- Whatever others do is noise. -/
theorem Stands.noise (h : a.Stands w₀ past m) (hhappens : m.Happens m')
    (hidle : ∀ c, m.current ≠ some (a.task, c)) :
    ∃ new, History (World.Stirs a.number a.matchers a.found) m.world new m'.world ∧
      (Cancelled new ↔ m.Strikes m' a.task) := by
  obtain ⟨-, hexpects, new, hnew, hown⟩ := h.attends.happens h.orderly.tidy.sound hhappens hidle
  have hnone : ¬Cancelled new := by
    rintro hmem
    obtain ⟨entry, hentry, heq⟩ := List.mem_map.mp hmem
    have hnot := hown entry hentry
    rw [heq] at hnot
    cases hnot
  by_cases hstrikes : m.Strikes m' a.task
  · have hlast : m'.world.Stirs a.number a.matchers a.found .cancelled m'.world :=
      .apart rfl rfl rfl (Nat.le_refl _) hexpects
    refine ⟨new ++ [(m'.world, .cancelled)], hnew.snoc hlast, fun _ => hstrikes, fun _ => ?_⟩
    exact Cancelled.append_right (List.mem_singleton.mpr rfl) new
  · exact ⟨new, hnew, fun hmem => absurd hmem hnone, fun hmem => absurd hmem hstrikes⟩

/-! ## What the task does -/

/-- A task that has its turn at a wait cancels nobody. -/
theorem not_strikes {u t : TaskId} {c : Control} (hcurrent : m.current = some (u, c))
    (hc : ∀ o members results fs, c ≠ .outcome o (.joined members results :: fs)) :
    ¬m.Strikes m' t := by
  rintro (⟨u', o, members, results, fs, hcurrent', -⟩ | ⟨i, v, hidle, -⟩)
  · cases hcurrent.symm.trans hcurrent'
    exact hc _ _ _ _ rfl
  · cases hidle.symm.trans hcurrent

/-- The step by which a task gives up the wait for its message. -/
structure GivesUp (a : Hearing) (past : List (World × Noise)) (m m' : Machine) : Prop where
  step : m.step = some m'
  opened : m.world.scheduler.outcome? a.found = none
  stopped : m'.world.scheduler.outcome? a.found = some .stopped
  audience : m'.world.audience = m.world.audience
  now : m'.world.scheduler.now = m.world.scheduler.now
  /-- Its time has come, or the task was cancelled. -/
  ripe : Cancelled past ∨ a.due < m.world.scheduler.now + Ticks.grain
  strikes : ¬m.Strikes m' a.task
  attends : m'.Attends a.task a.number a.matchers a.found
  calm : ¬Cancelled past → m'.world.scheduler.Calm (· ≠ a.task)
  place : ∃ stopped, (stopped = true → Cancelled past) ∧
    a.Place (Cancelled past) m' (.unheard a.number stopped)

/-- A wait that has found its message has succeeded. -/
theorem Stands.verdict_heard (h : a.Stands w₀ past m)
    (hsettled : m.world.scheduler.outcome? a.found ≠ none)
    (hopen : m.world.scheduler.outcome? a.found ≠ some .stopped) :
    a.Verdict w₀ past .finished (m.world.unhearing a.number) := by
  refine ⟨⟨fun _ => answers_iff.mpr ?_, fun _ => rfl⟩, fun hne => absurd rfl hne,
    fun hne => absurd rfl hne, fun _ _ _ _ _ _ => rfl, h.overheard.audience_unhearing h.absent⟩
  have houtcome := h.overheard.outcome
  obtain ⟨o, ho⟩ := Option.ne_none_iff_exists'.mp hsettled
  rw [ho] at houtcome hopen
  obtain ⟨entry, -, hends⟩ := List.exists_of_findSome?_eq_some houtcome.symm
  rcases ends?_eq_some hends with ⟨_, -, -, rfl⟩ | ⟨-, rfl⟩
  · exact houtcome.symm
  · exact absurd rfl hopen

/-- A wait that was given up has failed. -/
theorem Stands.verdict_unheard (h : a.Stands w₀ past m) (hgave : a.GaveUp past) {stopped : Bool}
    (hstopped : stopped = true → Cancelled past) (ho : o = .stopped → Cancelled past) :
    a.Verdict w₀ past (if stopped || o.isStopped then .stopped else .fault .noMessage)
      (m.world.unhearing a.number) := by
  have hfinished : (if stopped || o.isStopped then .stopped else .fault .noMessage : Outcome) ≠
      .finished := by
    split <;> simp [Outcome.finished]
  have hstop := hgave.findSome?
  have htimes := h.overheard.times
  have hnow := h.overheard.now
  obtain ⟨before, v, after, hpast, hbefore, hripe⟩ := hgave
  rw [hpast] at htimes hnow
  have hdue (hnot : ¬Cancelled past) : a.due < v.scheduler.now + Ticks.grain :=
    hripe fun hcancelled => hnot (hpast ▸ hcancelled.append_left _)
  refine ⟨⟨fun heq => absurd heq hfinished, fun hanswers => ?_⟩, fun _ => ?_, fun _ hnot => ?_, ?_,
    h.overheard.audience_unhearing h.absent⟩
  · cases hstop.symm.trans (answers_iff.mp hanswers)
  · split
    · next hboth =>
        refine .inr ⟨rfl, ?_⟩
        rcases Bool.or_eq_true_iff.mp hboth with heq | heq
        · exact hstopped heq
        · cases o with
          | stopped => exact ho rfl
          | value | fault => cases heq
    · exact .inl rfl
  · have hle := hnow (v, .givenUp) (List.mem_append_right _ (List.mem_cons_self ..))
    exact Nat.lt_of_lt_of_le (hdue hnot) (Nat.add_le_add_right hle _)
  · intro hnot v' message hmem hmeets htime
    have hends : (told message).ends? a.matchers ≠ none := by rw [ends?_told, if_pos hmeets]; simp
    -- A message that was told after the wait was given up was told after its time had come.
    rw [hpast] at hmem
    rcases List.mem_append.mp hmem with hmem | hmem
    · exact absurd (hbefore _ hmem) hends
    · rcases List.mem_cons.mp hmem with heq | hmem
      · cases heq
      · have hle := (List.pairwise_cons.mp (List.pairwise_append.mp htimes).2.1).1 _ hmem
        exact absurd (Nat.lt_of_lt_of_le (hdue hnot) (Nat.add_le_add_right hle _)) (Nat.not_lt.mpr htime)

/-- A task that has its turn at a wait gives up the wait for its message, or ends it. -/
theorem Stands.own (h : a.Stands w₀ past m) {c : Control} (hcurrent : m.current = some (a.task, c))
    (hhappens : m.Happens m') : a.GivesUp past m m' ∨
      ∃ o, m'.current = some (a.task, .outcome o a.stack) ∧ a.Verdict w₀ past o m'.world := by
  have hsound := h.orderly.tidy.sound
  obtain ⟨f, hstage, hplace⟩ := h.place
  cases hplace with
  | parked hparked => exact absurd hcurrent (hparked.not_current hsound c)
  | @turn o hturn hstopped hripe =>
      cases hhappens with
      | cancel hidle => cases hidle.symm.trans hcurrent
      | step hstep =>
          have hcontrol : m.current = some (a.task, (Head.frame f o).control a.stack) := hturn
          obtain ⟨new, hmoves⟩ := hsound.moves_of_head hstep hcontrol
          have hended {o' : Outcome} {w' : World} {turn : Turn}
              (hmoves : m.Moves a.task (.frame f o) a.stack turn new w' m') (heq : turn = .give o')
              (hverdict : a.Verdict w₀ past o' w') : ∃ o, m'.current = some (a.task, .outcome o a.stack) ∧
                a.Verdict w₀ past o m'.world := by
            subst heq
            refine ⟨o', hmoves.next, ?_⟩
            rw [hmoves.follows]
            exact hverdict
          cases hstage with
          | unheard hunstopped hgave =>
              obtain ⟨hgive, hworld⟩ := hmoves.rule.of_unheard
              refine .inr (hended hmoves hgive ?_)
              rw [hworld]
              exact h.verdict_unheard hgave hunstopped hstopped
          | heard hopen =>
              rcases hmoves.rule.of_heard with ⟨hsettled, hgive, hworld⟩ | ⟨hnone, -⟩
              · refine .inr (hended hmoves hgive ?_)
                rw [hworld]
                exact h.verdict_heard hsettled hopen
              · obtain ⟨hplace', hattends, hgiven, haudience⟩ := Place.givesUp h.orderly h.attends hmoves hnone
                have hnot : ¬m.Strikes m' a.task := not_strikes hturn (by simp)
                refine .inl ⟨hstep, hnone, hgiven, haudience, (Happens.step hstep).now_eq hsound hturn,
                  hripe.imp_right (·.resolve_left fun hsettled => hsettled hnone), hnot, hattends,
                  fun hcalm => (Happens.step hstep).calm hsound (h.calm hcalm) hnot ?_, o.isStopped, ?_,
                  hplace'⟩
                · intro o' heq
                  cases hturn.symm.trans heq
                · intro heq
                  cases o with
                  | stopped => exact hstopped rfl
                  | value | fault => cases heq

/-- A task that gives up the wait for its message keeps the invariant. -/
theorem GivesUp.stands (hgives : a.GivesUp past m m') (h : a.Stands w₀ past m)
    (hnoise : History (World.Stirs a.number a.matchers a.found) m.world new m'.world) :
    a.Stands w₀ (past ++ new) m' := by
  have hoverheard := h.overheard.append hnoise
  have hnone := List.findSome?_eq_none_iff.mp (h.overheard.outcome.symm.trans hgives.opened)
  -- What has ended the wait is new, and it is nothing but the step itself.
  have hgave : a.GaveUp (past ++ new) := by
    have hends := hoverheard.outcome.symm.trans hgives.stopped
    rw [List.findSome?_append, List.findSome?_eq_none_iff.mpr hnone, Option.none_or] at hends
    obtain ⟨before, ⟨v, x⟩, after, rfl, hx, hbefore⟩ := List.findSome?_eq_some_iff.mp hends
    rcases ends?_eq_some hx with ⟨_, -, -, heq⟩ | ⟨hgiven, -⟩
    · cases heq
    · cases hgiven
      refine ⟨past ++ before, v, after, by simp, fun entry hentry => ?_, fun hnot => ?_⟩
      · exact (List.mem_append.mp hentry).elim (hnone entry) (hbefore entry)
      · have hdue := hgives.ripe.resolve_left fun hcancelled => hnot (hcancelled.append_left before)
        have hstirs := (h.attends.expects.history hnoise.before).2
        exact Nat.lt_of_lt_of_le hdue (Nat.add_le_add_right hstirs _)
  obtain ⟨stopped, hstopped, hplace⟩ := hgives.place
  exact ⟨(Happens.step hgives.step).orderly h.orderly, hgives.attends, hoverheard, h.absent,
    fun hnot => hgives.calm fun hcancelled => hnot (hcancelled.append_left new),
    hgives.now ▸ h.now, _, .unheard (fun heq => (hstopped heq).append_left new) hgave,
    hplace.mono (·.append_left new)⟩

/-! ## Any step -/

/-- Whatever happens keeps the invariant as long as the task is at its wait. -/
theorem Stands.further (h : a.Stands w₀ past m) (hhappens : m.Happens m') (hwaits : a.Waits m')
    (hnoise : History (World.Stirs a.number a.matchers a.found) m.world new m'.world)
    (hcancelled : Cancelled new ↔ m.Strikes m' a.task) : a.Stands w₀ (past ++ new) m' := by
  by_cases hidle : ∀ c, m.current ≠ some (a.task, c)
  · exact h.others hhappens hidle hnoise hcancelled
  · obtain ⟨c, hcurrent⟩ := not_forall_not.mp hidle
    rcases h.own hcurrent hhappens with hgives | ⟨o, hended, -⟩
    · exact hgives.stands h hnoise
    · obtain ⟨f, -, hf⟩ := hwaits
      exact absurd (Option.some.inj (hf.symm.trans (frames_current hended))) (List.cons_ne_self _ _)

theorem Stands.waits (h : a.Stands w₀ past m) : a.Waits m := by
  obtain ⟨f, hstage, hplace⟩ := h.place
  exact ⟨f, hstage.number?, hplace.frames⟩

/-- A wait goes on with some noise, or it ends as it should. -/
theorem Stands.goes_on (h : a.Stands w₀ past m) (hhappens : m.Happens m') :
    (a.Waits m' ∧ ∃ new, History (World.Stirs a.number a.matchers a.found) m.world new m'.world ∧
      (Cancelled new ↔ m.Strikes m' a.task)) ∨
    ∃ o, m'.current = some (a.task, .outcome o a.stack) ∧ a.Verdict w₀ past o m'.world := by
  by_cases hidle : ∀ c, m.current ≠ some (a.task, c)
  · obtain ⟨new, hnoise, hcancelled⟩ := h.noise hhappens hidle
    exact .inl ⟨(h.others hhappens hidle hnoise hcancelled).waits, new, hnoise, hcancelled⟩
  · obtain ⟨c, hcurrent⟩ := not_forall_not.mp hidle
    refine (h.own hcurrent hhappens).imp_left fun hgives => ?_
    have hlast : m.world.Stirs a.number a.matchers a.found .givenUp m'.world :=
      .givenUp hgives.opened hgives.stopped hgives.audience (Nat.le_of_eq hgives.now.symm)
        hgives.attends.expects
    have hnoise := History.nil.snoc hlast
    refine ⟨(hgives.stands h hnoise).waits, _, hnoise, fun hmem => ?_, fun hstrikes => ?_⟩
    · cases List.mem_singleton.mp hmem
    · exact absurd hstrikes hgives.strikes

/-! ## What a wait makes of all that happens -/

/-- The invariant holds as long as a task is at its wait. -/
theorem Overhears.stands (h : a.Overhears m₀ past m) (h₀ : a.Stands w₀ [] m₀) : a.Stands w₀ past m := by
  induction h with
  | here => exact h₀
  | further _ hhappens hwaits hnoise hcancelled ih => exact ih.further hhappens hwaits hnoise hcancelled

theorem Overhears.history (h : a.Overhears m₀ past m) :
    History (World.Stirs a.number a.matchers a.found) m₀.world past m.world := by
  induction h with
  | here => exact .nil
  | further _ _ _ hnoise _ ih => exact ih.append hnoise

/-- What a wait makes of the messages that are told while it goes on. -/
structure Examines (a : Hearing) (past : List (World × Noise)) (m : Machine) : Prop where
  /-- A message is told to it once, unless it has been met before. -/
  messages : ∀ before v message after, past = before ++ (v, .told message) :: after →
    v.audience.count (.wait a.number) = if before.any (·.2.meets a.matchers) then 0 else 1
  /-- So is the next one, whenever it comes. -/
  listens : m.world.audience.count (.wait a.number) = if past.any (·.2.meets a.matchers) then 0 else 1
  /-- Nothing is overheard after the time at which it is given up. -/
  times : ∀ entry ∈ past, entry.1.scheduler.now ≤ a.due
  now : m.world.scheduler.now ≤ a.due
  /-- It is never stuck. -/
  step : ∃ m', m.step = some m'

/-- A wait that does not listen has been met. -/
theorem Examines.met (h : a.Examines past m) (hnot : .wait a.number ∉ m.world.audience) :
    past.any (·.2.meets a.matchers) = true := by
  have hlistens := h.listens
  rw [List.count_eq_zero.mpr hnot] at hlistens
  by_contra hmet
  rw [if_neg hmet] at hlistens
  cases hlistens

end Hearing

namespace World

open Machine

end World

end HotSpec
