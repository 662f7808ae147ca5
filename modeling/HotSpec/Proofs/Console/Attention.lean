import HotSpec.Proofs.Console.Audience
import HotSpec.Proofs.Engine.Prompt

/-!
# Attention to the console

Whatever happens to a machine while a task waits for a console message is noise to the wait: messages
that are told, others who come to listen or leave, and what it does not notice.  Only the task itself
gives the wait up.

Main definitions:

- `Frame.number?`: the wait for a message that a frame belongs to.
- `World.Stirring`: a world to which noise leads.
- `Machine.Attends`: a machine in which only one task knows of a wait.

Main results:

- Theorem `Rule.aside_or_asks`: rules note something, register something, end a wait for a message, or
  ask something of the scheduler.
- Theorem `Attends.happens`: whatever happens but a turn of the task that waits is noise.
-/

namespace HotSpec

/-- The wait for a console message that a frame belongs to. -/
def Frame.number? : Frame → Option Nat
  | .heard n _ | .unheard n _ => some n
  | _ => none

/-- A frame that does not wait for anything neither knows of a future nor belongs to a wait. -/
theorem Frame.foreign_of_plain {f : Frame} (h : f.isPlain = true) (i : FutureId) :
    ¬f.Knows i ∧ f.number? = none := by
  cases f with
  | joined | collected | heard | unheard | raced => cases h
  | _ => exact ⟨id, rfl⟩

/-! ## What rules are made of -/

namespace World

/-- Two worlds that differ in what is known and recorded, but not in who listens or waits. -/
structure Noted (w w' : World) : Prop where
  site : w'.site = w.site
  scheduler : w'.scheduler = w.scheduler
  waits : w'.waits = w.waits
  verdict : w'.verdict = w.verdict
  failSignal : w'.failSignal = w.failSignal

theorem Noted.refl (w : World) : w.Noted w := ⟨rfl, rfl, rfl, rfl, rfl⟩

theorem noted_record (w : World) (e : Event) : w.Noted (w.record e) := ⟨rfl, rfl, rfl, rfl, rfl⟩

theorem noted_setProgress (w : World) (g : Nat) (p : Progress) : w.Noted (w.setProgress g p) := by
  unfold setProgress
  split
  · exact ⟨rfl, rfl, rfl, rfl, rfl⟩
  · exact .refl w

/-- Something is noted, then something is done that may register something, and then something is
noted. -/
def Undertakes (w w' : World) : Prop := ∃ w₁ w₂, w.Noted w₁ ∧ w₁.Sets w₂ ∧ w₂.Noted w'

variable {w w' : World}

theorem Noted.undertakes (h : w.Noted w') : w.Undertakes w' := ⟨w', w', h, .refl w', .refl w'⟩

theorem Acts.undertakes (h : w.Acts w') : w.Undertakes w' := ⟨w, w', .refl w, h.sets, .refl w'⟩

/-- A script that is resumed acts, and stands somewhere else afterwards. -/
theorem Advances.undertakes {g : Nat} {adv : Advance} (h : w.Advances g adv w') : w.Undertakes w' := by
  cases h with
  | stays h => exact h.undertakes
  | @ends w₁ _ h => exact ⟨w, w₁, .refl w, h.sets, noted_setProgress _ _ _⟩
  | @yields w₁ p y h =>
      have hnoted := noted_setProgress w₁ g p
      exact ⟨w, w₁, .refl w, h.sets, hnoted.site, hnoted.scheduler, hnoted.waits, hnoted.verdict,
        hnoted.failSignal⟩

end World

variable {head : Head} {w w' : World} {turn : Turn}

/-- Rules note something, register something, end a wait for a message, or ask something of the
scheduler. -/
theorem Rule.aside_or_asks (h : Rule head w turn w') : w.Undertakes w' ∨
    (∃ n, head.first.number? = some n ∧ w' = w.unhearing n) ∨ Asks head w turn w' := by
  have hnoted {session : Session} {history : List Event} :
      w.Undertakes { w with session, history } := World.Noted.undertakes ⟨rfl, rfl, rfl, rfl, rfl⟩
  cases h with
  | asks h => exact .inr (.inr h)
  | met => exact .inr (.inl ⟨_, rfl, rfl⟩)
  | unheard => exact .inr (.inl ⟨_, rfl, rfl⟩)
  | reply r hhead h => exact .inl h.undertakes
  | pass hf h => exact .inl h.undertakes
  | call hcall h => exact .inl h.undertakes
  | load h => exact .inl h.undertakes
  | resume h => exact .inl h.undertakes
  | answered r hp hy hc h =>
      exact .inl ⟨_, w', World.noted_record w _, World.sets_of_answers h, .refl w'⟩
  | commanded hp hy hcall h => exact .inl ⟨_, w', World.noted_record w _, h.sets, .refl w'⟩
  | @raced o => cases o <;> exact .inl hnoted
  | pause | joined | collected | drained => exact .inl (World.Noted.refl w).undertakes
  | discarded | ready | checked | unchecked | popped | writing | written | verifyHook | verify
  | assertedLast | assertedNext | assertedNot | changed => exact .inl hnoted

/-! ## Noise -/

/-- Whether something that happens is up to the task that waits. -/
def Noise.isOwn : Noise → Bool
  | .cancelled | .givenUp => true
  | _ => false

/-- What happens in turn happens one after the other. -/
theorem History.append {κ : Type} {happens : World → κ → World → Prop} {w₀ w w' : World}
    {past later : List (World × κ)} (h : History happens w₀ past w) (h' : History happens w later w') :
    History happens w₀ (past ++ later) w' := by
  induction h' with
  | nil => rwa [List.append_nil]
  | snoc _ hlast ih =>
      rw [← List.append_assoc]
      exact ih.snoc hlast

namespace World

variable {n : Nat} {matchers : List Value} {found : FutureId} {w₁ w₂ : World}

/-- A world to which noise leads that is not up to the task that waits. -/
def Stirring (n : Nat) (matchers : List Value) (found : FutureId) (w w' : World) : Prop :=
  w'.Expects n matchers found ∧ ∃ new, History (Stirs n matchers found) w new w' ∧
    ∀ entry ∈ new, entry.2.isOwn = false

theorem Stirring.refl (h : w.Expects n matchers found) : Stirring n matchers found w w :=
  ⟨h, [], .nil, by simp⟩

theorem Stirring.trans (h₁ : Stirring n matchers found w w₁) (h₂ : Stirring n matchers found w₁ w₂) :
    Stirring n matchers found w w₂ := by
  obtain ⟨-, new₁, hhistory₁, hnew₁⟩ := h₁
  obtain ⟨hexpects, new₂, hhistory₂, hnew₂⟩ := h₂
  refine ⟨hexpects, new₁ ++ new₂, hhistory₁.append hhistory₂, fun entry hentry => ?_⟩
  exact (List.mem_append.mp hentry).elim (hnew₁ entry) (hnew₂ entry)

/-- One noise. -/
theorem Stirs.stirring {x : Noise} (h : w.Stirs n matchers found x w') (hx : x.isOwn = false)
    (hexpects : w'.Expects n matchers found) : Stirring n matchers found w w' :=
  ⟨hexpects, _, History.nil.snoc h, by simpa using hx⟩

/-- Something that a wait does not notice. -/
theorem stirring_elsewhere (haudience : w'.audience = w.audience)
    (houtcome : w'.scheduler.outcome? found = w.scheduler.outcome? found)
    (hnow : w.scheduler.now ≤ w'.scheduler.now) (hexpects : w'.Expects n matchers found) :
    Stirring n matchers found w w' :=
  Stirs.stirring (.apart (x := .elsewhere) rfl haudience houtcome hnow hexpects) rfl hexpects

theorem Noted.stirring (h : w.Noted w') (hw : w.Expects n matchers found) :
    Stirring n matchers found w w' := by
  have haudience : w'.audience = w.audience := congrArg (·.listenersOf "console") h.site
  have hextends : w.scheduler.Extends 0 w'.scheduler := by
    rw [h.scheduler]
    exact (Scheduler.Grows.refl _).toExtends
  have hsignals := hw.signals.mono hextends h.verdict h.failSignal h.waits
  refine stirring_elsewhere haudience (by rw [h.scheduler]) (by rw [h.scheduler]) ⟨hsignals, ?_, ?_, ?_, ?_, ?_⟩
  · rw [h.waits]
    exact hw.wait
  · rw [h.waits]
    exact hw.sole
  · rw [h.verdict]
    exact hw.verdict
  · rw [h.failSignal]
    exact hw.failSignal
  · rw [haudience]
    exact hw.loads

/-- One thing that is done at once. -/
theorem Doing.stirring (h : w.Doing w') (hw : w.Expects n matchers found) :
    Stirring n matchers found w w' := by
  cases h with
  | tell message =>
      exact Stirs.stirring (.told message) rfl (Engine.exec_emit_spec message hw).2.1
  | act hact haside =>
      have hquiet := hact.steady.toQuiet
      have hapart {x : Noise} (hx : x.isApart n = true) (hown : x.isOwn = false)
          (haudience : w'.audience = x.effect w w.audience)
          (hloads : .loads ∉ x.effect w w.audience) : Stirring n matchers found w w' := by
        have hexpects := hw.quiet hquiet (haudience ▸ hloads)
        refine Stirs.stirring (.apart hx haudience ?_ ?_ hexpects) hown hexpects
        · exact haside.outcome? found hw.verdict hw.failSignal
        · exact Nat.le_of_eq (hquiet.now hw.signals).symm
      rcases haside.audience with haudience | haudience | haudience | haudience
      · exact hapart (x := .elsewhere) rfl rfl haudience hw.loads
      · refine hapart (x := .listens .monitor) rfl rfl haudience ?_
        simpa [Noise.effect] using hw.loads
      · refine hapart (x := .leaves .monitor) rfl rfl haudience ?_
        exact fun hmem => hw.loads (List.mem_of_mem_filter hmem)
      · refine hapart (x := .leaves (.wait w.waits.length)) ?_ rfl haudience ?_
        · simpa [Noise.isApart] using Nat.ne_of_gt hw.lt_waits
        · exact fun hmem => hw.loads (List.mem_of_mem_filter hmem)

/-- What a command does that registers something. -/
theorem Sets.stirring (h : w.Sets w') (hw : w.Expects n matchers found) :
    Stirring n matchers found w w' := by
  induction h with
  | refl => exact .refl hw
  | tail _ hlast ih =>
      refine ih.trans ?_
      cases hlast with
      | act h => exact h.stirring ih.1
      | set f h => exact Noted.stirring ⟨rfl, rfl, rfl, rfl, rfl⟩ ih.1

theorem Undertakes.stirring (h : w.Undertakes w') (hw : w.Expects n matchers found) :
    Stirring n matchers found w w' := by
  obtain ⟨w₁, w₂, hbefore, hsets, hafter⟩ := h
  have h₁ := hbefore.stirring hw
  have h₂ := h₁.trans (hsets.stirring h₁.1)
  exact h₂.trans (hafter.stirring h₂.1)

/-- Another wait ends. -/
theorem stirring_unhearing {k : Nat} (hk : k ≠ n) (hw : w.Expects n matchers found) :
    Stirring n matchers found w (w.unhearing k) := by
  have haudience := audience_unhear w (.wait k)
  have hexpects : (w.unhearing k).Expects n matchers found := by
    refine hw.quiet (steady_unhearing w k).toQuiet ?_
    change .loads ∉ (w.withSite (·.unlisten Move.consoleEvent (.wait k))).audience
    rw [haudience]
    exact fun hmem => hw.loads (List.mem_of_mem_filter hmem)
  exact Stirs.stirring (.apart (x := .leaves (.wait k)) (by simpa [Noise.isApart] using hk) haudience rfl
    (Nat.le_refl _) hexpects) rfl hexpects

theorem Expects.scheduler {more : Nat} {s : Scheduler (List Frame) Job} (hw : w.Expects n matchers found)
    (hextends : w.scheduler.Extends more s) : { w with scheduler := s }.Expects n matchers found :=
  ⟨hw.signals.mono hextends rfl rfl rfl, hw.wait, hw.sole, hw.verdict, hw.failSignal, hw.loads⟩

/-- Nothing but the scheduler changes. -/
theorem stirring_scheduler {more : Nat} {s : Scheduler (List Frame) Job} (hw : w.Expects n matchers found)
    (hextends : w.scheduler.Extends more s) (houtcome : s.outcome? found = w.scheduler.outcome? found)
    (hnow : w.scheduler.now ≤ s.now) : Stirring n matchers found w { w with scheduler := s } :=
  stirring_elsewhere rfl houtcome hnow (hw.scheduler hextends)

theorem Expects.kind (hw : w.Expects n matchers found) : w.scheduler.kind found = .signal :=
  (hw.signals.waits _ (List.mem_of_getElem? hw.wait)).1

/-- Nobody waits for the end of a wait but by its release. -/
theorem Expects.reached (hw : w.Expects n matchers found) {busy : Option TaskId}
    (hs : w.scheduler.Threads busy)
    (hmembers : ∀ g, ∀ i ∈ (w.scheduler.kind g).members, i ≠ found) :
    w.scheduler.Reached fun f _ => f ≠ found := by
  refine ⟨hmembers, ?_⟩
  rintro t f hf rfl
  have hmember := hs.awaited t f hf
  rw [hw.kind] at hmember
  cases hmember

end World

section

variable {n : Nat} {matchers : List Value} {found : FutureId} {t : TaskId}

/-- What a frame asks of the scheduler is noise to a wait that the frame knows nothing of. -/
theorem Asks.stirring (h : Asks head w turn w') (hw : w.Expects n matchers found)
    (hs : w.scheduler.Threads (some t)) (hg : w.scheduler.Groups) (hframe : head.first.Sound w.scheduler)
    (hmembers : ∀ g, ∀ i ∈ (w.scheduler.kind g).members, i ≠ found)
    (hforeign : ¬head.first.Knows found) (hsignals : w'.Signals) :
    World.Stirring n matchers found w w' ∧
      ∀ g, ∀ i ∈ (w'.scheduler.kind g).members, i ≠ found := by
  have hworks : Scheduler.Works (fun f _ => f ≠ found) (fun _ => True) w.scheduler w'.scheduler := by
    refine h.works hs hg hframe (hw.reached hs hmembers) ?_ ?_ ?_
    · rintro i hi rfl
      exact hforeign hi
    · rintro f hf rfl
      exact hf.elim hw.verdict hw.failSignal
    · refine fun f hle _ => ⟨?_, trivial⟩
      rintro rfl
      exact Nat.not_lt.mpr hle hw.lt
  have houtcome := hworks.outcome? (f := found) (by simp)
  have hnow := Nat.le_of_eq hworks.now.symm
  refine ⟨?_, hworks.members hmembers⟩
  have hsame (hsite : w'.site = w.site) (hwaits : w'.waits = w.waits)
      (hverdict : w'.verdict ≠ some found) (hfail : w'.failSignal ≠ some found) :
      World.Stirring n matchers found w w' := by
    have haudience : w'.audience = w.audience := congrArg (·.listenersOf "console") hsite
    refine World.stirring_elsewhere haudience houtcome hnow ⟨hsignals, ?_, ?_, hverdict, hfail, ?_⟩
    · rw [hwaits]
      exact hw.wait
    · rw [hwaits]
      exact hw.sole
    · rw [haudience]
      exact hw.loads
  cases h with
  | sleep | cancelled | heard | opened => exact hsame rfl rfl hw.verdict hw.failSignal
  | together hsubs hrun =>
      have hworld := World.spawnAll_world hrun
      have hverdict := hw.verdict
      have hfail := hw.failSignal
      refine hsame ?_ ?_ ?_ ?_ <;> rw [hworld]
      · rfl
      · rfl
      · exact hverdict
      · exact hfail
  | start =>
      refine hsame rfl rfl ?_ ?_
      · rintro ⟨⟩
        exact Nat.lt_irrefl _ hw.lt
      · rintro ⟨⟩
        have hlt := hw.lt
        rw [World.secondFuture_eq] at hlt
        exact Nat.lt_irrefl _ (Nat.lt_of_succ_lt hlt)
  | @hear timeout matchers' =>
      have haudience : (w.hearing timeout matchers').audience = w.audience ++ [.wait w.waits.length] :=
        World.audience_hear w (.wait w.waits.length)
      have hexpects : (w.hearing timeout matchers').Expects n matchers found := by
        refine ⟨hsignals, ?_, ?_, hw.verdict, hw.failSignal, ?_⟩
        · exact (List.getElem?_append_left hw.lt_waits).trans hw.wait
        · intro k wait hwait hfound
          change (w.waits ++ [⟨matchers', w.scheduler.futures.length⟩])[k]? = some wait at hwait
          by_cases hk : k < w.waits.length
          · rw [List.getElem?_append_left hk] at hwait
            exact hw.sole k wait hwait hfound
          · rw [List.getElem?_append_right (Nat.not_lt.mp hk), List.getElem?_singleton] at hwait
            split at hwait
            · cases hwait
              exact absurd hfound (Nat.ne_of_gt hw.lt)
            · cases hwait
        · rw [haudience]
          simpa using hw.loads
      refine World.Stirs.stirring (.apart (x := .listens (.wait w.waits.length)) ?_ haudience houtcome hnow
        hexpects) rfl hexpects
      simpa [Noise.isApart] using Nat.ne_of_gt hw.lt_waits

/-- The frames that a rule puts in the place of one that knows nothing of a wait know nothing of it. -/
theorem Rule.unaware (h : Rule head w turn w') (hw : w.Expects n matchers found)
    (hs : w.scheduler.Threads (some t)) (hg : w.scheduler.Groups)
    (hhead : ¬head.first.Knows found ∧ head.first.number? ≠ some n) :
    ∀ f ∈ turn.frames, ¬f.Knows found ∧ f.number? ≠ some n := by
  rcases h.quiet_or_asks with ⟨-, -, hplain⟩ | hasks
  · intro f hf
    obtain ⟨hknows, hnumber⟩ := Frame.foreign_of_plain (hplain f hf) found
    exact ⟨hknows, by rw [hnumber]; simp⟩
  · cases hasks with
    | sleep => simp [Turn.frames]
    | start => simp [Turn.frames, Frame.Knows, Frame.number?]
    | cancelled => simp [Turn.frames, Frame.Knows, Frame.number?]
    | @together p subs fs _ w₁ hsubs hrun =>
        obtain ⟨-, -, -, -, hfs⟩ := World.spawnAll_spec p subs hs hg hrun
        have hnot : found ∉ fs := fun hmem => Nat.not_lt.mpr (hfs found hmem).1 hw.lt
        simpa [Turn.frames, Frame.Knows, Frame.number?] using hnot
    | @opened first v =>
        have hnot : found ∉ w.racers := by
          unfold World.racers
          simp only [List.cons_append, List.mem_cons, List.mem_append, Option.mem_toList, not_or]
          exact ⟨Nat.ne_of_lt hw.lt, fun h => hw.verdict h, fun h => hw.failSignal h⟩
        simpa [Turn.frames, Frame.Knows, Frame.number?] using hnot
    | hear =>
        have hfound := Nat.ne_of_lt hw.lt
        have hnumber := Nat.ne_of_gt hw.lt_waits
        simpa [Turn.frames, Frame.Knows, Frame.number?] using ⟨hfound, hnumber⟩
    | heard =>
        have hnumber := hhead.2
        simpa [Turn.frames, Frame.Knows, Frame.number?, Head.first] using hnumber

end

/-! ## Machines -/

namespace Machine

variable {m m' : Machine} {t u : TaskId} {n : Nat} {matchers : List Value} {found : FutureId}
  {stack : List Frame} {new : List (List Frame)}

/-- A machine in which only one task knows of a wait for a console message. -/
structure Attends (t : TaskId) (n : Nat) (matchers : List Value) (found : FutureId) (m : Machine) :
    Prop where
  expects : m.world.Expects n matchers found
  members : ∀ g, ∀ i ∈ (m.world.scheduler.kind g).members, i ≠ found
  others : ∀ u fs, u ≠ t → m.frames u = some fs → ∀ f ∈ fs, ¬f.Knows found ∧ f.number? ≠ some n

/-- The frames of all tasks but the one that makes a step stay what they are, and new tasks begin. -/
theorem Moves.others {Q : Frame → Prop} (hmoves : m.Moves u head stack turn new w' m') {v : TaskId}
    (hv : v ≠ u) (hbegin : ∀ work, Q (.begin work)) (h : ∀ fs, m.frames v = some fs → ∀ f ∈ fs, Q f) :
    ∀ fs, m'.frames v = some fs → ∀ f ∈ fs, Q f := by
  intro fs hfs f hf
  rcases hmoves.mem_frames hfs hf with ⟨hu, -⟩ | ⟨fs, hfs, hf⟩ | ⟨work, rfl, -⟩
  · exact absurd hu hv
  · exact h fs hfs f hf
  · exact hbegin work

/-- A frame with which a task begins is no frame of a wait. -/
theorem Frame.unaware_begin (work : Work) (found : FutureId) (n : Nat) :
    ¬(Frame.begin work).Knows found ∧ (Frame.begin work).number? ≠ some n :=
  ⟨id, by simp [Frame.number?]⟩

/-- A rule that belongs to another task is noise. -/
theorem Attends.moves (h : m.Attends t n matchers found) (hm : m.Sound)
    (hmoves : m.Moves u head stack turn new w' m') (hu : u ≠ t) :
    m'.Attends t n matchers found ∧ World.Stirring n matchers found m.world m'.world := by
  have hthreads := hm.threads_current hmoves.current
  have hhead := h.others u _ hu hmoves.before _ (List.mem_cons_self ..)
  have hframe := hm.frames u _ hmoves.before _ (List.mem_cons_self ..)
  have hasks (hasks : Asks head m.world turn w') :=
    hasks.stirring h.expects hthreads hm.groups hframe h.members hhead.1 hmoves.served.signals
  have hstirring : World.Stirring n matchers found m.world w' := by
    rcases hmoves.rule.aside_or_asks with hdoes | ⟨k, hk, rfl⟩ | hask
    · exact hdoes.stirring h.expects
    · refine World.stirring_unhearing ?_ h.expects
      rintro rfl
      exact hhead.2 hk
    · exact (hasks hask).1
  have hmembers : ∀ g, ∀ i ∈ (w'.scheduler.kind g).members, i ≠ found := by
    rcases hmoves.rule.quiet_or_asks with ⟨hquiet, -, -⟩ | hask
    · intro g
      rw [Scheduler.SignalSteps.kind (hquiet.scheduler h.expects.signals)]
      exact h.members g
    · exact (hasks hask).2
  have hend : World.Stirring n matchers found w' m'.world := by
    have hworld : m'.world = { w' with scheduler := (follow u stack turn w').world.scheduler } := by
      rw [hmoves.follows]
      exact world_follow
    rw [hworld]
    refine World.stirring_scheduler hstirring.1 extends_follow (outcome?_follow found) ?_
    have hworks : Scheduler.Works (fun _ _ => True) (fun _ => True) w'.scheduler
        (follow u stack turn w').world.scheduler := works_follow
    exact Nat.le_of_eq hworks.now.symm
  refine ⟨⟨hend.1, fun g => ?_, fun v fs hv hfs f hf => ?_⟩, hstirring.trans hend⟩
  · rw [hmoves.kind]
    exact hmembers g
  · by_cases hvu : v = u
    · rw [hmoves.frames, if_pos hvu] at hfs
      cases hfs
      rcases List.mem_append.mp hf with hf | hf
      · exact hmoves.rule.unaware h.expects hthreads hm.groups hhead f hf
      · exact h.others u _ hu hmoves.before f (List.mem_cons_of_mem _ hf)
    · exact hmoves.others hvu (Frame.unaware_begin · found n) (fun fs => h.others v fs hv) fs hfs f hf

/-- What is handled changes nothing but the scheduler, unless it is a job. -/
theorem world_handle {handle : Handle Job} (hjob : ∀ job, handle ≠ .job job) (w : World) :
    (Machine.handle w handle).world =
      { w with scheduler := (Machine.handle w handle).world.scheduler } := by
  have hbegin (t : TaskId) (o : Outcome) :
      (beginTurn w t o).world = { w with scheduler := (beginTurn w t o).world.scheduler } := by
    unfold beginTurn
    split <;> rfl
  cases handle with
  | turn t => exact hbegin t _
  | wake t f => exact hbegin t _
  | told g member | release f => rfl
  | job job => exact absurd rfl (hjob job)

/-- What is handled between two turns is noise. -/
theorem Attends.handle {handle : Handle Job} {s : Scheduler (List Frame) Job}
    (h : m.Attends t n matchers found) (hnext : m.world.scheduler.next = some (handle, s))
    (hgrows : m.world.scheduler.Extends 0
      (Machine.handle { m.world with scheduler := s } handle).world.scheduler) :
    World.Stirring n matchers found m.world (Machine.handle { m.world with scheduler := s } handle).world ∧
      ∀ g, ∀ i ∈ ((Machine.handle { m.world with scheduler := s } handle).world.scheduler.kind g).members,
        i ≠ found := by
  have htakes := Scheduler.takes_next hnext
  have hnow := (Scheduler.next_spec hnext).1
  have hfirst : World.Stirring n matchers found m.world { m.world with scheduler := s } :=
    World.stirring_scheduler h.expects (extends_takes htakes) (by rw [htakes.outcome?]) hnow
  have hmembers : ∀ g, ∀ i ∈ (s.kind g).members, i ≠ found := by
    intro g
    rw [htakes.kind]
    exact h.members g
  by_cases hjob : ∃ job, handle = .job job
  · obtain ⟨job, rfl⟩ := hjob
    have hacts : World.Acts { m.world with scheduler := s }
        (Machine.handle { m.world with scheduler := s } (.job job)).world := by
      cases job with
      | act actions => exact (Engine.acting_perform actions).acts _
      | expire error => exact World.acts_tell _ (.expired error)
    refine ⟨hfirst.trans (hacts.sets.stirring hfirst.1), fun g => ?_⟩
    rw [Scheduler.SignalSteps.kind (hacts.steady.scheduler hfirst.1.signals)]
    exact hmembers g
  · have hworks : Scheduler.Works (fun f _ => f ≠ found) (fun _ => True) s
        (Machine.handle { m.world with scheduler := s } handle).world.scheduler := by
      refine works_handle hfirst.1.signals ?_ ?_ fun job heq => absurd ⟨job, heq⟩ hjob
      · rintro g hgroup - rfl
        rw [hfirst.1.kind] at hgroup
        cases hgroup
      · rintro f - hk rfl
        rw [hfirst.1.kind] at hk
        cases hk
    refine ⟨?_, hworks.members hmembers⟩
    rw [world_handle fun job heq => hjob ⟨job, heq⟩]
    refine World.stirring_scheduler h.expects hgrows ?_ ?_
    · rw [hworks.outcome? (by simp), htakes.outcome?]
    · rw [hworks.now]
      exact hnow

/-- Elementary operations on other futures are noise. -/
theorem Attends.works {s : Scheduler (List Frame) Job} (h : m.Attends t n matchers found)
    (hworks : Scheduler.Works (fun f _ => f ≠ found) (fun _ => True) m.world.scheduler s)
    (hgrows : m.world.scheduler.Extends 0 s) :
    World.Stirring n matchers found m.world { m.world with scheduler := s } ∧
      ∀ g, ∀ i ∈ (s.kind g).members, i ≠ found :=
  ⟨World.stirring_scheduler h.expects hgrows (hworks.outcome? (by simp)) (Nat.le_of_eq hworks.now.symm),
    hworks.members h.members⟩

/-- Whatever happens but a turn of the task that waits is noise. -/
theorem Attends.happens (h : m.Attends t n matchers found) (hm : m.Sound) (hhappens : m.Happens m')
    (hown : ∀ c, m.current ≠ some (t, c)) :
    m'.Attends t n matchers found ∧ World.Stirring n matchers found m.world m'.world := by
  rcases hhappens.moves_or_leaves hm with ⟨u, head, stack, turn, new, w', hmoves⟩ | hleaves
  · refine h.moves hm hmoves ?_
    rintro rfl
    exact hown _ hmoves.current
  · have hrest (hboth : World.Stirring n matchers found m.world m'.world ∧
        ∀ g, ∀ i ∈ (m'.world.scheduler.kind g).members, i ≠ found) :
        m'.Attends t n matchers found ∧ World.Stirring n matchers found m.world m'.world := by
      refine ⟨⟨hboth.1.1, hboth.2, fun u fs hu hfs => ?_⟩, hboth.1⟩
      rw [hleaves.frames] at hfs
      exact h.others u fs hu hfs
    have hkind (f : FutureId) (v : TaskId) (hk : m.world.scheduler.kind f = .task v) : f ≠ found := by
      rintro rfl
      rw [h.expects.kind] at hk
      cases hk
    have hgrows := hleaves.grows
    cases hhappens with
    | step hstep =>
        rcases step_cases hstep with ⟨u, head, stack, turn, w', hcurrent, hrule, rfl⟩ |
          ⟨u, o, hcurrent, rfl⟩ | ⟨handle, s, hidle, hnext, rfl⟩
        · rcases hleaves.before with hnone | ⟨v, o, hsome⟩
          · cases hnone.symm.trans hcurrent
          · cases head <;> cases hsome.symm.trans hcurrent
        · exact hrest (h.works (Scheduler.works_finish hm.threads u o fun f hk => hkind f u hk) hgrows)
        · exact hrest (h.handle hnext hgrows)
    | @cancel i u hidle hk =>
        have hreached := h.expects.reached (hm.threads_idle hidle) h.members
        exact hrest (h.works (Scheduler.works_cancel i hreached (hkind i u hk)).1 hgrows)

end Machine

end HotSpec
