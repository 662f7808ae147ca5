import HotSpec.Proofs.Console.Epochs

/-!
# Loads of the page by epochs

Effects say how many loads of the page are expected from then on: at least one, or a number of them.
All of them share one listener, one final check and one counter.  Whether a load fails the test, and
whether the check does, depends on the epoch alone: on the last effect and the loads since.

Main definitions:

- `ExpectedLoads`, with `Exceeded`, `Wrong` and `Met`: what an effect expects, and the numbers of loads
  that are too many, that the check fails, and that are as expected.
- `World.loadFailure?`: the text with which a load would fail the test.
- `World.LoadHappens`: effects, loads of the page, and what happens elsewhere.

Main results:

- Theorems `Counter.CountsLoads.snd_load`, `Counter.CountsLoads.wrongLoads?`: the counter of an
  epoch.
- Theorem `World.page_loads_by_epoch`: the loads that fail the test, the final check, and the tests that
  pass.
-/

namespace HotSpec

/-! ## What is expected -/

/-- What an effect expects of the loads up to the next one: at least one, or a number of them. -/
inductive ExpectedLoads
  | atLeastOne
  | exactly (n : Nat)

namespace ExpectedLoads

/-- The values that an effect is given for what it expects: false is no load, and true is some load. -/
inductive Of : Value → ExpectedLoads → Prop
  | yes : Of (.bool true) .atLeastOne
  | no : Of (.bool false) (.exactly 0)
  | number (n : Nat) : Of (.int n) (.exactly n)

/-- Whether an epoch has seen too many loads. -/
def Exceeded : ExpectedLoads → Nat → Prop
  | .atLeastOne, _ => False
  | .exactly n, seen => n < seen

/-- Whether the final check fails an epoch for its number of loads.  Loads where none is expected have
failed the test before. -/
def Wrong : ExpectedLoads → Nat → Prop
  | .atLeastOne, seen => seen = 0
  | .exactly n, seen => 0 < n ∧ seen ≠ n

/-- Whether an epoch has seen as many loads as are expected. -/
def Met : ExpectedLoads → Nat → Prop
  | .atLeastOne, seen => 0 < seen
  | .exactly n, seen => seen = n

/-- As many loads as expected are those that are neither too many nor fail the check. -/
theorem met_iff (expected : ExpectedLoads) (seen : Nat) :
    expected.Met seen ↔ ¬ expected.Exceeded seen ∧ ¬ expected.Wrong seen := by
  cases expected with
  | atLeastOne => simp [Met, Exceeded, Wrong, Nat.pos_iff_ne_zero]
  | exactly n =>
    simp only [Met, Exceeded, Wrong]
    omega

theorem Exceeded.mono {expected : ExpectedLoads} {seen seen' : Nat} (h : expected.Exceeded seen)
    (hle : seen ≤ seen') : expected.Exceeded seen' := by
  cases expected with
  | atLeastOne => exact h
  | exactly n => exact Nat.lt_of_lt_of_le h hle

/-- No epoch has seen too many loads before the first one. -/
theorem not_exceeded_zero (expected : ExpectedLoads) : ¬ expected.Exceeded 0 := by
  cases expected <;> simp [Exceeded]

/-- An epoch has seen too many loads if there is one with which there are too many. -/
theorem forall_not_exceeded_iff (expected : ExpectedLoads) (loads : List Unit) :
    (∀ earlier a later, loads = earlier ++ a :: later → ¬ expected.Exceeded (earlier.length + 1)) ↔
      ¬ expected.Exceeded loads.length := by
  constructor
  · intro h
    rcases List.eq_nil_or_concat' loads with rfl | ⟨earlier, a, rfl⟩
    · exact expected.not_exceeded_zero
    · simpa using h earlier a [] rfl
  · rintro h earlier a later rfl hexceeded
    exact h (hexceeded.mono (by simp))

end ExpectedLoads

/-- The effects that begin an epoch of loads. -/
inductive Effect.ExpectsLoads : Effect → ExpectedLoads → Prop
  | loads {v : Value} {expected : ExpectedLoads} (message : Option String)
      (h : ExpectedLoads.Of v expected) : ExpectsLoads (.pageLoads v message) expected
  | load (message : Option String) : ExpectsLoads (.expectPageLoad message) (.exactly 1)
  | noLoad (message : Option String) : ExpectsLoads (.expectNoPageLoad message) (.exactly 0)

theorem Effect.ExpectsLoads.eq_pageLoads {e : Effect} {expected : ExpectedLoads}
    (h : e.ExpectsLoads expected) :
    ∃ v message, e = .pageLoads v message ∧ ExpectedLoads.Of v expected := by
  cases h with
  | loads message h => exact ⟨_, _, rfl, h⟩
  | load message => exact ⟨_, _, rfl, .number 1⟩
  | noLoad message => exact ⟨_, _, rfl, .no⟩

/-! ## The counter of an epoch -/

namespace Counter

/-- A counter with the loads of an epoch. -/
structure CountsLoads (c : Counter) (epoch : Epoch ExpectedLoads Unit) : Prop where
  expected : ExpectedLoads.Of c.expected epoch.expected
  current : c.current = epoch.events.length

variable {c : Counter} {epoch : Epoch ExpectedLoads Unit}

@[simp]
theorem same_int (m n : Nat) : (Value.int m).same (.int n) = decide (m = n) := by
  rw [Bool.eq_iff_iff]
  simp [Value.same, Value.number?, Value.sameNumber]

@[simp]
theorem same_bool_zero (b : Bool) : (Value.bool b).same (.int 0) = !b := by
  cases b <;> simp [Value.same, Value.number?, Value.sameNumber]

/-- A number of loads is none if it is zero. -/
theorem expectsNone_int {n : Nat} (h : c.expected = .int n) : c.expectsNone = decide (n = 0) := by
  rw [expectsNone, h]
  exact same_int n 0

/-- Every load is counted, whether it is one too many or not. -/
theorem fst_load (c : Counter) : c.load.1 = c.tick := by
  unfold load
  dsimp only
  split
  · rfl
  · split <;> rfl

/-- A load where none is expected fails the test. -/
theorem snd_load_of_none (hnone : c.expectsNone = true) (hsome : c.expected ≠ .bool true) :
    ∃ text, c.load.2 = .ok (some text) := by
  unfold load
  dsimp only
  split
  · next h => exact absurd h hsome
  · rw [if_pos (show c.tick.expectsNone = true from hnone)]
    exact ⟨_, rfl⟩

/-- A load fails the test if there are more than the number that is expected. -/
theorem snd_load_of_number {n : Nat} (h : c.expected = .int n) (hpos : 0 < n) :
    ∃ failure, c.load.2 = .ok failure ∧ (failure ≠ none ↔ n < c.current + 1) := by
  have hexpected : c.tick.expected = .int n := h
  have hnone : c.tick.expectsNone = false := by simp [expectsNone_int hexpected, hpos.ne']
  have hexceeds : exceeds c.tick.current (.int n) = .ok (decide (n < c.current + 1)) := by
    simp [exceeds, Value.number?, tick]
  unfold load
  simp only [hexpected, hnone, hexceeds, Bool.false_eq_true, if_false]
  by_cases hover : n < c.current + 1
  · simp [hover, Except.map]
  · simp [hover, Except.map]

/-- A load is a failure if there are too many in its epoch now. -/
theorem CountsLoads.snd_load (h : c.CountsLoads epoch) :
    ∃ failure, c.load.2 = .ok failure ∧
      (failure ≠ none ↔ epoch.expected.Exceeded (epoch.events.length + 1)) := by
  obtain ⟨expected, loads⟩ := epoch
  obtain ⟨hexpected, hcurrent⟩ := h
  generalize hv : c.expected = v at hexpected
  cases hexpected with
  | yes => exact ⟨none, by simp [load, tick, hv], by simp [ExpectedLoads.Exceeded]⟩
  | no =>
    obtain ⟨text, htext⟩ := snd_load_of_none (c := c) (by simp [expectsNone, hv]) (by simp [hv])
    exact ⟨some text, htext, by simp [ExpectedLoads.Exceeded]⟩
  | number n =>
    rcases Nat.eq_zero_or_pos n with rfl | hpos
    · obtain ⟨text, htext⟩ :=
        snd_load_of_none (c := c) (by simp [expectsNone_int hv]) (by simp [hv])
      exact ⟨some text, htext, by simp [ExpectedLoads.Exceeded]⟩
    · exact hcurrent ▸ snd_load_of_number hv hpos

/-- The final check has something to fail with if the number of loads is wrong. -/
theorem CountsLoads.wrongLoads? (h : c.CountsLoads epoch) :
    c.wrongLoads? ≠ none ↔ epoch.expected.Wrong epoch.events.length := by
  obtain ⟨expected, loads⟩ := epoch
  obtain ⟨hexpected, hcurrent⟩ := h
  unfold Counter.wrongLoads?
  generalize hv : c.expected = v at hexpected
  cases hexpected with
  | yes => simp [expectsNone, hv, hcurrent, ExpectedLoads.Wrong]
  | no => simp [expectsNone, hv, ExpectedLoads.Wrong]
  | number n =>
    simp only [expectsNone_int hv, hcurrent, ExpectedLoads.Wrong]
    by_cases hzero : n = 0
    · simp [hzero]
    · simp [hzero, Nat.pos_of_ne_zero hzero, eq_comm]

end Counter

/-! ## Listeners -/

/-- Who has stopped listening to an event is not told of it. -/
theorem Site.not_mem_listenersOf_unlisten (s : Site) (event : String) (l : Listener) :
    l ∉ (s.unlisten event l).listenersOf event := by
  unfold unlisten
  split
  · simp [listenersOf, Table.get?_put]
  · next hnone =>
    have hnobody : s.listeners.get? event = none := by simpa [Table.has] using hnone
    simp [listenersOf, hnobody]

namespace World

variable {w w' w₀ : World} {epoch : Epoch ExpectedLoads Unit}

/-- Who listens to the loads of the page. -/
def loadListeners (w : World) : List Listener := w.site.listenersOf PageEvent.load.name

/-- The text with which a load would fail the test, if it would. -/
def loadFailure? (w : World) : Option String :=
  w.session.loads.bind fun c => c.load.2.toOption.join

/-- The world in which one load more is counted. -/
def loadCounted (w : World) : World :=
  w.withSession fun s => { s with loads := s.loads.map Counter.tick }

end World

namespace Engine

variable {w : World}

/-- Nobody but the counter heeds a load. -/
theorem exec_deliver_load {l : Listener} (hl : l ≠ .loads) :
    (deliver .load l).exec w = (.ok (), w) := by
  cases l with
  | loads => exact absurd rfl hl
  | monitor => rfl
  | wait number => rfl

theorem exec_deliverAll_load_of_not_mem {listeners : List Listener} (h : .loads ∉ listeners) :
    (deliverAll .load listeners).exec w = (.ok (), w) := by
  induction listeners with
  | nil => rfl
  | cons l listeners ih =>
    have hne := List.ne_of_not_mem_cons h
    unfold deliverAll
    rw [exec_bind, exec_deliver_load hne.symm]
    exact ih (List.not_mem_of_not_mem_cons h)

/-- Where the counter listens once, a load is told to the counter and to nobody else. -/
theorem exec_deliverAll_load_of_count {listeners : List Listener} (h : listeners.count .loads = 1) :
    (deliverAll .load listeners).exec w = deliverLoads.exec w := by
  induction listeners with
  | nil => cases h
  | cons l listeners ih =>
    unfold deliverAll
    rw [exec_bind]
    by_cases hl : l = .loads
    · subst hl
      have hrest : .loads ∉ listeners := List.count_eq_zero.mp (by simpa using h)
      change _ = (deliver .load .loads).exec w
      rcases (deliver .load .loads).exec w with ⟨_ | _, w'⟩
      · rfl
      · exact exec_deliverAll_load_of_not_mem hrest
    · rw [exec_deliver_load hl]
      exact ih (by simpa [List.count_cons, hl] using h)

/-- A load is counted, and signalled if it is a failure. -/
theorem exec_deliverLoads {c : Counter} {failure : Option String} (hc : w.session.loads = some c)
    (hfailure : c.load.2 = .ok failure) :
    w.loadFailure? = failure ∧
      deliverLoads.exec w = (signalText failure).exec w.loadCounted := by
  constructor
  · simp [World.loadFailure?, hc, hfailure, Except.toOption]
  · have hload : c.load = (c.tick, .ok failure) := Prod.ext c.fst_load hfailure
    have hcounted : w.loadCounted = w.withSession fun s => { s with loads := some c.tick } := by
      simp [World.loadCounted, World.withSession, hc]
    unfold deliverLoads
    simp only [exec_bind, exec_get, hc, hload, exec_change, exec_ofExcept, hcounted]

end Engine

/-! ## Worlds -/

namespace World

variable {w w' w₀ : World} {epoch : Epoch ExpectedLoads Unit}
  {current : Option (Epoch ExpectedLoads Unit)}

/-- A world in which no effect has said how many loads to expect. -/
structure LoadsUnexpected (w : World) : Prop where
  loads : w.session.loads = none
  listeners : .loads ∉ w.loadListeners
  posts : .checkLoads ∉ w.session.posts

/-- A world in an epoch of loads: there is one listener and one check, with a counter that has the loads
of the epoch. -/
structure LoadsExpected (w : World) (epoch : Epoch ExpectedLoads Unit) : Prop where
  loads : ∃ c, w.session.loads = some c ∧ c.CountsLoads epoch
  listeners : w.loadListeners.count .loads = 1
  posts : .checkLoads ∈ w.session.posts

/-- How a world stands to the loads of its page, by the epoch that is open. -/
def AwaitsLoads (current : Option (Epoch ExpectedLoads Unit)) (w : World) : Prop :=
  current.elim w.LoadsUnexpected w.LoadsExpected

/-- Two worlds that stand to the loads of their page in the same way. -/
structure SameLoads (w w' : World) : Prop where
  loads : w'.session.loads = w.session.loads
  listeners : w'.loadListeners.count .loads = w.loadListeners.count .loads
  posts : .checkLoads ∈ w'.session.posts ↔ .checkLoads ∈ w.session.posts

/-- A test starts without expectations of loads. -/
theorem loadsUnexpected_start (environment : Environment) (settings : Settings)
    (registry : Registry) (file : Option String) :
    (start environment (.start settings registry file)).LoadsUnexpected :=
  ⟨rfl, List.not_mem_nil, List.not_mem_nil⟩

/-- What can happen to the loads of a page: an effect begins an epoch, the page loads and tells so all
who listen, or something happens elsewhere. -/
inductive LoadHappens : World → Counted ExpectedLoads Unit → World → Prop
  | expects {w : World} {e : Effect} {expected : ExpectedLoads} (h : e.ExpectsLoads expected) :
      LoadHappens w (.expects expected) ((Engine.apply e).exec w).2
  | loaded {w : World} : LoadHappens w (.event ()) ((Engine.emit .load).exec w).2
  | elsewhere {w w' : World} (h : w.SameLoads w') : LoadHappens w .elsewhere w'

theorem AwaitsLoads.same (h : w.AwaitsLoads current) (hsame : w.SameLoads w') :
    w'.AwaitsLoads current := by
  cases current with
  | none =>
    have hnone : w.loadListeners.count .loads = 0 := List.count_eq_zero.mpr h.listeners
    exact ⟨hsame.loads.trans h.loads, List.count_eq_zero.mp (hsame.listeners.trans hnone),
      fun hmem => h.posts (hsame.posts.mp hmem)⟩
  | some epoch =>
    exact ⟨hsame.loads.symm ▸ h.loads, hsame.listeners.trans h.listeners,
      hsame.posts.mpr h.posts⟩

/-- An effect begins an epoch without loads. -/
theorem AwaitsLoads.apply {e : Effect} {expected : ExpectedLoads} (h : w.AwaitsLoads current)
    (he : e.ExpectsLoads expected) :
    ((Engine.apply e).exec w).2.LoadsExpected ⟨expected, []⟩ := by
  obtain ⟨v, message, rfl, hv⟩ := he.eq_pageLoads
  have happly : ((Engine.apply (.pageLoads v message)).exec w).2 =
      ((Engine.expectLoads v message).exec w).2 := Engine.snd_exec_return _ _ w
  rw [happly]
  unfold Engine.expectLoads
  rw [Engine.exec_bind, Engine.exec_get]
  cases current with
  | none =>
    simp only [h.loads, Engine.exec_bind, Engine.exec_change]
    refine ⟨⟨_, rfl, hv, rfl⟩, ?_, by simp [withSession, withSite]⟩
    have hnone : w.loadListeners.count .loads = 0 := List.count_eq_zero.mpr h.listeners
    change ((w.site.listen PageEvent.load.name .loads).listenersOf _).count _ = 1
    rw [Site.listenersOf_listen, if_pos rfl, List.count_append]
    change w.loadListeners.count .loads + 1 = 1
    rw [hnone]
  | some epoch =>
    obtain ⟨c, hc, -⟩ := h.loads
    simp only [hc, Engine.exec_change]
    exact ⟨⟨_, rfl, hv, rfl⟩, h.listeners, h.posts⟩

/-- A load is counted in any case.  It is signalled as a failure if there is an epoch that has seen too
many now. -/
theorem AwaitsLoads.emit (h : w.AwaitsLoads current) :
    (Engine.emit .load).exec w = (Engine.signalText w.loadFailure?).exec w.loadCounted ∧
      (w.loadFailure? ≠ none ↔
        ∃ epoch, current = some epoch ∧ epoch.expected.Exceeded (epoch.events.length + 1)) ∧
      w.loadCounted.AwaitsLoads (current.map (·.add ())) := by
  have hemit : (Engine.emit .load).exec w =
      (Engine.deliverAll .load w.loadListeners).exec w := rfl
  cases current with
  | none =>
    obtain ⟨hloads, hlisteners, hposts⟩ := h
    have hsame : ({ w.session with loads := w.session.loads.map .tick } : Session) = w.session := by
      rw [hloads, Option.map_none, ← hloads]
    have hcounted : w.loadCounted = w := congrArg (fun session => { w with session }) hsame
    have hfailure : w.loadFailure? = none := by simp [loadFailure?, hloads]
    rw [hemit, hcounted, hfailure, Engine.exec_deliverAll_load_of_not_mem hlisteners]
    exact ⟨rfl, by simp, hloads, hlisteners, hposts⟩
  | some epoch =>
    obtain ⟨⟨c, hc, hcounts⟩, hlisteners, hposts⟩ := h
    obtain ⟨failure, hfailure, hexceeded⟩ := hcounts.snd_load
    obtain ⟨rfl, hdeliver⟩ := Engine.exec_deliverLoads hc hfailure
    rw [hemit, Engine.exec_deliverAll_load_of_count hlisteners, hdeliver]
    refine ⟨rfl, by simpa using hexceeded, ⟨c.tick, ?_, hcounts.expected, ?_⟩, hlisteners, hposts⟩
    · simp [loadCounted, withSession, hc]
    · simp [Counter.tick, Epoch.add, hcounts.current]

/-- What happens next makes of a world what the epochs up to then and this one say. -/
theorem AwaitsLoads.step {x : Counted ExpectedLoads Unit} (h : w.AwaitsLoads current)
    (hx : w.LoadHappens x w') : w'.AwaitsLoads (Epoch.after? current x) := by
  cases hx with
  | expects he => exact h.apply he
  | elsewhere hsame => exact h.same hsame
  | loaded =>
    obtain ⟨hemit, -, hcounted⟩ := h.emit
    obtain ⟨hsession, hsite⟩ := Engine.exec_signalText_spec w.loadFailure? w.loadCounted
    rw [hemit]
    refine hcounted.same ⟨congrArg _ hsession, ?_, by rw [hsession]⟩
    simp only [loadListeners, hsite]

/-- The check of loads first stops listening. -/
theorem run_posts_checkLoads {i : Nat} (hi : w.session.posts[i]? = some .checkLoads) :
    (Move.posts i).run w =
      (Move.ofEngine do Move.checkLoads; return .call (.posts (i + 1)) []).run w := by
  simp only [Move.posts, StateT.run_bind, StateT.run_get, pure_bind, hi]

theorem exec_checkLoads (w : World) :
    (Move.checkLoads.exec w).1 =
      (w.session.loads.bind Counter.wrongLoads?).elim (.ok ()) (.error <| .failure ·) ∧
    (Move.checkLoads.exec w).2.site = w.site.unlisten PageEvent.load.name .loads :=
  Engine.exec_failWith _ (w.withSite (·.unlisten PageEvent.load.name .loads))

/-- After the check the counter does not listen to loads any more, whether the check fails or not. -/
theorem not_mem_loadListeners_posts {i : Nat} (hi : w.session.posts[i]? = some .checkLoads) :
    .loads ∉ ((Move.posts i).run w).2.loadListeners := by
  obtain ⟨hresult, hsite⟩ := exec_checkLoads w
  rw [run_posts_checkLoads hi, run_ofEngine_then _ hresult, loadListeners, hsite]
  exact w.site.not_mem_listenersOf_unlisten _ _

/-- The final check fails if there is an epoch with a wrong number of loads. -/
theorem AwaitsLoads.failsCheck (h : w.AwaitsLoads current) :
    w.FailsCheck .checkLoads ↔
      ∃ epoch, current = some epoch ∧ epoch.expected.Wrong epoch.events.length := by
  rw [failsCheck_iff (fun _ => run_posts_checkLoads) (exec_checkLoads w).1]
  cases current with
  | none => simp [LoadsUnexpected.posts h]
  | some epoch =>
    obtain ⟨c, hc, hcounts⟩ := LoadsExpected.loads h
    simp [LoadsExpected.posts h, hc, ← hcounts.wrongLoads?]

/-! ## Histories -/

variable {past : List (World × Counted ExpectedLoads Unit)}

/-- A world stands to its loads as the last epoch says. -/
theorem awaitsLoads_of_history (h₀ : w₀.LoadsUnexpected) (h : History LoadHappens w₀ past w) :
    w.AwaitsLoads (epochs (past.map Prod.snd)).getLast? :=
  h.standing (p := AwaitsLoads) h₀ AwaitsLoads.step

/-- A load that is no failure is one with which its epoch has not seen too many. -/
theorem loadFailure?_eq_none_iff {before after : List (World × Counted ExpectedLoads Unit)}
    {w₁ : World} (h₀ : w₀.LoadsUnexpected)
    (h : History LoadHappens w₀ (before ++ (w₁, .event ()) :: after) w) :
    w₁.loadFailure? = none ↔ ∀ epoch, (epochs (before.map Prod.snd)).getLast? = some epoch →
      ¬ epoch.expected.Exceeded (epoch.events.length + 1) := by
  have hfailure := not_congr (awaitsLoads_of_history h₀ h.before).emit.2.1
  rw [ne_eq, not_not] at hfailure
  rw [hfailure]
  simp only [not_exists, not_and]

/-- No load is a failure if no epoch has seen too many in the end. -/
theorem forall_loadFailure?_iff (h₀ : w₀.LoadsUnexpected) (h : History LoadHappens w₀ past w) :
    (∀ before w₁ after, past = before ++ (w₁, .event ()) :: after → w₁.loadFailure? = none) ↔
      ∀ epoch ∈ epochs (past.map Prod.snd), ¬ epoch.expected.Exceeded epoch.events.length := by
  have hepochs := (History.forall_event_map_iff
    (P := fun before _ => ∀ epoch, (epochs before).getLast? = some epoch →
      ¬ epoch.expected.Exceeded (epoch.events.length + 1)) past).trans
    (forall_events_iff (p := fun (expected : ExpectedLoads) earlier _ =>
      ¬ expected.Exceeded (earlier.length + 1)) _)
  simp only [ExpectedLoads.forall_not_exceeded_iff] at hepochs
  rw [← hepochs]
  constructor
  · rintro hnone before w₁ ⟨⟩ after rfl
    exact (loadFailure?_eq_none_iff h₀ h).mp (hnone before w₁ after rfl)
  · rintro hfits before w₁ after rfl
    exact (loadFailure?_eq_none_iff h₀ h).mpr (hfits before w₁ () after rfl)

/-- Whatever effects there are and however often the page loads, in whatever order: a load fails the
test if and only if its epoch has seen too many with it, and before the first effect it changes nothing.
The final check fails if and only if the number of loads of the last epoch is wrong, and takes the
listener off the page.  So neither a load nor the check fails the test if and only if no epoch has seen
too many loads, and the last one has seen as many as it expects. -/
theorem page_loads_by_epoch (h₀ : w₀.LoadsUnexpected) (h : History LoadHappens w₀ past w) :
    (∀ before w₁ after, past = before ++ (w₁, .event ()) :: after →
      (Engine.emit .load).exec w₁ = (Engine.signalText w₁.loadFailure?).exec w₁.loadCounted ∧
      (w₁.loadFailure? ≠ none ↔ ∃ epoch, (epochs (before.map Prod.snd)).getLast? = some epoch ∧
        epoch.expected.Exceeded (epoch.events.length + 1)) ∧
      (epochs (before.map Prod.snd) = [] → (Engine.emit .load).exec w₁ = (.ok (), w₁))) ∧
    (w.FailsCheck .checkLoads ↔
      ∃ epoch, (epochs (past.map Prod.snd)).getLast? = some epoch ∧
        epoch.expected.Wrong epoch.events.length) ∧
    (∀ i, w.session.posts[i]? = some .checkLoads →
      .loads ∉ ((Move.posts i).run w).2.site.listenersOf PageEvent.load.name) ∧
    ((∀ before w₁ after, past = before ++ (w₁, .event ()) :: after → w₁.loadFailure? = none) ∧
      ¬ w.FailsCheck .checkLoads ↔
        (∀ epoch ∈ epochs (past.map Prod.snd), ¬ epoch.expected.Exceeded epoch.events.length) ∧
        ∀ epoch, (epochs (past.map Prod.snd)).getLast? = some epoch →
          epoch.expected.Met epoch.events.length) := by
  have hcheck := (awaitsLoads_of_history h₀ h).failsCheck
  refine ⟨?_, hcheck, fun i hi => not_mem_loadListeners_posts hi, ?_⟩
  · rintro before w₁ after rfl
    have hbefore := awaitsLoads_of_history h₀ h.before
    obtain ⟨hemit, hfailure, -⟩ := hbefore.emit
    refine ⟨hemit, hfailure, fun hnone => ?_⟩
    rw [hnone] at hbefore
    exact Engine.exec_deliverAll_load_of_not_mem (LoadsUnexpected.listeners hbefore)
  · rw [forall_loadFailure?_iff h₀ h, hcheck]
    refine and_congr_right fun hexceeded => ?_
    simp only [not_exists, not_and, ExpectedLoads.met_iff]
    exact forall₂_congr fun epoch hlast =>
      (and_iff_right (hexceeded epoch (List.mem_of_getLast? hlast))).symm

/-- Two loads are as many as expected, also where no load is expected any more later. -/
theorem page_loads_pass_twice : ∃ w₀ w past, w₀.LoadsUnexpected ∧ History LoadHappens w₀ past w ∧
    past.map Prod.snd = [.expects (.exactly 2), .event (), .event (), .expects (.exactly 0)] ∧
    (∀ before w₁ after, past = before ++ (w₁, .event ()) :: after → w₁.loadFailure? = none) ∧
    ¬ w.FailsCheck .checkLoads := by
  let w₀ : World := start default (.start .standard default none)
  have h₀ : w₀.LoadsUnexpected := loadsUnexpected_start _ _ _ _
  have h₁ : History LoadHappens w₀ _ _ := .snoc .nil (.expects (.loads none (.number 2)))
  have h₂ : History LoadHappens w₀ _ _ := .snoc h₁ .loaded
  have h₃ : History LoadHappens w₀ _ _ := .snoc h₂ .loaded
  have h₄ : History LoadHappens w₀ _ _ := .snoc h₃ (.expects (.noLoad none))
  refine ⟨w₀, _, _, h₀, h₄, rfl, (page_loads_by_epoch h₀ h₄).2.2.2.mpr ⟨?_, ?_⟩⟩
  · intro epoch hepoch
    obtain rfl | rfl : epoch = ⟨.exactly 2, [(), ()]⟩ ∨ epoch = ⟨.exactly 0, []⟩ := by
      simpa [epochs, leading] using hepoch
    · exact Nat.lt_irrefl 2
    · exact Nat.lt_irrefl 0
  · rintro _ ⟨⟩
    rfl

end World

end HotSpec
