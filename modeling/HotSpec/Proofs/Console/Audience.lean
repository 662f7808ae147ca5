import HotSpec.Proofs.Console.Epochs
import HotSpec.Proofs.Engine.Settling

/-!
# Who listens to the console

A page tells a message to all who listen at that moment.  A wait that is told one takes its listener
off, and puts it back unless the message is one of those that it waits for.  So a wait examines every
message once up to the first one that meets it, and whoever else listens does so as if the wait were
not there.

Main definitions:

- `World.relisten`: who listens once one of them was told a message.
- `World.Expects`: a wait for a message of which nobody else knows.
- `Noise`, `World.Stirs`: what happens in a world while somebody waits for a message.
- `World.Overheard`: what that has made of a wait.

Main results:

- Theorem `exec_emit_spec`: what a message does to those who listen, and to a wait.
- Theorem `Overheard.append`: what has happened so far makes of a wait what it should, up to the first
  message that meets it and after it.
-/

namespace HotSpec

/-! ## Messages -/

namespace World

/-- Who listens once one of those who do was told a message: a wait listens again unless it is met. -/
def relisten (waits : List MessageWait) (message : ConsoleMessage) (ls : List Listener) :
    Listener → List Listener
  | .wait k =>
    if (waits[k]?).any fun wait => !wait.matchers.any message.meets then
      ls.filter (· ≠ .wait k) ++ [.wait k]
    else ls.filter (· ≠ .wait k)
  | .monitor | .loads => ls

/-- A wait for a console message: nobody else knows of the future that is settled by it. -/
structure Expects (w : World) (n : Nat) (matchers : List Value) (found : FutureId) : Prop where
  signals : w.Signals
  wait : w.waits[n]? = some ⟨matchers, found⟩
  sole : ∀ k wait, w.waits[k]? = some wait → wait.found = found → k = n
  verdict : w.verdict ≠ some found
  failSignal : w.failSignal ≠ some found
  /-- The counter of loads does not listen to the console. -/
  loads : .loads ∉ w.audience

variable {w w' : World} {n : Nat} {matchers : List Value} {found : FutureId} {message : ConsoleMessage}
  {l : Listener}

theorem Expects.lt (h : w.Expects n matchers found) : found < w.scheduler.futures.length :=
  (h.signals.waits _ (List.mem_of_getElem? h.wait)).2

theorem Expects.lt_waits (h : w.Expects n matchers found) : n < w.waits.length :=
  (List.getElem?_eq_some_iff.mp h.wait).1

/-- Where nobody was asked anything, a wait goes on. -/
theorem Expects.quiet (h : w.Expects n matchers found) (hquiet : w.Quiet w')
    (hloads : .loads ∉ w'.audience) : w'.Expects n matchers found where
  signals := hquiet.signals h.signals
  wait := by rw [hquiet.waits]; exact h.wait
  sole := by rw [hquiet.waits]; exact h.sole
  verdict := by rw [hquiet.verdict]; exact h.verdict
  failSignal := by rw [hquiet.failSignal]; exact h.failSignal
  loads := hloads

theorem Touches.steady (h : w.Touches w') : w.Steady w' := by
  induction h with
  | refl => exact .refl w
  | tail _ hlast ih => exact ih.trans hlast.steady

theorem Quiet.now (h : w.Quiet w') (hs : w.Signals) : w'.scheduler.now = w.scheduler.now :=
  ((h.scheduler hs).works (p := fun _ _ => True) (q := fun _ => True) (by simp)).now

/-- The monitor listens on whatever message it hears. -/
theorem audience_tellMessage (w : World) (message : ConsoleMessage) :
    (w.tellMonitor (.message message)).audience = w.audience := by
  have hpass (w : World) (before after : Option (Option Fault)) :
      (w.passVerdict before after).audience = w.audience := by
    unfold passVerdict
    split
    · exact audience_settle _ _ _
    · exact audience_settle _ _ _
    · rfl
  have hdetach : (w.monitor.step w.session.console (.message message)).2.detach = false := by
    unfold Monitor.step Monitor.hear
    dsimp only
    split
    · rfl
    · split
      · rfl
      · split <;> rfl
  unfold tellMonitor
  rcases hstep : w.monitor.step w.session.console (.message message) with ⟨monitor, reaction⟩
  rw [hstep] at hdetach
  dsimp only at hdetach ⊢
  rw [hpass, hdetach]
  cases reaction.timer <;> rfl

/-! ### One who listens -/

theorem relisten_wait (waits : List MessageWait) (message : ConsoleMessage) (ls : List Listener)
    (k : Nat) : relisten waits message ls (.wait k) =
      if (waits[k]?).any fun wait => !wait.matchers.any message.meets then
        ls.filter (· ≠ .wait k) ++ [.wait k]
      else ls.filter (· ≠ .wait k) := rfl

theorem loads_mem_relisten {waits : List MessageWait} {ls : List Listener}
    (h : .loads ∈ relisten waits message ls l) : .loads ∈ ls := by
  cases l with
  | monitor | loads => exact h
  | wait k =>
      rw [relisten_wait] at h
      split at h
      · refine List.mem_of_mem_filter ((List.mem_append.mp h).resolve_right ?_)
        simp
      · exact List.mem_of_mem_filter h

end World

namespace Engine

variable {w : World} {n : Nat} {matchers : List Value} {found : FutureId} {message : ConsoleMessage}
  {l : Listener}

/-- The monitor hears a message, and nobody else notices. -/
theorem exec_deliverMonitor_spec (w : World) (message : ConsoleMessage) :
    (exec (deliverMonitor (.console message)) w).1 = .ok () ∧
      (exec (deliverMonitor (.console message)) w).2.audience = w.audience ∧
      ∀ f, w.verdict ≠ some f → w.failSignal ≠ some f →
        (exec (deliverMonitor (.console message)) w).2.scheduler.outcome? f =
          w.scheduler.outcome? f := by
  have htell (w₁ : World) (haudience : w₁.audience = w.audience) (hscheduler : w₁.scheduler = w.scheduler)
      (hverdict : w₁.verdict = w.verdict) (hfail : w₁.failSignal = w.failSignal) :
      (w₁.tellMonitor (.message message)).audience = w.audience ∧
        ∀ f, w.verdict ≠ some f → w.failSignal ≠ some f →
          (w₁.tellMonitor (.message message)).scheduler.outcome? f = w.scheduler.outcome? f := by
    refine ⟨(World.audience_tellMessage w₁ message).trans haudience, fun f hf hf' => ?_⟩
    rw [(World.aside_tellMonitor w₁ (.message message)).outcome? f (hverdict ▸ hf) (hfail ▸ hf'),
      hscheduler]
  unfold deliverMonitor
  dsimp only
  rw [exec_bind, exec_get]
  dsimp only
  split
  · exact ⟨rfl, htell _ rfl rfl rfl rfl⟩
  · exact ⟨rfl, htell w rfl rfl rfl rfl⟩

/-- A wait is met by a message, or listens again. -/
theorem exec_deliverWait_spec (w : World) (k : Nat) (message : ConsoleMessage) :
    (exec (deliverWait k (.console message)) w).1 = .ok () ∧
      (exec (deliverWait k (.console message)) w).2.audience =
        World.relisten w.waits message w.audience (.wait k) ∧
      (exec (deliverWait k (.console message)) w).2.scheduler =
        match w.waits[k]? with
        | some wait => if wait.matchers.any message.meets then w.scheduler.settle wait.found .finished
          else w.scheduler
        | none => w.scheduler := by
  unfold deliverWait
  dsimp only
  rw [exec_bind, exec_change]
  dsimp only
  rw [exec_bind, exec_get]
  dsimp only
  have hoff : (w.withSite (·.unlisten "console" (.wait k))).audience =
      w.audience.filter (· ≠ .wait k) := World.audience_unhear w (.wait k)
  have hwaits : (w.withSite (·.unlisten "console" (.wait k))).waits = w.waits := rfl
  rw [hwaits, World.relisten_wait]
  cases hwait : w.waits[k]? with
  | none => exact ⟨rfl, hoff.trans (if_neg (by simp)).symm, rfl⟩
  | some wait =>
      dsimp only
      by_cases hmeets : wait.matchers.any message.meets = true
      · rw [if_pos hmeets, if_pos hmeets]
        exact ⟨rfl, hoff.trans (if_neg (by simpa using hmeets)).symm, rfl⟩
      · rw [if_neg hmeets, if_neg hmeets]
        have hon := World.audience_hear (w.withSite (·.unlisten "console" (.wait k))) (.wait k)
        rw [hoff] at hon
        exact ⟨rfl, hon.trans (if_pos (by simpa using hmeets)).symm, rfl⟩

/-- One who listens is told a message. -/
theorem exec_deliver_spec (message : ConsoleMessage) (h : w.Expects n matchers found) (hl : l ≠ .loads) :
    (exec (deliver (.console message) l) w).1 = .ok () ∧
      (exec (deliver (.console message) l) w).2.audience =
        World.relisten w.waits message w.audience l ∧
      (exec (deliver (.console message) l) w).2.scheduler.outcome? found =
        (if l = .wait n ∧ matchers.any message.meets = true then
          (w.scheduler.outcome? found).or (some .finished) else w.scheduler.outcome? found) := by
  cases l with
  | loads => exact absurd rfl hl
  | monitor =>
      obtain ⟨hok, haudience, houtcome⟩ := exec_deliverMonitor_spec w message
      refine ⟨hok, haudience, ?_⟩
      rw [if_neg (by simp)]
      exact houtcome found h.verdict h.failSignal
  | wait k =>
      obtain ⟨hok, haudience, hscheduler⟩ := exec_deliverWait_spec w k message
      refine ⟨hok, haudience, ?_⟩
      change (exec (deliverWait k (.console message)) w).2.scheduler.outcome? found = _
      rw [hscheduler]
      by_cases hk : k = n
      · subst hk
        rw [h.wait]
        dsimp only
        by_cases hmeets : matchers.any message.meets = true
        · rw [if_pos hmeets, if_pos ⟨rfl, hmeets⟩]
          cases hopen : w.scheduler.outcome? found with
          | none => rw [Scheduler.outcome?_settle _ hopen h.lt, if_pos rfl, Option.none_or]
          | some o => exact Scheduler.outcome?_settle_of_some hopen _ _
        · rw [if_neg hmeets, if_neg fun hboth => hmeets hboth.2]
      · rw [if_neg fun hboth => hk (Listener.wait.inj hboth.1)]
        cases hwait : w.waits[k]? with
        | none => rfl
        | some wait =>
            dsimp only
            split
            · refine Scheduler.outcome?_settle_of_ne ?_ _
              rintro rfl
              exact hk (h.sole k wait hwait rfl)
            · rfl

/-! ### All who listen -/

/-- All who listen are told a message in turn. -/
theorem exec_deliverAll_spec {ls : List Listener} (message : ConsoleMessage)
    (h : w.Expects n matchers found) (hls : .loads ∉ ls) :
    (exec (deliverAll (.console message) ls) w).2.audience =
        ls.foldl (World.relisten w.waits message) w.audience ∧
      (exec (deliverAll (.console message) ls) w).2.Expects n matchers found ∧
      (exec (deliverAll (.console message) ls) w).2.scheduler.outcome? found =
        (if .wait n ∈ ls ∧ matchers.any message.meets = true then
          (w.scheduler.outcome? found).or (some .finished) else w.scheduler.outcome? found) := by
  induction ls generalizing w with
  | nil => exact ⟨rfl, h, by simp [deliverAll]⟩
  | cons l ls ih =>
      obtain ⟨hl, hls⟩ := not_or.mp fun hmem => hls (List.mem_cons.mpr hmem)
      obtain ⟨hok, haudience, houtcome⟩ := exec_deliver_spec message h (Ne.symm hl)
      have htouches : w.Touches (exec (deliver (.console message) l) w).2 := by
        cases l with
        | monitor => exact touching_deliverMonitor message w
        | wait k => exact touching_deliverWait k message w
        | loads => exact absurd rfl hl
      have hquiet := htouches.steady.toQuiet
      have h' := h.quiet hquiet (by
        rw [haudience]
        exact fun hmem => h.loads (World.loads_mem_relisten hmem))
      unfold deliverAll
      rw [exec_bind]
      rcases hexec : exec (deliver (.console message) l) w with ⟨result, w₁⟩
      rw [hexec] at hok haudience houtcome h' hquiet
      dsimp only at hok haudience houtcome h' hquiet
      subst hok
      dsimp only
      obtain ⟨haudience', hexpects', houtcome'⟩ := ih h' hls
      refine ⟨?_, hexpects', ?_⟩
      · rw [haudience', haudience, hquiet.waits]
        rfl
      · rw [houtcome', houtcome]
        by_cases hmeets : matchers.any message.meets = true
        · by_cases hfirst : l = .wait n
          · cases w.scheduler.outcome? found <;> simp [hfirst, hmeets]
          · have hmem : .wait n ∈ l :: ls ↔ .wait n ∈ ls := by
              simp [List.mem_cons, Ne.symm hfirst]
            simp [hfirst, hmeets, hmem]
        · simp [hmeets]

/-- The page tells a message to all who listen. -/
theorem exec_emit_spec (message : ConsoleMessage) (h : w.Expects n matchers found) :
    (exec (emit (.console message)) w).2.audience =
        w.audience.foldl (World.relisten w.waits message) w.audience ∧
      (exec (emit (.console message)) w).2.Expects n matchers found ∧
      (exec (emit (.console message)) w).2.scheduler.outcome? found =
        (if .wait n ∈ w.audience ∧ matchers.any message.meets = true then
          (w.scheduler.outcome? found).or (some .finished) else w.scheduler.outcome? found) ∧
      (exec (emit (.console message)) w).2.scheduler.now = w.scheduler.now := by
  have hspec := exec_deliverAll_spec message h h.loads
  have hsteady := World.Touches.steady (touching_tell message w)
  exact ⟨hspec.1, hspec.2.1, hspec.2.2, hsteady.toQuiet.now h.signals⟩

end Engine

namespace World

/-! ## Those who listen -/

section

variable {waits : List MessageWait} {message : ConsoleMessage} {n : Nat} {l : Listener}
  {ls snapshot : List Listener}

theorem filter_relisten_self : (relisten waits message ls (.wait n)).filter (· ≠ .wait n) =
    ls.filter (· ≠ .wait n) := by
  rw [relisten_wait]
  split
  · rw [List.filter_append, List.filter_filter]
    simp
  · rw [List.filter_filter]
    simp

theorem filter_relisten_of_ne (hl : l ≠ .wait n) : (relisten waits message ls l).filter (· ≠ .wait n) =
    relisten waits message (ls.filter (· ≠ .wait n)) l := by
  cases l with
  | monitor | loads => rfl
  | wait k =>
      have hcomm : (ls.filter (· ≠ .wait k)).filter (· ≠ .wait n) =
          (ls.filter (· ≠ .wait n)).filter (· ≠ .wait k) := List.filter_comm _ _ _
      rw [relisten_wait, relisten_wait]
      split
      · rw [List.filter_append, hcomm]
        simp [hl]
      · exact hcomm

/-- All others listen as if a wait were not there. -/
theorem filter_foldl_relisten :
    (snapshot.foldl (relisten waits message) ls).filter (· ≠ .wait n) =
      (snapshot.filter (· ≠ .wait n)).foldl (relisten waits message) (ls.filter (· ≠ .wait n)) := by
  induction snapshot generalizing ls with
  | nil => rfl
  | cons l snapshot ih =>
      rw [List.foldl_cons, ih]
      by_cases hl : l = .wait n
      · rw [hl, filter_relisten_self, List.filter_cons_of_neg (by simp)]
      · rw [filter_relisten_of_ne hl, List.filter_cons_of_pos (by simpa using hl), List.foldl_cons]

theorem count_relisten_self : (relisten waits message ls (.wait n)).count (.wait n) =
    if (waits[n]?).any fun wait => !wait.matchers.any message.meets then 1 else 0 := by
  have hnone : (ls.filter (· ≠ .wait n)).count (.wait n) = 0 :=
    List.count_eq_zero.mpr fun hmem => by simpa using List.of_mem_filter hmem
  rw [relisten_wait]
  split
  · rw [List.count_append, hnone]
    simp
  · exact hnone

theorem count_relisten_of_ne (hl : l ≠ .wait n) :
    (relisten waits message ls l).count (.wait n) = ls.count (.wait n) := by
  cases l with
  | monitor | loads => rfl
  | wait k =>
      have hsame : (ls.filter (· ≠ .wait k)).count (.wait n) = ls.count (.wait n) :=
        List.count_filter (by simpa using hl.symm)
      rw [relisten_wait]
      split
      · have hother : [Listener.wait k].count (.wait n) = 0 :=
          List.count_eq_zero.mpr (by simpa using Ne.symm hl)
        rw [List.count_append, hsame, hother, Nat.add_zero]
      · exact hsame

/-- A wait that listens does so once more after a message, unless it is met. -/
theorem count_foldl_relisten :
    (snapshot.foldl (relisten waits message) ls).count (.wait n) =
      if .wait n ∈ snapshot then
        if (waits[n]?).any fun wait => !wait.matchers.any message.meets then 1 else 0
      else ls.count (.wait n) := by
  induction snapshot generalizing ls with
  | nil => rfl
  | cons l snapshot ih =>
      rw [List.foldl_cons, ih]
      by_cases hmem : .wait n ∈ snapshot
      · rw [if_pos hmem, if_pos (List.mem_cons_of_mem _ hmem)]
      · rw [if_neg hmem]
        by_cases hl : l = .wait n
        · rw [hl, if_pos (List.mem_cons_self ..), count_relisten_self]
        · rw [count_relisten_of_ne hl, if_neg]
          simp [hmem, Ne.symm hl]

end

end World

/-! ## Noise -/

/-- What can happen while a task waits for a console message: the page tells a message, somebody else
begins to listen or leaves, something happens elsewhere, or the task that waits is cancelled or gives
up. -/
inductive Noise
  | told (message : ConsoleMessage)
  | listens (l : Listener)
  | leaves (l : Listener)
  | elsewhere
  | cancelled
  | givenUp

namespace Noise

/-- Whether something is no message and of no importance to a wait. -/
def isApart (n : Nat) : Noise → Bool
  | .listens l => l ≠ .wait n && l ≠ .loads
  | .leaves l => l ≠ .wait n
  | .elsewhere | .cancelled => true
  | .told _ | .givenUp => false

/-- Whether something is a message that is waited for. -/
def meets (matchers : List Value) : Noise → Bool
  | .told message => matchers.any message.meets
  | _ => false

/-- What something makes of a wait. -/
def ends? (matchers : List Value) : Noise → Option Outcome
  | .told message => if matchers.any message.meets then some .finished else none
  | .givenUp => some .stopped
  | _ => none

/-- Who listens after something has happened in a world. -/
def effect (w : World) (ls : List Listener) : Noise → List Listener
  | .told message => ls.foldl (World.relisten w.waits message) ls
  | .listens l => ls ++ [l]
  | .leaves l => ls.filter (· ≠ l)
  | .elsewhere | .cancelled | .givenUp => ls

variable {n : Nat} {matchers : List Value} {w : World} {x : Noise} {ls : List Listener}

theorem meets_told (message : ConsoleMessage) :
    (told message).meets matchers = matchers.any message.meets := rfl

theorem ends?_told (message : ConsoleMessage) : (told message).ends? matchers =
    if matchers.any message.meets then some .finished else none := rfl

theorem meets_eq_false (h : x.ends? matchers = none) : x.meets matchers = false := by
  cases x with
  | told message =>
      rw [ends?_told] at h
      split at h
      · cases h
      · next hmeets => exact Bool.eq_false_of_not_eq_true hmeets
  | _ => rfl

/-- All others listen as if a wait were not there. -/
theorem filter_effect_told (message : ConsoleMessage) :
    ((told message).effect w ls).filter (· ≠ .wait n) =
      (told message).effect w (ls.filter (· ≠ .wait n)) := World.filter_foldl_relisten

theorem filter_effect_apart (h : x.isApart n = true) :
    (x.effect w ls).filter (· ≠ .wait n) = x.effect w (ls.filter (· ≠ .wait n)) := by
  cases x with
  | told | givenUp => cases h
  | elsewhere | cancelled => rfl
  | listens l =>
      obtain ⟨hl, -⟩ : l ≠ .wait n ∧ l ≠ .loads := by simpa [isApart] using h
      simp [effect, List.filter_append, hl]
  | leaves l => exact List.filter_comm _ _ _

theorem count_effect_apart (h : x.isApart n = true) :
    (x.effect w ls).count (.wait n) = ls.count (.wait n) := by
  cases x with
  | told | givenUp => cases h
  | elsewhere | cancelled => rfl
  | listens l =>
      obtain ⟨hl, -⟩ : l ≠ .wait n ∧ l ≠ .loads := by simpa [isApart] using h
      simp [effect, List.count_append, hl]
  | leaves l =>
      have hl : l ≠ .wait n := by simpa [isApart] using h
      exact List.count_filter (by simpa using hl.symm)

theorem ends?_apart (h : x.isApart n = true) : x.ends? matchers = none ∧ x.meets matchers = false := by
  cases x with
  | told | givenUp => cases h
  | listens | leaves | elsewhere | cancelled => exact ⟨rfl, rfl⟩

end Noise

/-- What happens in a world while a task waits for a console message. -/
inductive World.Stirs (n : Nat) (matchers : List Value) (found : FutureId) (w : World) :
    Noise → World → Prop
  | told (message : ConsoleMessage) :
      Stirs n matchers found w (.told message) ((Engine.emit (.console message)).exec w).2
  | apart {x : Noise} {w' : World} (hx : x.isApart n = true)
      (haudience : w'.audience = x.effect w w.audience)
      (houtcome : w'.scheduler.outcome? found = w.scheduler.outcome? found)
      (hnow : w.scheduler.now ≤ w'.scheduler.now) (hexpects : w'.Expects n matchers found) :
      Stirs n matchers found w x w'
  | givenUp {w' : World} (hopen : w.scheduler.outcome? found = none)
      (hstopped : w'.scheduler.outcome? found = some .stopped) (haudience : w'.audience = w.audience)
      (hnow : w.scheduler.now ≤ w'.scheduler.now) (hexpects : w'.Expects n matchers found) :
      Stirs n matchers found w .givenUp w'

/-- Who listens after several things have happened, each in its world. -/
def Noise.effects (past : List (World × Noise)) (ls : List Listener) : List Listener :=
  past.foldl (fun ls entry => entry.2.effect entry.1 ls) ls

/-- What has become of a wait for a console message after several things have happened. -/
structure World.Overheard (n : Nat) (matchers : List Value) (found : FutureId) (w₀ : World)
    (past : List (World × Noise)) (w : World) : Prop where
  expects : w.Expects n matchers found
  /-- The wait listens once, until it is met. -/
  listens : w.audience.count (.wait n) = if past.any (·.2.meets matchers) then 0 else 1
  /-- All others listen as if it were not there. -/
  others : w.audience.filter (· ≠ .wait n) =
    Noise.effects past (w₀.audience.filter (· ≠ .wait n))
  /-- The first thing that ends it counts. -/
  outcome : w.scheduler.outcome? found = past.findSome? (·.2.ends? matchers)
  /-- It is given up only as long as nothing has ended it. -/
  stopped : ∀ entry ∈ past, entry.2 = .givenUp → w.scheduler.outcome? found = some .stopped
  times : past.Pairwise fun e e' => e.1.scheduler.now ≤ e'.1.scheduler.now
  now : ∀ entry ∈ past, entry.1.scheduler.now ≤ w.scheduler.now

namespace World

variable {n : Nat} {matchers : List Value} {found : FutureId} {w₀ w w' : World}
  {past new : List (World × Noise)}

/-- A wait goes on whatever happens, and the clock never goes back. -/
theorem Expects.stirs {x : Noise} (hw : w.Expects n matchers found) (h : w.Stirs n matchers found x w') :
    w'.Expects n matchers found ∧ w.scheduler.now ≤ w'.scheduler.now := by
  cases h with
  | told message =>
      obtain ⟨-, hexpects, -, hnow⟩ := Engine.exec_emit_spec message hw
      exact ⟨hexpects, Nat.le_of_eq hnow.symm⟩
  | apart hx haudience houtcome hnow hexpects => exact ⟨hexpects, hnow⟩
  | givenUp hopen hstopped haudience hnow hexpects => exact ⟨hexpects, hnow⟩

theorem Expects.history (hw : w.Expects n matchers found)
    (h : History (Stirs n matchers found) w new w') :
    w'.Expects n matchers found ∧ w.scheduler.now ≤ w'.scheduler.now := by
  induction h with
  | nil => exact ⟨hw, Nat.le_refl _⟩
  | snoc _ hlast ih =>
      obtain ⟨hexpects, hnow⟩ := ih.1.stirs hlast
      exact ⟨hexpects, Nat.le_trans ih.2 hnow⟩

/-- Whoever was met before is settled already. -/
theorem Overheard.findSome?_ne_none (hmet : past.any (·.2.meets matchers) = true) :
    past.findSome? (·.2.ends? matchers) ≠ none := by
  obtain ⟨entry, hentry, hmeets⟩ := List.any_eq_true.mp hmet
  intro hnone
  have hends := List.findSome?_eq_none_iff.mp hnone entry hentry
  rw [Noise.meets_eq_false hends] at hmeets
  cases hmeets

/-- A message that is told makes of a wait what it should. -/
theorem Overheard.told (h : Overheard n matchers found w₀ past w) (message : ConsoleMessage) :
    ((Engine.emit (.console message)).exec w).2.audience.count (.wait n) =
        (if (past ++ [(w, Noise.told message)]).any (·.2.meets matchers) then 0 else 1) ∧
      ((Engine.emit (.console message)).exec w).2.scheduler.outcome? found =
        (past ++ [(w, Noise.told message)]).findSome? (·.2.ends? matchers) := by
  obtain ⟨haudience, hexpects, houtcome, -⟩ := Engine.exec_emit_spec message h.expects
  have hmem : .wait n ∈ w.audience ↔ past.any (·.2.meets matchers) = false := by
    rw [← List.count_pos_iff, h.listens]
    split
    · next hmet => simp [hmet]
    · next hmet => simp [hmet]
  have hany : (past ++ [(w, Noise.told message)]).any (·.2.meets matchers) =
      (past.any (·.2.meets matchers) || matchers.any message.meets) := by
    rw [List.any_append, List.any_cons, List.any_nil, Bool.or_false, Noise.meets_told]
  constructor
  · rw [haudience, World.count_foldl_relisten, h.expects.wait, h.listens, hany]
    by_cases hmet : past.any (·.2.meets matchers) = true
    · rw [if_neg (by rw [hmem, hmet]; simp), if_pos hmet, if_pos (by rw [hmet]; rfl)]
    · have hmet := Bool.eq_false_of_not_eq_true hmet
      rw [if_pos (hmem.mpr hmet), hmet, Bool.false_or, Option.any_some]
      cases matchers.any message.meets <;> rfl
  · rw [houtcome, List.findSome?_append, h.outcome]
    simp only [hmem, List.findSome?_singleton, Noise.ends?_told]
    by_cases hmeets : matchers.any message.meets = true
    · rw [if_pos hmeets]
      simp only [hmeets, and_true]
      split
      · rfl
      · next hmet =>
          obtain ⟨o, ho⟩ := Option.ne_none_iff_exists'.mp
            (findSome?_ne_none (Bool.eq_true_of_not_eq_false hmet))
          rw [ho]
          rfl
    · rw [if_neg fun hboth => hmeets hboth.2, if_neg hmeets, Option.or_none]

/-- What happens makes of a wait what it should. -/
theorem Overheard.snoc {x : Noise} (h : Overheard n matchers found w₀ past w)
    (hlast : w.Stirs n matchers found x w') :
    Overheard n matchers found w₀ (past ++ [(w, x)]) w' := by
  have hle := (h.expects.stirs hlast).2
  have heffects (ls : List Listener) :
      Noise.effects (past ++ [(w, x)]) ls = x.effect w (Noise.effects past ls) := by
    simp [Noise.effects]
  have hstays (hsame : ∀ o, w.scheduler.outcome? found = some o → w'.scheduler.outcome? found = some o)
      (hx : x = .givenUp → w'.scheduler.outcome? found = some .stopped) :
      ∀ entry ∈ past ++ [(w, x)], entry.2 = .givenUp → w'.scheduler.outcome? found = some .stopped := by
    intro entry hentry hgiven
    rcases List.mem_append.mp hentry with hentry | hentry
    · exact hsame _ (h.stopped entry hentry hgiven)
    · rw [List.mem_singleton.mp hentry] at hgiven
      exact hx hgiven
  have hnow : ∀ entry ∈ past ++ [(w, x)], entry.1.scheduler.now ≤ w'.scheduler.now := by
    intro entry hentry
    rcases List.mem_append.mp hentry with hentry | hentry
    · exact Nat.le_trans (h.now entry hentry) hle
    · rw [List.mem_singleton.mp hentry]
      exact hle
  have htimes : (past ++ [(w, x)]).Pairwise fun e e' => e.1.scheduler.now ≤ e'.1.scheduler.now := by
    refine List.pairwise_append.mpr ⟨h.times, List.pairwise_singleton _ _, fun e he e' he' => ?_⟩
    rw [List.mem_singleton.mp he']
    exact h.now e he
  cases hlast with
  | told message =>
      obtain ⟨haudience, hexpects, houtcome, -⟩ := Engine.exec_emit_spec message h.expects
      obtain ⟨hlistens, hends⟩ := h.told message
      refine ⟨hexpects, hlistens, ?_, hends, hstays (fun o ho => ?_) (by simp), htimes, hnow⟩
      · rw [haudience, heffects, ← h.others]
        exact Noise.filter_effect_told message
      · rw [houtcome, ho]
        split <;> rfl
  | apart hx haudience houtcome _ hexpects =>
      obtain ⟨hends, hmeets⟩ : x.ends? matchers = none ∧ x.meets matchers = false := Noise.ends?_apart hx
      refine ⟨hexpects, ?_, ?_, ?_, hstays (fun o ho => houtcome.trans ho) ?_, htimes, hnow⟩
      · rw [haudience, Noise.count_effect_apart hx, h.listens, List.any_append, List.any_cons, List.any_nil,
          hmeets, Bool.or_false, Bool.or_false]
      · rw [haudience, heffects, ← h.others, Noise.filter_effect_apart hx]
      · rw [houtcome, h.outcome, List.findSome?_append]
        rw [List.findSome?_singleton, hends, Option.or_none]
      · rintro rfl
        cases hx
  | givenUp hopen hstopped haudience _ hexpects =>
      refine ⟨hexpects, ?_, ?_, ?_, hstays ?_ fun _ => hstopped, htimes, hnow⟩
      · have hmeets : Noise.givenUp.meets matchers = false := rfl
        rw [haudience, h.listens, List.any_append, List.any_cons, List.any_nil, hmeets, Bool.or_false,
          Bool.or_false]
      · rw [haudience, heffects, h.others]
        rfl
      · rw [hstopped, List.findSome?_append, ← h.outcome, hopen]
        rfl
      · intro o ho
        cases hopen.symm.trans ho

/-- What happens in turn makes of a wait what it should. -/
theorem Overheard.append (h : Overheard n matchers found w₀ past w)
    (hnew : History (Stirs n matchers found) w new w') :
    Overheard n matchers found w₀ (past ++ new) w' := by
  induction hnew with
  | nil =>
      rw [List.append_nil]
      exact h
  | snoc _ hlast ih =>
      rw [← List.append_assoc]
      exact ih.snoc hlast

end World

end HotSpec
