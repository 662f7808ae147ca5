import HotSpec.Proofs.Scheduler.Signals
import HotSpec.Proofs.Scheduler.Turns

/-!
# First come, first served

What is to be handled forms a queue: whatever comes up is put at its end, and what is handled next is
taken from its front, before any timer.  So all that is in the queue is handled after a number of steps
that is known in advance.

Main definitions:

- `Scheduler.queue`: what is to be handled before the clock moves.
- `Scheduler.Stalled`: an open future that waits for several others and has been told of all.
- `Scheduler.Proceeds`: a scheduler that came to have more to handle.

Main results:

- Theorem `next_of_queue`: what is at the front of the queue is handled next.
- Theorems `proceeds_settle`, `proceeds_gather`, `proceeds_tell`, `SignalSteps.proceeds`, `CancelSteps.proceeds`: what
  every operation puts at the end of the queue.
-/

namespace HotSpec

/-- Whether a handle may be put off until some time: a release, or a job. -/
def Handle.isLate {Job : Type} : Handle Job → Bool
  | .release _ | .job _ => true
  | .turn _ | .wake .. | .told .. => false

namespace Scheduler

variable {Stack Job : Type} {s s' s₁ s₂ s₃ : Scheduler Stack Job} {h : Handle Job}
  {hit : TaskId → Prop} {f g m : FutureId} {k : FutureKind} {n : Nat}

/-- What is to be handled before the clock moves, in order. -/
def queue (s : Scheduler Stack Job) : List (Handle Job) := s.round ++ s.ready

/-- Whether a future is open that waits for several others and has been told of all. -/
def Stalled (s : Scheduler Stack Job) (g : FutureId) : Prop :=
  s.outcome? g = none ∧ (s.kind g).left? = some 0

/-! ## The front of the queue -/

/-- What is at the front of the queue is handled next. -/
theorem next_of_queue {rest : List (Handle Job)} (hqueue : s.queue = h :: rest) :
    ∃ s' more, s.next = some (h, s') ∧ s'.queue = rest ++ more := by
  unfold queue at hqueue
  cases hround : s.round with
  | cons h' round =>
      rw [hround] at hqueue
      cases hqueue
      refine ⟨{ s with round }, [], ?_, by simp [queue]⟩
      simp [next, next?, hround]
  | nil =>
      rw [hround] at hqueue
      have hready : s.ready = h :: rest := hqueue
      let due := (s.timers.takeWhile (isDue s.now)).map Prod.snd
      refine ⟨{ s.beginRound with round := rest ++ due }, due, ?_, ?_⟩
      · simp [next, next?, hround, beginRound, hready, due]
      · simp [queue, beginRound]

/-- What is handled at the present time is taken from the front of the queue. -/
theorem queue_of_next? (hnext : s.next? = some (h, s')) :
    (∀ h' ∈ s.queue, h' = h ∨ h' ∈ s'.queue) ∧ ∀ x ∈ s'.timers, x ∈ s.timers := by
  unfold next? at hnext
  simp only at hnext
  split at hnext
  · cases hnext
  · next h' round hround =>
      cases hnext
      have hsub : (∀ h' ∈ s.queue, h' ∈ (if s.round.isEmpty then s.beginRound else s).queue) ∧
          ∀ x ∈ (if s.round.isEmpty then s.beginRound else s).timers, x ∈ s.timers := by
        split
        · next hempty =>
            have hempty := List.isEmpty_iff.mp hempty
            refine ⟨fun h' hh' => ?_, fun x hx => List.mem_of_mem_drop hx⟩
            unfold queue at hh'
            rw [hempty] at hh'
            exact List.mem_append_left _ (List.mem_append_left _ hh')
        · exact ⟨fun h' hh' => hh', fun x hx => hx⟩
      generalize (if s.round.isEmpty then s.beginRound else s) = s₁ at hround hsub
      refine ⟨fun h' hh' => ?_, hsub.2⟩
      have hmem := hsub.1 h' hh'
      unfold queue at hmem
      rw [hround, List.cons_append] at hmem
      exact List.mem_cons.mp hmem

/-- What is handled next is taken from the front of the queue, and all else stays there. -/
theorem queue_of_next (hnext : s.next = some (h, s')) :
    (∀ h' ∈ s.queue, h' = h ∨ h' ∈ s'.queue) ∧ ∀ x ∈ s'.timers, x ∈ s.timers := by
  unfold next at hnext
  split at hnext
  · next step hstep =>
      cases hnext
      exact queue_of_next? hstep
  · obtain ⟨s₁, hclock, hstep⟩ := Option.bind_eq_some_iff.mp hnext
    unfold advanceClock at hclock
    split at hclock
    · cases hclock
    · cases hclock
      have hfront := queue_of_next? hstep
      exact hfront

/-! ## The end of the queue -/

/-- A scheduler whose queue came to be longer: who waits goes on waiting, or is in the queue. -/
structure Appends (s s' : Scheduler Stack Job) : Prop where
  queue : ∃ more, s'.queue = s.queue ++ more
  timers : ∀ x ∈ s'.timers, x ∈ s.timers ∨ x.2.isLate = true
  waiters : ∀ t f, t ∈ s.waiters f → t ∈ s'.waiters f ∨ .wake t f ∈ s'.queue
  left : ∀ g n, (s.kind g).left? = some n → ∃ n', n' ≤ n ∧ (s'.kind g).left? = some n'

/-- A scheduler that came to have more to handle, and no future that nobody settles. -/
structure Proceeds (s s' : Scheduler Stack Job) : Prop extends s.Appends s' where
  stalled : ∀ g, s'.Stalled g → s.Stalled g

theorem Appends.mem (h : s.Appends s') {h' : Handle Job} (hmem : h' ∈ s.queue) : h' ∈ s'.queue := by
  obtain ⟨more, hqueue⟩ := h.queue
  rw [hqueue]
  exact List.mem_append_left _ hmem

theorem Appends.refl (s : Scheduler Stack Job) : s.Appends s where
  queue := ⟨[], (List.append_nil _).symm⟩
  timers _ hx := .inl hx
  waiters _ _ ht := .inl ht
  left _ n hn := ⟨n, Nat.le_refl n, hn⟩

theorem Appends.trans (h₁ : s₁.Appends s₂) (h₂ : s₂.Appends s₃) : s₁.Appends s₃ where
  queue := by
    obtain ⟨more₁, hqueue₁⟩ := h₁.queue
    obtain ⟨more₂, hqueue₂⟩ := h₂.queue
    exact ⟨more₁ ++ more₂, by rw [hqueue₂, hqueue₁, List.append_assoc]⟩
  timers x hx := (h₂.timers x hx).elim (h₁.timers x) .inr
  waiters t f ht := (h₁.waiters t f ht).elim (h₂.waiters t f) fun hwake => .inr (h₂.mem hwake)
  left g n hn := by
    obtain ⟨n₁, hle₁, hn₁⟩ := h₁.left g n hn
    obtain ⟨n₂, hle₂, hn₂⟩ := h₂.left g n₁ hn₁
    exact ⟨n₂, Nat.le_trans hle₂ hle₁, hn₂⟩

theorem Proceeds.refl (s : Scheduler Stack Job) : s.Proceeds s := ⟨.refl s, fun _ => id⟩

theorem Proceeds.trans (h₁ : s₁.Proceeds s₂) (h₂ : s₂.Proceeds s₃) : s₁.Proceeds s₃ :=
  ⟨h₁.toAppends.trans h₂.toAppends, fun g hg => h₁.stalled g (h₂.stalled g hg)⟩

/-- Nothing but the futures, the queue and the timers matters. -/
theorem Proceeds.of_eq {hs : List (Handle Job)} (hfutures : s'.futures = s.futures)
    (hqueue : s'.queue = s.queue ++ hs) (htimers : ∀ x ∈ s'.timers, x ∈ s.timers ∨ x.2.isLate = true) :
    s.Proceeds s' where
  queue := ⟨hs, hqueue⟩
  timers := htimers
  waiters t f ht := by
    refine .inl ?_
    unfold waiters watchers future at ht ⊢
    rwa [hfutures]
  left g n hn := ⟨n, Nat.le_refl n, by rwa [kind_congr hfutures]⟩
  stalled g hg := by
    unfold Stalled at hg ⊢
    rwa [outcome?_congr hfutures, kind_congr hfutures] at hg

theorem proceeds_enqueue (hs : List (Handle Job)) : s.Proceeds (s.enqueue hs) := by
  have hqueue : (s.enqueue hs).queue = s.queue ++ hs := by simp [queue, enqueue]
  exact .of_eq rfl hqueue fun _ hx => .inl hx

theorem proceeds_setTask (t : TaskId) (task : Task Stack) : s.Proceeds (s.setTask t task) :=
  .of_eq rfl (List.append_nil _).symm fun _ hx => .inl hx

theorem proceeds_after (delay : Float) (hlate : h.isLate = true) : s.Proceeds (s.after delay h) := by
  refine .of_eq rfl (List.append_nil _).symm fun x hx => ?_
  rcases List.mem_cons.mp ((insertTimer_perm _ _ _).mem_iff.mp hx) with rfl | hx
  · exact .inr hlate
  · exact .inl hx

theorem proceeds_settle (f : FutureId) (o : Outcome) : s.Proceeds (s.settle f o) := by
  by_cases hopen : s.outcome? f = none ∧ f < s.futures.length
  swap
  · rw [settle_of_settled hopen]
    exact .refl s
  have hqueue : (s.settle f o).queue = s.queue ++ (s.watchers f).map (handleOf f) := by
    rw [settle_eq hopen.1]
    simp [queue, enqueue, setFuture]
  refine ⟨⟨⟨_, hqueue⟩, ?_, ?_, ?_⟩, ?_⟩
  · intro x hx
    rw [settle_eq hopen.1] at hx
    exact .inl hx
  · intro t g ht
    rw [mem_waiters, watchers_settle o hopen.1 hopen.2]
    split
    · next hg =>
        subst hg
        rw [hqueue]
        exact .inr (List.mem_append_right _ (List.mem_map.mpr ⟨_, mem_waiters.mp ht, rfl⟩))
    · exact .inl (mem_waiters.mp ht)
  · intro g n hn
    exact ⟨n, Nat.le_refl n, by rwa [kind_settle]⟩
  · rintro g ⟨houtcome, hleft⟩
    rw [kind_settle] at hleft
    refine ⟨?_, hleft⟩
    by_contra hsome
    exact settled_settle hsome f o houtcome

theorem proceeds_newFuture (hk : k.left? ≠ some 0) : s.Proceeds (s.newFuture k).2 where
  queue := ⟨[], (List.append_nil _).symm⟩
  timers _ hx := .inl hx
  waiters t f ht := by
    unfold waiters at ht ⊢
    rw [watchers_newFuture]
    exact .inl ht
  left g n hn := by
    refine ⟨n, Nat.le_refl n, ?_⟩
    rw [kind_newFuture, if_neg]
    · exact hn
    · rintro rfl
      rw [kind_fresh (Nat.le_refl _)] at hn
      cases hn
  stalled g hg := by
    unfold Stalled at hg ⊢
    rw [outcome?_newFuture, kind_newFuture] at hg
    split at hg
    · exact absurd hg.2 hk
    · exact hg

theorem proceeds_watch (f : FutureId) (w : Watcher) : s.Proceeds (s.watch f w) := by
  have hqueue : ∃ hs, (s.watch f w).queue = s.queue ++ hs ∧ (s.watch f w).timers = s.timers := by
    unfold watch
    simp only
    split
    · exact ⟨[handleOf f w], by simp [queue, enqueue], rfl⟩
    · exact ⟨[], by simp [queue, setFuture], rfl⟩
  obtain ⟨hs, hqueue, htimers⟩ := hqueue
  refine ⟨⟨⟨hs, hqueue⟩, fun x hx => .inl (htimers ▸ hx), ?_, ?_⟩, ?_⟩
  · intro t g ht
    refine .inl ?_
    unfold waiters watchers at ht ⊢
    rw [future_watch]
    split
    · next hg =>
        rw [hg.1] at ht
        rw [List.filterMap_append]
        exact List.mem_append_left _ ht
    · exact ht
  · intro g n hn
    exact ⟨n, Nat.le_refl n, by rwa [kind_watch]⟩
  · intro g hg
    unfold Stalled at hg ⊢
    rwa [outcome?_watch, kind_watch] at hg

theorem proceeds_gather {members : List FutureId} (hk : k.left? ≠ some 0) :
    s.Proceeds (s.gather k members).2 := by
  rw [gather_eq]
  refine (proceeds_newFuture hk).trans ?_
  generalize (s.newFuture k).2 = s₁
  unfold watchAll
  induction members generalizing s₁ with
  | nil => exact .refl _
  | cons m members ih => exact (proceeds_watch m _).trans (ih _)

theorem proceeds_spawn (stack : Stack) : s.Proceeds (s.spawn stack).2 := by
  have hnew : s.Proceeds (s.newTask stack).2 :=
    (proceeds_newFuture (k := .task s.tasks.length) (by simp [FutureKind.left?])).trans
      (.of_eq rfl (List.append_nil _).symm fun _ hx => .inl hx)
  exact hnew.trans (proceeds_enqueue _)

/-- A future may come to have fewer that it has to be told of. -/
theorem appends_setKind {n' : Nat} (hn : (s.kind g).left? = some n) (hk : k.left? = some n')
    (hle : n' ≤ n) : s.Appends (s.setKind g k) := by
  have hlt : g < s.futures.length := lt_of_left hn
  refine ⟨⟨[], (List.append_nil _).symm⟩, fun _ hx => .inl hx, ?_, ?_⟩
  · intro t f ht
    unfold waiters at ht ⊢
    rw [watchers_setKind]
    exact .inl ht
  · intro f n₁ hn₁
    rw [kind_setKind k hlt]
    split
    · next hf =>
        subst hf
        cases hn.symm.trans hn₁
        exact ⟨n', hle, hk⟩
    · exact ⟨n₁, Nat.le_refl _, hn₁⟩

/-- A future that was told of one more is settled, or has to be told of others. -/
theorem proceeds_countDown {c : Prop} [Decidable c] {o : Outcome} (hn : (s.kind g).left? = some n)
    (hk : k.left? = some (n - 1)) (hlast : n ≤ 1 → c) :
    s.Proceeds (if c then (s.setKind g k).settle g o else s.setKind g k) := by
  have happends := appends_setKind hn hk (Nat.sub_le n 1)
  have hlt : g < s.futures.length := lt_of_left hn
  have hother {f : FutureId} (hf : f ≠ g) (hstalled : (s.setKind g k).Stalled f) : s.Stalled f := by
    unfold Stalled at hstalled ⊢
    rwa [outcome?_setKind, kind_setKind k hlt, if_neg hf] at hstalled
  split
  · have hsettle := proceeds_settle (s := s.setKind g k) g o
    refine ⟨happends.trans hsettle.toAppends, fun f hf => ?_⟩
    by_cases hfg : f = g
    · subst hfg
      have hopen := (hsettle.stalled f hf).1
      have houtcome := hf.1
      rw [outcome?_settle o hopen (by rwa [length_setKind]), if_pos rfl] at houtcome
      cases houtcome
    · exact hother hfg (hsettle.stalled f hf)
  · next hc =>
      refine ⟨happends, fun f hf => ?_⟩
      by_cases hfg : f = g
      · subst hfg
        have hleft := hf.2
        rw [kind_setKind k hlt, if_pos rfl, hk] at hleft
        have hzero : n - 1 = 0 := Option.some.inj hleft
        exact absurd (hlast (by omega)) hc
      · exact hother hfg hf

theorem proceeds_tell (g m : FutureId) : s.Proceeds (s.tell g m) := by
  cases hkind : s.kind g with
  | firstFault members left =>
      rw [tell_firstFault hkind]
      exact proceeds_countDown (by rw [hkind]; rfl) rfl .inl
  | all members left stopping =>
      rw [tell_all hkind]
      exact proceeds_countDown (by rw [hkind]; rfl) rfl id
  | signal | released | task t =>
      unfold kind at hkind
      have hsame : s.tell g m = s := by simp [tell, hkind]
      rw [hsame]
      exact .refl s

theorem proceeds_release (f : FutureId) : s.Proceeds (s.release f) := by
  unfold release
  split
  · exact proceeds_settle f _
  · exact .refl s

/-! ## Signals and cancellations -/

theorem SignalSteps.proceeds (h : s.SignalSteps s') : s.Proceeds s' := by
  induction h with
  | refl => exact .refl s
  | tail _ hlast ih =>
      refine ih.trans ?_
      cases hlast with
      | settle hk => exact proceeds_settle _ _
      | after => exact proceeds_after _ rfl

theorem proceeds_stopNext (t : TaskId) : s.Proceeds (s.stopNext t) := by
  unfold stopNext
  split
  · exact proceeds_setTask _ _
  · exact .refl s

theorem proceeds_markStopping (g : FutureId) : s.Proceeds (s.markStopping g) := by
  cases hkind : s.kind g with
  | all members left stopping =>
      have hn : (s.kind g).left? = some left := by
        rw [hkind]
        rfl
      have hlt : g < s.futures.length := lt_of_kind (by rw [hkind]; simp)
      rw [markStopping_all hkind]
      refine ⟨appends_setKind hn rfl (Nat.le_refl _), fun f hf => ?_⟩
      unfold Stalled at hf ⊢
      rw [outcome?_setKind, kind_setKind _ hlt] at hf
      split at hf
      · next hfg =>
          rw [hfg, hn]
          exact ⟨hfg ▸ hf.1, hf.2⟩
      · exact hf
  | signal | released | task t | firstFault members left =>
      unfold kind at hkind
      have hsame : s.markStopping g = s := by simp [markStopping, hkind]
      rw [hsame]
      exact .refl s

theorem CancelSteps.proceeds (h : CancelSteps hit s s') : s.Proceeds s' := by
  induction h with
  | refl => exact .refl s
  | tail _ hlast ih =>
      refine ih.trans ?_
      cases hlast with
      | signal | awaited => exact proceeds_settle _ _
      | task => exact proceeds_stopNext _
      | group => exact proceeds_markStopping _

end Scheduler

end HotSpec
