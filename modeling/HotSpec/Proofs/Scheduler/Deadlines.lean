import HotSpec.Proofs.Scheduler.Works

/-!
# Deadlines

A future may be released by another one, or else at some time.  It is not released before that, and the
clock does not go past that time as long as it is open.

Main definitions:

- `Scheduler.Ripe`: whether the other future is settled, or it is time.
- `Scheduler.Alarm`, `Scheduler.Armed`: a future that is released when it is ripe, and that is going to be
  released.
- `Scheduler.Releases`: whether only some futures are ever released.

Main results:

- Theorems `Works.alarm`, `Alarm.next`: nothing but its release settles it, and that comes in time.
- Theorem `Alarm.next_now`: the clock does not go past the time.
- Theorems `Releases.alarm`, `Alarm.after`, `Alarm.watch`: how such a future is made.
-/

namespace HotSpec

namespace Scheduler

variable {Stack Job : Type} {s s' : Scheduler Stack Job} {p : FutureId → Outcome → Prop}
  {q : FutureId → Prop} {h : Handle Job} {f found waiter : FutureId} {due : Ticks}

/-- Whether a future is settled, or it is time. -/
def Ripe (s : Scheduler Stack Job) (found : FutureId) (due : Ticks) : Prop :=
  s.outcome? found ≠ none ∨ due < s.now + Ticks.grain

/-- A future that another one releases, and a timer, and nothing else: it is released only when it is
ripe. -/
structure Alarm (s : Scheduler Stack Job) (found waiter : FutureId) (due : Ticks) : Prop where
  sorted : s.Sorted
  watchers : ∀ f, .release waiter ∈ s.watchers f → f = found
  timers : ∀ x ∈ s.timers, x.2 = .release waiter → x.1 = due
  queue : .release waiter ∈ s.queue → s.Ripe found due
  settled : ∀ o, s.outcome? waiter = some o → o = .stopped ∨ s.Ripe found due

/-- As long as a future is open, it is going to be released. -/
def Armed (s : Scheduler Stack Job) (waiter : FutureId) : Prop :=
  s.outcome? waiter = none → .release waiter ∈ s.handles

/-- Whether only some futures are ever released. -/
structure Releases (s : Scheduler Stack Job) (q : FutureId → Prop) : Prop where
  watchers : ∀ f g, .release g ∈ s.watchers f → q g
  handles : ∀ g, .release g ∈ s.handles → q g

/-! ## What is ripe stays so -/

theorem Ripe.mono (h : s.Ripe found due) (hfound : s.outcome? found ≠ none → s'.outcome? found ≠ none)
    (hnow : s.now ≤ s'.now) : s'.Ripe found due :=
  h.imp hfound fun hdue => Nat.lt_of_lt_of_le hdue (Nat.add_le_add_right hnow _)

theorem Ripe.settle (h : s.Ripe found due) (f : FutureId) (o : Outcome) : (s.settle f o).Ripe found due :=
  h.mono (fun hfound => settled_settle hfound f o) (Nat.le_of_eq (now_settle f o).symm)

/-! ## Queues -/

theorem queue_enqueue (hs : List (Handle Job)) : (s.enqueue hs).queue = s.queue ++ hs := by
  simp [queue, enqueue]

theorem queue_settle (o : Outcome) (hopen : s.outcome? f = none) :
    (s.settle f o).queue = s.queue ++ (s.watchers f).map (handleOf f) := by
  rw [settle_eq hopen, queue_enqueue]
  rfl

theorem queue_watch (f : FutureId) (w : Watcher) :
    (s.watch f w).queue = s.queue ++ if s.outcome? f = none then [] else [handleOf f w] := by
  by_cases hopen : s.outcome? f = none
  · rw [watch_of_open hopen, if_pos hopen, List.append_nil]
    rfl
  · rw [watch_of_settled hopen, if_neg hopen, queue_enqueue]

/-- Only those are released that wait for that. -/
theorem handleOf_eq_release {w : Watcher} {g : FutureId} :
    (handleOf f w : Handle Job) = .release g ↔ w = .release g := by
  cases w <;> simp [handleOf]

/-! ## Elementary operations -/

/-- A future that is released is settled when it is ripe, and any other one at any time. -/
theorem Alarm.settle (h : s.Alarm found waiter due) {o : Outcome}
    (hripe : f = waiter → o = .stopped ∨ s.Ripe found due) : (s.settle f o).Alarm found waiter due := by
  by_cases hopen : s.outcome? f = none ∧ f < s.futures.length
  swap
  · rwa [settle_of_settled hopen]
  obtain ⟨hopen, hlt⟩ := hopen
  refine ⟨?_, ?_, ?_, ?_, ?_⟩
  · unfold Sorted
    rw [timers_settle]
    exact h.sorted
  · intro g hg
    rw [watchers_settle o hopen hlt] at hg
    split at hg
    · cases hg
    · exact h.watchers g hg
  · rw [timers_settle]
    exact h.timers
  · intro hmem
    rw [queue_settle o hopen] at hmem
    rcases List.mem_append.mp hmem with hmem | hmem
    · exact (h.queue hmem).settle f o
    · obtain ⟨w, hw, heq⟩ := List.mem_map.mp hmem
      rw [handleOf_eq_release] at heq
      obtain rfl := h.watchers f (heq ▸ hw)
      refine .inl ?_
      rw [outcome?_settle o hopen hlt, if_pos rfl]
      simp
  · intro o' ho'
    rw [outcome?_settle o hopen hlt] at ho'
    split at ho'
    · next heq =>
        cases ho'
        exact (hripe heq.symm).imp_right fun hripe => hripe.settle f _
    · exact (h.settled o' ho').imp_right fun hripe => hripe.settle f o

theorem WorkStep.alarm (h : WorkStep p q s s') (ha : s.Alarm found waiter due)
    (hp : ∀ o, p waiter o → o = .stopped) (hq : ¬q waiter) : s'.Alarm found waiter due := by
  cases h with
  | settle hpf =>
      refine ha.settle ?_
      rintro rfl
      exact .inl (hp _ hpf)
  | newFuture k hk =>
      have houtcome := outcome?_newFuture (s := s) k
      refine ⟨ha.sorted, fun f hf => ha.watchers f ?_, ha.timers, fun hmem => ?_, fun o ho => ?_⟩
      · rwa [watchers_newFuture] at hf
      · exact (ha.queue hmem).imp_left fun hfound => by rwa [houtcome]
      · rw [houtcome] at ho
        exact (ha.settled o ho).imp_right (·.imp_left fun hfound => by rwa [houtcome])
  | @watch f w hw =>
      have houtcome := outcome?_watch (s := s) f w
      have hripe (hripe : s.Ripe found due) : (s.watch f w).Ripe found due :=
        hripe.mono (fun hfound => by rwa [houtcome]) (Nat.le_of_eq (now_watch f w).symm)
      refine ⟨?_, fun g hg => ?_, ?_, fun hmem => ?_, fun o ho => ?_⟩
      · unfold Sorted
        rw [timers_watch]
        exact ha.sorted
      · unfold Scheduler.watchers at hg
        rw [future_watch] at hg
        split at hg
        · next hgf =>
            rcases List.mem_append.mp hg with hg | hg
            · exact hgf.1 ▸ ha.watchers f hg
            · exact absurd (hw waiter (List.mem_singleton.mp hg).symm) hq
        · exact ha.watchers g hg
      · rw [timers_watch]
        exact ha.timers
      · rw [queue_watch] at hmem
        rcases List.mem_append.mp hmem with hmem | hmem
        · exact hripe (ha.queue hmem)
        · split at hmem
          · cases hmem
          · have heq := handleOf_eq_release.mp (List.mem_singleton.mp hmem).symm
            exact absurd (hw waiter heq) hq
      · rw [houtcome] at ho
        exact (ha.settled o ho).imp_right hripe
  | @after delay h hh =>
      refine ⟨sorted_insertTimer _ _ ha.sorted, ha.watchers, fun x hx hrelease => ?_, ha.queue,
        ha.settled⟩
      rcases List.mem_cons.mp ((insertTimer_perm _ _ _).mem_iff.mp hx) with rfl | hx
      · exact absurd (hh waiter hrelease) hq
      · exact ha.timers x hx hrelease
  | turn =>
      refine ⟨ha.sorted, ha.watchers, ha.timers, fun hmem => ?_, ha.settled⟩
      rw [queue_enqueue] at hmem
      exact ha.queue ((List.mem_append.mp hmem).resolve_right (by simp))
  | @setKind g k hk =>
      have houtcome := outcome?_setKind (s := s) g k
      have hripe (hripe : s.Ripe found due) : (s.setKind g k).Ripe found due :=
        hripe.imp_left fun hfound => by rwa [houtcome]
      refine ⟨ha.sorted, fun f hf => ha.watchers f ?_, ha.timers, fun hmem => hripe (ha.queue hmem),
        fun o ho => ?_⟩
      · rwa [watchers_setKind] at hf
      · rw [houtcome] at ho
        exact (ha.settled o ho).imp_right hripe
  | tasks => exact ⟨ha.sorted, ha.watchers, ha.timers, ha.queue, ha.settled⟩

/-- Elementary operations on others leave a future to its release. -/
theorem Works.alarm (h : Works p q s s') (ha : s.Alarm found waiter due)
    (hp : ∀ o, p waiter o → o = .stopped) (hq : ¬q waiter) : s'.Alarm found waiter due :=
  h.keeps (P := fun s => s.Alarm found waiter due) (fun _ _ hstep hs => hstep.alarm hs hp hq) ha

theorem Armed.settle (h : s.Armed waiter) (f : FutureId) (o : Outcome) : (s.settle f o).Armed waiter := by
  intro hopen
  have hbefore : s.outcome? waiter = none := by
    by_contra hsettled
    exact settled_settle hsettled f o hopen
  by_cases hf : s.outcome? f = none
  · rw [handles_settle o hf]
    exact List.mem_append_left _ (h hbefore)
  · rw [settle_of_settled fun hboth => hf hboth.1]
    exact h hbefore

theorem WorkStep.armed (h : WorkStep p q s s') (hs : s.Armed waiter) : s'.Armed waiter := by
  cases h with
  | settle => exact hs.settle _ _
  | newFuture k hk =>
      intro hopen
      rw [outcome?_newFuture] at hopen
      exact hs hopen
  | @watch f w hw =>
      intro hopen
      rw [outcome?_watch] at hopen
      rw [handles_watch]
      exact List.mem_append_left _ (hs hopen)
  | after =>
      exact fun hopen => (handles_after _ _).mem_iff.mpr (List.mem_cons_of_mem _ (hs hopen))
  | turn =>
      intro hopen
      rw [handles_enqueue]
      exact List.mem_append_left _ (hs hopen)
  | setKind k hk =>
      intro hopen
      rw [outcome?_setKind] at hopen
      exact hs hopen
  | tasks => exact hs

/-- A future that is going to be released stays so until it is. -/
theorem Works.armed (h : Works p q s s') (hs : s.Armed waiter) : s'.Armed waiter :=
  h.keeps (P := (·.Armed waiter)) (fun _ _ => WorkStep.armed) hs

theorem WorkStep.releases (h : WorkStep p q s s') (hs : s.Releases q) : s'.Releases q := by
  cases h with
  | @settle f o =>
      by_cases hopen : s.outcome? f = none ∧ f < s.futures.length
      swap
      · rwa [settle_of_settled hopen]
      obtain ⟨hopen, hlt⟩ := hopen
      refine ⟨fun g r hr => ?_, fun r hr => ?_⟩
      · rw [watchers_settle o hopen hlt] at hr
        split at hr
        · cases hr
        · exact hs.watchers g r hr
      · rw [handles_settle o hopen] at hr
        rcases List.mem_append.mp hr with hr | hr
        · exact hs.handles r hr
        · obtain ⟨w, hw, heq⟩ := List.mem_map.mp hr
          rw [handleOf_eq_release] at heq
          exact hs.watchers f r (heq ▸ hw)
  | newFuture k hk =>
      refine ⟨fun g r hr => hs.watchers g r ?_, hs.handles⟩
      rwa [watchers_newFuture] at hr
  | @watch f w hw =>
      refine ⟨fun g r hr => ?_, fun r hr => ?_⟩
      · unfold Scheduler.watchers at hr
        rw [future_watch] at hr
        split at hr
        · rcases List.mem_append.mp hr with hr | hr
          · exact hs.watchers f r hr
          · exact hw r (List.mem_singleton.mp hr).symm
        · exact hs.watchers g r hr
      · rw [handles_watch] at hr
        rcases List.mem_append.mp hr with hr | hr
        · exact hs.handles r hr
        · split at hr
          · cases hr
          · exact hw r (handleOf_eq_release.mp (List.mem_singleton.mp hr).symm)
  | @after delay h hh =>
      refine ⟨hs.watchers, fun r hr => ?_⟩
      rcases List.mem_cons.mp ((handles_after delay h).mem_iff.mp hr) with heq | hr
      · exact hh r heq.symm
      · exact hs.handles r hr
  | turn =>
      refine ⟨hs.watchers, fun r hr => ?_⟩
      rw [handles_enqueue] at hr
      exact hs.handles r ((List.mem_append.mp hr).resolve_right (by simp))
  | setKind k hk =>
      refine ⟨fun g r hr => hs.watchers g r ?_, hs.handles⟩
      rwa [watchers_setKind] at hr
  | tasks => exact ⟨hs.watchers, hs.handles⟩

/-- Only those come to be released that may. -/
theorem Works.releases (h : Works p q s s') (hs : s.Releases q) : s'.Releases q :=
  h.keeps (P := (·.Releases q)) (fun _ _ => WorkStep.releases) hs

theorem Releases.mono {q' : FutureId → Prop} (h : s.Releases q) (hsub : ∀ f, q f → q' f) :
    s.Releases q' :=
  ⟨fun f g hg => hsub g (h.watchers f g hg), fun g hg => hsub g (h.handles g hg)⟩

theorem Releases.takes (h : s.Releases q) {handle : Handle Job} (ht : s.Takes handle s') :
    s'.Releases q := by
  refine ⟨fun f g hg => h.watchers f g ?_, fun g hg => h.handles g ?_⟩
  · unfold Scheduler.watchers future at hg ⊢
    rwa [← ht.futures]
  · exact ht.perm.mem_iff.mpr (List.mem_cons_of_mem _ hg)

/-! ## What is handled next -/

/-- A round begins with what was in the queue, and with what was put off until then. -/
theorem mem_queue_beginRound {h' : Handle Job} (hmem : h' ∈ s.beginRound.queue) :
    h' ∈ s.queue ∨ ∃ x ∈ s.timers, x.2 = h' ∧ isDue s.now x = true := by
  unfold queue beginRound at hmem
  simp only [List.append_nil] at hmem
  rcases List.mem_append.mp hmem with hready | hdue
  · exact .inl (List.mem_append_right _ hready)
  · obtain ⟨x, hx, rfl⟩ := List.mem_map.mp hdue
    exact .inr ⟨x, (List.takeWhile_sublist _).subset hx, rfl, List.mem_takeWhile_imp hx⟩

/-- What is handled at the present time was in the queue, or was put off until then. -/
theorem next?_spec (hnext : s.next? = some (h, s')) : s'.now = s.now ∧
    (∀ h', h' = h ∨ h' ∈ s'.queue → h' ∈ s.queue ∨ ∃ x ∈ s.timers, x.2 = h' ∧ isDue s.now x = true) ∧
    s'.timers.Sublist s.timers := by
  unfold next? at hnext
  simp only at hnext
  split at hnext
  · cases hnext
  · next h₁ round hround =>
      cases hnext
      have hbegin : (if s.round.isEmpty then s.beginRound else s).now = s.now ∧
          (∀ h' ∈ (if s.round.isEmpty then s.beginRound else s).queue,
            h' ∈ s.queue ∨ ∃ x ∈ s.timers, x.2 = h' ∧ isDue s.now x = true) ∧
          (if s.round.isEmpty then s.beginRound else s).timers.Sublist s.timers := by
        split
        · exact ⟨rfl, fun _ => mem_queue_beginRound, List.drop_sublist _ _⟩
        · exact ⟨rfl, fun h' hh' => .inl hh', List.Sublist.refl _⟩
      generalize (if s.round.isEmpty then s.beginRound else s) = s₁ at hround hbegin
      refine ⟨hbegin.1, fun h' hh' => hbegin.2.1 h' ?_, hbegin.2.2⟩
      unfold queue
      rw [hround, List.cons_append]
      exact List.mem_cons.mpr hh'

/-- Where nothing is handled at the present time, the queue is empty. -/
theorem queue_of_next?_none (hnext : s.next? = none) : s.queue = [] := by
  unfold next? at hnext
  simp only at hnext
  split at hnext
  · next hround =>
      split at hround
      · next hempty =>
          have hready := (List.append_eq_nil_iff.mp hround).1
          unfold queue
          rw [List.isEmpty_iff.mp hempty, hready]
          rfl
      · next hempty => exact absurd (List.isEmpty_iff.mpr hround) hempty
  · cases hnext

/-- What is handled next was in the queue, or was put off until then.  The clock moves only where the
queue is empty, and to the first timer. -/
theorem next_spec (hnext : s.next = some (h, s')) : s.now ≤ s'.now ∧
    (∀ h', h' = h ∨ h' ∈ s'.queue → h' ∈ s.queue ∨ ∃ x ∈ s.timers, x.2 = h' ∧ isDue s'.now x = true) ∧
    s'.timers.Sublist s.timers ∧
    (s'.now = s.now ∨ s.queue = [] ∧ ∃ x timers, s.timers = x :: timers ∧ s'.now = max s.now x.1) := by
  unfold next at hnext
  split at hnext
  · next step hstep =>
      cases hnext
      obtain ⟨hnow, horigin, htimers⟩ := next?_spec hstep
      rw [hnow]
      exact ⟨Nat.le_refl _, horigin, htimers, .inl rfl⟩
  · next hnone =>
      obtain ⟨s₁, hclock, hstep⟩ := Option.bind_eq_some_iff.mp hnext
      unfold advanceClock at hclock
      split at hclock
      · cases hclock
      · next x timers hx =>
          cases hclock
          obtain ⟨hnow, horigin, htimers⟩ := next?_spec hstep
          rw [hnow]
          exact ⟨Nat.le_max_left _ _, horigin, htimers,
            .inr ⟨queue_of_next?_none hnone, x, timers, hx, rfl⟩⟩

/-- What is handled next leaves a future to its release, and its release comes when it is ripe. -/
theorem Alarm.next (ha : s.Alarm found waiter due) (hnext : s.next = some (h, s')) :
    s'.Alarm found waiter due ∧ (h = .release waiter → s'.Ripe found due) := by
  obtain ⟨hnow, horigin, htimers, -⟩ := next_spec hnext
  have htakes := takes_next hnext
  have hmono (hripe : s.Ripe found due) : s'.Ripe found due :=
    hripe.mono (fun hfound => by rwa [htakes.outcome?]) hnow
  have hrelease (hmem : .release waiter = h ∨ .release waiter ∈ s'.queue) : s'.Ripe found due := by
    rcases horigin _ hmem with hqueue | ⟨x, hx, hrelease, hdue⟩
    · exact hmono (ha.queue hqueue)
    · refine .inr ?_
      rw [← ha.timers x hx hrelease]
      exact of_decide_eq_true hdue
  refine ⟨⟨ha.sorted.sublist htimers, fun f hf => ha.watchers f ?_,
    fun x hx => ha.timers x (htimers.subset hx), fun hmem => hrelease (.inr hmem), fun o ho => ?_⟩,
    fun heq => hrelease (.inl heq.symm)⟩
  · unfold Scheduler.watchers future at hf ⊢
    rwa [← htakes.futures]
  · rw [htakes.outcome?] at ho
    exact (ha.settled o ho).imp_right hmono

/-- What is handled next is the release of a future, or that is still going to be released. -/
theorem Armed.next (hs : s.Armed waiter) (hnext : s.next = some (h, s')) (hother : h ≠ .release waiter) :
    s'.Armed waiter := by
  have htakes := takes_next hnext
  intro hopen
  rw [htakes.outcome?] at hopen
  exact (List.mem_cons.mp (htakes.perm.mem_iff.mp (hs hopen))).resolve_left fun heq => hother heq.symm

/-- The clock does not go past the time of a release, as long as nobody was told of one. -/
theorem Alarm.next_now (ha : s.Alarm found waiter due) (hs : s.Armed waiter) (hle : s.now ≤ due)
    (htold : s.outcome? waiter ≠ none → s.queue ≠ []) (hnext : s.next = some (h, s')) :
    s'.now ≤ due := by
  obtain ⟨-, -, -, hclock⟩ := next_spec hnext
  rcases hclock with hsame | ⟨hqueue, x, timers, htimers, hmax⟩
  · rwa [hsame]
  · have hopen : s.outcome? waiter = none := by
      by_contra hsettled
      exact htold hsettled hqueue
    have hmem := hs hopen
    unfold handles at hmem
    rw [List.append_assoc] at hmem
    rcases List.mem_append.mp hmem with hmem | hmem
    · obtain ⟨y, hy, hrelease⟩ := List.mem_map.mp hmem
      have hfirst : x.1 ≤ y.1 := by
        have hsorted := ha.sorted
        unfold Sorted at hsorted
        rw [htimers] at hsorted hy
        rcases List.mem_cons.mp hy with rfl | hy
        · exact Nat.le_refl _
        · exact (List.pairwise_cons.mp hsorted).1 y hy
      rw [hmax]
      exact Nat.max_le.mpr ⟨hle, ha.timers y hy hrelease ▸ hfirst⟩
    · have hempty : Handle.release waiter ∈ s.queue := hmem
      rw [hqueue] at hempty
      cases hempty

/-- A future that can be released is settled by its release. -/
theorem release_eq (hk : s.kind f = .released) : s.release f = s.settle f .finished := by
  unfold Scheduler.release
  unfold kind at hk
  rw [hk]

/-- A future that is ripe may be released. -/
theorem Alarm.release (ha : s.Alarm found waiter due) (hripe : s.Ripe found due)
    (hk : s.kind waiter = .released) : (s.release waiter).Alarm found waiter due := by
  rw [release_eq hk]
  exact ha.settle fun _ => .inr hripe

theorem armed_release (hk : s.kind waiter = .released) : (s.release waiter).Armed waiter := by
  intro hopen
  rw [release_eq hk] at hopen
  by_cases hbefore : s.outcome? waiter = none
  · rw [outcome?_settle _ hbefore (lt_of_kind (by rw [hk]; simp)), if_pos rfl] at hopen
    cases hopen
  · exact absurd hopen (settled_settle hbefore _ _)

/-! ## How such a future is made -/

/-- What nobody is going to release may be released by anybody. -/
theorem Releases.alarm (hr : s.Releases (· ≠ waiter)) (hs : s.Sorted) (hopen : s.outcome? waiter = none) :
    s.Alarm found waiter due where
  sorted := hs
  watchers f hf := absurd rfl (hr.watchers f waiter hf)
  timers x hx hrelease := by
    refine absurd rfl (hr.handles waiter ?_)
    refine List.mem_append_left _ (List.mem_append_left _ ?_)
    exact List.mem_map.mpr ⟨x, hx, hrelease⟩
  queue hmem := by
    refine absurd rfl (hr.handles waiter ?_)
    unfold Scheduler.handles
    rw [List.append_assoc]
    exact List.mem_append_right _ hmem
  settled o ho := by cases hopen.symm.trans ho

/-- A future is released by a timer, too. -/
theorem Alarm.after {delay : Float} (ha : s.Alarm found waiter (s.now + Ticks.ofSeconds delay)) :
    (s.after delay (.release waiter)).Alarm found waiter (s.now + Ticks.ofSeconds delay) := by
  refine ⟨sorted_insertTimer _ _ ha.sorted, ha.watchers, fun x hx hrelease => ?_, ha.queue, ha.settled⟩
  rcases List.mem_cons.mp ((insertTimer_perm _ _ _).mem_iff.mp hx) with rfl | hx
  · rfl
  · exact ha.timers x hx hrelease

/-- A future is released by another one that is open. -/
theorem Alarm.watch (ha : s.Alarm found waiter due) (hopen : s.outcome? found = none)
    (hlt : found < s.futures.length) : (s.watch found (.release waiter)).Alarm found waiter due := by
  have hripe (hripe : s.Ripe found due) : (s.watch found (.release waiter)).Ripe found due := by
    unfold Ripe at hripe ⊢
    rwa [outcome?_watch, now_watch]
  refine ⟨?_, fun f hf => ?_, ?_, fun hqueue => ?_, fun o ho => ?_⟩
  · unfold Sorted
    rw [timers_watch]
    exact ha.sorted
  · rw [watchers_watch hopen hlt] at hf
    split at hf
    · next heq => exact heq
    · exact ha.watchers f hf
  · rw [timers_watch]
    exact ha.timers
  · rw [queue_watch, if_pos hopen, List.append_nil] at hqueue
    exact hripe (ha.queue hqueue)
  · rw [outcome?_watch] at ho
    exact (ha.settled o ho).imp_right hripe

/-- A timer is going to release a future. -/
theorem armed_after (delay : Float) : (s.after delay (.release waiter)).Armed waiter :=
  fun _ => (handles_after _ _).mem_iff.mpr (List.mem_cons_self ..)

/-- Whoever is settled releases those that watch it. -/
theorem armed_settle (o : Outcome) (hopen : s.outcome? f = none)
    (hmem : .release waiter ∈ s.watchers f) : (s.settle f o).Armed waiter := by
  intro _
  rw [handles_settle o hopen]
  exact List.mem_append_right _ (List.mem_map.mpr ⟨_, hmem, rfl⟩)

end Scheduler

end HotSpec
