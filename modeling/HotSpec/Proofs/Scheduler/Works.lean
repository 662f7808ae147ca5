import HotSpec.Proofs.Scheduler.Flow

/-!
# Elementary operations

All that is ever done to a scheduler while something is handled is made of a few operations: futures
are made, watched and settled, timers are set, and tasks begin or go on with something else.  None of
them moves the clock, so what is said of futures and timers has to be checked for these operations only.

Main definitions:

- `Scheduler.WorkStep`, `Scheduler.Works`: elementary operations, by which only some futures are settled
  in some ways, and only some come to be released.

Main results:

- Theorems `works_gather`, `works_tell`, `works_finish`, `SignalSteps.works`: operations that are made
  of elementary ones.
- Theorem `works_cancel`: so is a cancellation, which reaches only futures that are waited for.
- Theorems `Works.outcome?`, `Works.members`, `Works.now`, `Works.sorted`: what elementary operations
  keep.
-/

namespace HotSpec

namespace Scheduler

variable {Stack Job : Type} {s s' s₁ s₂ s₃ : Scheduler Stack Job} {p : FutureId → Outcome → Prop}
  {q : FutureId → Prop} {f g : FutureId} {t : TaskId} {o : Outcome}

/-- An elementary operation by which only some futures are settled in some ways, and only some come to
be released.  Futures that others wait for are those that may be stopped. -/
inductive WorkStep (p : FutureId → Outcome → Prop) (q : FutureId → Prop) :
    Scheduler Stack Job → Scheduler Stack Job → Prop
  | settle {s : Scheduler Stack Job} {f : FutureId} {o : Outcome} (hp : p f o) :
      WorkStep p q s (s.settle f o)
  | newFuture {s : Scheduler Stack Job} (k : FutureKind) (hk : ∀ m ∈ k.members, p m .stopped) :
      WorkStep p q s (s.newFuture k).2
  | watch {s : Scheduler Stack Job} {f : FutureId} {w : Watcher} (hw : ∀ g, w = .release g → q g) :
      WorkStep p q s (s.watch f w)
  | after {s : Scheduler Stack Job} {delay : Float} {h : Handle Job} (hh : ∀ g, h = .release g → q g) :
      WorkStep p q s (s.after delay h)
  | turn {s : Scheduler Stack Job} {t : TaskId} : WorkStep p q s (s.enqueue [.turn t])
  | setKind {s : Scheduler Stack Job} {g : FutureId} (k : FutureKind)
      (hk : k.members = (s.kind g).members) : WorkStep p q s (s.setKind g k)
  | tasks {s : Scheduler Stack Job} (tasks : List (Task Stack)) : WorkStep p q s { s with tasks }

/-- Elementary operations in turn. -/
def Works (p : FutureId → Outcome → Prop) (q : FutureId → Prop) :
    Scheduler Stack Job → Scheduler Stack Job → Prop := Relation.ReflTransGen (WorkStep p q)

theorem Works.refl (s : Scheduler Stack Job) : Works p q s s := Relation.ReflTransGen.refl

theorem Works.trans (h₁ : Works p q s₁ s₂) (h₂ : Works p q s₂ s₃) : Works p q s₁ s₃ :=
  Relation.ReflTransGen.trans h₁ h₂

theorem WorkStep.works (h : WorkStep p q s s') : Works p q s s' := Relation.ReflTransGen.single h

/-- What every elementary operation keeps, all of them keep. -/
theorem Works.keeps {P : Scheduler Stack Job → Prop} (h : Works p q s s')
    (hstep : ∀ s s', WorkStep p q s s' → P s → P s') (hs : P s) : P s' := by
  induction h with
  | refl => exact hs
  | tail _ hlast ih => exact hstep _ _ hlast ih

/-! ## What elementary operations keep -/

theorem now_settle (f : FutureId) (o : Outcome) : (s.settle f o).now = s.now := by
  unfold settle
  simp only
  split <;> rfl

theorem now_watch (f : FutureId) (w : Watcher) : (s.watch f w).now = s.now := by
  unfold watch
  simp only
  split <;> rfl

/-- Elementary operations do not move the clock. -/
theorem Works.now (h : Works p q s s') : s'.now = s.now := by
  refine h.keeps (P := fun s' => s'.now = s.now) (fun s₁ s₂ hstep h₁ => ?_) rfl
  rw [← h₁]
  cases hstep with
  | settle => exact now_settle _ _
  | watch => exact now_watch _ _
  | newFuture | after | turn | setKind | tasks => rfl

/-- A future that is not settled keeps its outcome. -/
theorem Works.outcome? (h : Works p q s s') (hf : ∀ o, ¬p f o) : s'.outcome? f = s.outcome? f := by
  refine h.keeps (P := fun s' => s'.outcome? f = s.outcome? f) (fun s₁ s₂ hstep h₁ => ?_) rfl
  rw [← h₁]
  cases hstep with
  | @settle g o hp =>
      refine outcome?_settle_of_ne ?_ o
      rintro rfl
      exact hf o hp
  | newFuture k hk => exact outcome?_newFuture k f
  | watch => exact outcome?_watch _ _ f
  | setKind k hk => exact outcome?_setKind _ _ f
  | after | turn | tasks => rfl

/-- A timer is put behind all that come before it. -/
theorem sorted_insertTimer {timers : List (Ticks × Handle Job)} (deadline : Ticks) (h : Handle Job)
    (hsorted : timers.Pairwise fun x y => x.1 ≤ y.1) :
    (insertTimer deadline h timers).Pairwise fun x y => x.1 ≤ y.1 := by
  induction timers with
  | nil => exact List.pairwise_singleton _ _
  | cons timer timers ih =>
      obtain ⟨hfirst, hrest⟩ := List.pairwise_cons.mp hsorted
      unfold insertTimer
      split
      · next hlt =>
          refine List.pairwise_cons.mpr ⟨fun y hy => ?_, hsorted⟩
          rcases List.mem_cons.mp hy with rfl | hy
          · exact Nat.le_of_lt hlt
          · exact Nat.le_trans (Nat.le_of_lt hlt) (hfirst y hy)
      · next hle =>
          refine List.pairwise_cons.mpr ⟨fun y hy => ?_, ih hrest⟩
          rcases List.mem_cons.mp ((insertTimer_perm _ _ _).mem_iff.mp hy) with rfl | hy
          · exact Nat.not_lt.mp hle
          · exact hfirst y hy

theorem timers_settle (f : FutureId) (o : Outcome) : (s.settle f o).timers = s.timers := by
  unfold settle
  simp only
  split <;> rfl

theorem timers_watch (f : FutureId) (w : Watcher) : (s.watch f w).timers = s.timers := by
  unfold watch
  simp only
  split <;> rfl

/-- Whether the timers stand in the order of their times. -/
def Sorted (s : Scheduler Stack Job) : Prop := s.timers.Pairwise fun x y => x.1 ≤ y.1

theorem WorkStep.sorted (h : WorkStep p q s s') (hs : s.Sorted) : s'.Sorted := by
  unfold Sorted
  cases h with
  | settle => rwa [timers_settle]
  | watch => rwa [timers_watch]
  | after => exact sorted_insertTimer _ _ hs
  | newFuture | turn | setKind | tasks => exact hs

/-- Timers stay in the order of their times. -/
theorem Works.sorted (h : Works p q s s') (hs : s.Sorted) : s'.Sorted :=
  h.keeps (fun _ _ => WorkStep.sorted) hs

/-- No others come to be waited for. -/
theorem WorkStep.members (h : WorkStep p q s s') (hs : ∀ g, ∀ m ∈ (s.kind g).members, p m .stopped) :
    ∀ g, ∀ m ∈ (s'.kind g).members, p m .stopped := by
  intro g m hm
  cases h with
  | settle =>
      rw [kind_settle] at hm
      exact hs g m hm
  | newFuture k hk =>
      rw [kind_newFuture] at hm
      split at hm
      · exact hk m hm
      · exact hs g m hm
  | watch =>
      rw [kind_watch] at hm
      exact hs g m hm
  | @setKind f k hk =>
      by_cases hlt : f < s.futures.length
      · rw [kind_setKind k hlt] at hm
        split at hm
        · exact hs f m (hk ▸ hm)
        · exact hs g m hm
      · have hsame : s.setKind f k = s := by
          unfold Scheduler.setKind setFuture
          rw [List.set_eq_of_length_le (Nat.not_lt.mp hlt)]
        rw [hsame] at hm
        exact hs g m hm
  | after | turn | tasks => exact hs g m hm

/-- No others come to be waited for. -/
theorem Works.members (h : Works p q s s') (hs : ∀ g, ∀ m ∈ (s.kind g).members, p m .stopped) :
    ∀ g, ∀ m ∈ (s'.kind g).members, p m .stopped :=
  h.keeps (P := fun s => ∀ g, ∀ m ∈ (s.kind g).members, p m .stopped) (fun _ _ => WorkStep.members) hs

/-! ## Operations that are made of elementary ones -/

theorem works_setTask (t : TaskId) (task : Task Stack) : Works p q s (s.setTask t task) :=
  (WorkStep.tasks _).works

theorem works_pause (t : TaskId) (stack : Stack) : Works p q s (s.pause t stack) := by
  unfold pause
  split
  · exact .refl s
  · exact (works_setTask _ _).trans WorkStep.turn.works

theorem works_park (t : TaskId) (f : FutureId) (stack : Stack) : Works p q s (s.park t f stack) := by
  unfold park
  split
  · exact .refl s
  · exact (WorkStep.watch nofun).works.trans (works_setTask _ _)

theorem works_beginTurn [Inhabited Stack] {given : Stack × Outcome}
    (h : s.beginTurn t o = some (given, s')) : Works p q s s' := by
  obtain ⟨task, -, heq⟩ := Option.map_eq_some_iff.mp h
  cases heq
  exact works_setTask _ _

theorem works_spawn (stack : Stack) : Works p q s (s.spawn stack).2 := by
  have hnew : Works p q s (s.newTask stack).2 :=
    (WorkStep.newFuture (.task s.tasks.length) (by simp [FutureKind.members])).works.trans (WorkStep.tasks _).works
  exact hnew.trans WorkStep.turn.works

theorem works_gather {k : FutureKind} (members : List FutureId)
    (hk : ∀ m ∈ k.members, p m .stopped) :
    Works p q s (s.gather k members).2 := by
  rw [gather_eq]
  refine (WorkStep.newFuture k hk).works.trans ?_
  generalize (s.newFuture k).2 = s₁
  unfold watchAll
  induction members generalizing s₁ with
  | nil => exact .refl _
  | cons m members ih => exact (WorkStep.watch nofun).works.trans (ih _)

/-- A future that waits for several others may be settled by what it is told. -/
theorem works_tell (g m : FutureId) (hg : (s.kind g).isGroup = true → ∀ o, p g o) :
    Works p q s (s.tell g m) := by
  have hcount {c : Prop} [Decidable c] {k : FutureKind} {o : Outcome} (hp : p g o)
      (hk : k.members = (s.kind g).members) :
      Works p q s (if c then (s.setKind g k).settle g o else s.setKind g k) := by
    split
    · exact (WorkStep.setKind k hk).works.trans (WorkStep.settle hp).works
    · exact (WorkStep.setKind k hk).works
  cases hkind : s.kind g with
  | firstFault members left =>
      rw [tell_firstFault hkind]
      exact hcount (hg (by rw [hkind]; rfl) _) (by rw [hkind]; rfl)
  | all members left stopping =>
      rw [tell_all hkind]
      exact hcount (hg (by rw [hkind]; rfl) _) (by rw [hkind]; rfl)
  | signal | released | task t =>
      unfold kind at hkind
      have hsame : s.tell g m = s := by simp [tell, hkind]
      rw [hsame]
      exact .refl s

theorem works_release (f : FutureId) (hf : s.kind f = .released → p f .finished) :
    Works p q s (s.release f) := by
  unfold release
  split
  · next hk => exact (WorkStep.settle (hf hk)).works
  · exact .refl s

theorem works_finish {busy : Option TaskId} (hs : s.Threads busy) (t : TaskId) (o : Outcome)
    (hf : ∀ f, s.kind f = .task t → p f o) : Works p q s (s.finish t o) := by
  unfold finish
  split
  · exact .refl s
  · next task htask =>
      have hending : s.ending? t = some task.future := by
        unfold ending?
        rw [htask]
        rfl
      exact (WorkStep.settle (hf _ ((hs.ending t task.future).mp hending))).works

/-- Signals are settled and jobs are put off by elementary operations. -/
theorem SignalSteps.works (h : s.SignalSteps s') (hf : ∀ f, s.kind f = .signal → ∀ o, p f o) :
    Works p q s s' := by
  induction h with
  | refl => exact .refl s
  | tail hfirst hlast ih =>
      refine ih.trans ?_
      cases hlast with
      | settle hk =>
          rw [SignalSteps.kind hfirst] at hk
          exact (WorkStep.settle (hf _ hk _)).works
      | after => exact (WorkStep.after nofun).works

/-! ## Cancellations -/

/-- Whether all futures that others or tasks wait for may be stopped. -/
structure Reached (s : Scheduler Stack Job) (p : FutureId → Outcome → Prop) : Prop where
  members : ∀ g, ∀ m ∈ (s.kind g).members, p m .stopped
  awaited : ∀ t f, s.awaiting t = some f → p f .stopped

theorem Reached.mono (h : s.Reached p) (hsame : s.SameWaits s') : s'.Reached p where
  members g m hm := h.members g m (hsame.members g ▸ hm)
  awaited t f hf := h.awaited t f (hsame.awaiting t ▸ hf)

theorem works_stopNext (t : TaskId) : Works p q s (s.stopNext t) := by
  unfold stopNext
  split
  · exact works_setTask _ _
  · exact .refl s

theorem works_markStopping (g : FutureId) : Works p q s (s.markStopping g) := by
  cases hkind : s.kind g with
  | all members left stopping =>
      rw [markStopping_all hkind]
      exact (WorkStep.setKind _ (by rw [hkind]; rfl)).works
  | signal | released | task t | firstFault members left =>
      unfold kind at hkind
      have hsame : s.markStopping g = s := by simp [markStopping, hkind]
      rw [hsame]
      exact .refl s

/-- If each of several cancellations is made of elementary operations, so are all. -/
theorem works_cancelEach {fuel : Nat} {members : List FutureId} {any : Bool}
    (hone : ∀ (s : Scheduler Stack Job) (f : FutureId), s.Reached p → p f .stopped →
      Works p q s (cancelWithin fuel f s).2 ∧ s.SameWaits (cancelWithin fuel f s).2)
    (hs : s.Reached p) (hmembers : ∀ m ∈ members, p m .stopped) :
    Works p q s (cancelEach fuel members (any, s)).2 ∧
      s.SameWaits (cancelEach fuel members (any, s)).2 := by
  induction members generalizing s any with
  | nil => exact ⟨.refl s, .refl s⟩
  | cons m members ih =>
      obtain ⟨hfirst, hsame⟩ := hone s m hs (hmembers m (List.mem_cons_self ..))
      obtain ⟨hrest, hsame'⟩ := ih (hs.mono hsame) (fun m' hm' => hmembers m' (List.mem_cons_of_mem _ hm'))
      exact ⟨hfirst.trans hrest, hsame.trans hsame'⟩

theorem works_cancelWithin (fuel : Nat) (f : FutureId) (hs : s.Reached p) (hf : p f .stopped) :
    Works p q s (cancelWithin fuel f s).2 ∧ s.SameWaits (cancelWithin fuel f s).2 := by
  induction fuel generalizing f s with
  | zero => exact ⟨.refl s, .refl s⟩
  | succ fuel ih =>
      unfold cancelWithin
      split
      · exact ⟨.refl s, .refl s⟩
      dsimp only
      rw [show (s.future f).kind = s.kind f from rfl]
      cases hk : s.kind f with
      | signal | released | firstFault members left =>
          exact ⟨(WorkStep.settle hf).works, sameWaits_settle s f _⟩
      | all members left stopping =>
          obtain ⟨heach, hsame⟩ : Works p q s (cancelEach fuel members (false, s)).2 ∧
              s.SameWaits (cancelEach fuel members (false, s)).2 :=
            works_cancelEach (fun s f h₁ h₂ => ih f h₁ h₂) hs fun m hm =>
              hs.members f m (by rw [hk]; exact hm)
          change Works p q s (if (cancelEach fuel members (false, s)).1 then
            (cancelEach fuel members (false, s)).2.markStopping f
            else (cancelEach fuel members (false, s)).2) ∧
              s.SameWaits (if (cancelEach fuel members (false, s)).1 then
                (cancelEach fuel members (false, s)).2.markStopping f
                else (cancelEach fuel members (false, s)).2)
          split
          · exact ⟨heach.trans (works_markStopping f), hsame.trans (sameWaits_markStopping _ f)⟩
          · exact ⟨heach, hsame⟩
      | task t =>
          dsimp only
          rw [show (s.task? t).bind Task.awaiting = s.awaiting t from rfl]
          cases hwait : s.awaiting t with
          | none => exact ⟨works_stopNext t, sameWaits_stopNext s t⟩
          | some awaited =>
              obtain ⟨hnext, hsame⟩ := ih awaited hs (hs.awaited t awaited hwait)
              change Works p q s (if (cancelWithin fuel awaited s).1 then
                (cancelWithin fuel awaited s).2 else (cancelWithin fuel awaited s).2.stopNext t) ∧
                  s.SameWaits (if (cancelWithin fuel awaited s).1 then
                    (cancelWithin fuel awaited s).2 else (cancelWithin fuel awaited s).2.stopNext t)
              split
              · exact ⟨hnext, hsame⟩
              · exact ⟨hnext.trans (works_stopNext t), hsame.trans (sameWaits_stopNext _ t)⟩

/-- A cancellation settles only futures that are waited for, and those that it begins with. -/
theorem works_cancel (f : FutureId) (hs : s.Reached p) (hf : p f .stopped) :
    Works p q s (s.cancel f).2 ∧ s.SameWaits (s.cancel f).2 := works_cancelWithin _ f hs hf

theorem works_cancelAll {fs : List FutureId} (hs : s.Reached p) (hfs : ∀ f ∈ fs, p f .stopped) :
    Works p q s (s.cancelAll fs) := by
  induction fs generalizing s with
  | nil => exact .refl s
  | cons f fs ih =>
      obtain ⟨hfirst, hsame⟩ := works_cancel (q := q) f hs (hfs f (List.mem_cons_self ..))
      exact hfirst.trans (ih (hs.mono hsame) fun f' hf' => hfs f' (List.mem_cons_of_mem _ hf'))

end Scheduler

end HotSpec
