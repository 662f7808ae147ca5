import HotSpec.Proofs.Scheduler.Groups
import Mathlib

/-!
# Cancelled tasks

To cancel a task is to cancel what it waits for, and with a future that waits for others all of
those.  So a cancellation only reaches tasks below the one that is cancelled.

Main results:

- Theorem `cancelSteps_below`: a cancellation is made of steps on tasks that it reaches.
- Theorems `CancelSteps.threads`, `CancelSteps.groups`: it keeps the scheduler sound.
-/

namespace HotSpec

namespace Scheduler

variable {Stack Job : Type} {s s' : Scheduler Stack Job} {hit : TaskId → Prop}

/-! ## Steps -/

/-- What a cancellation does at once, where it reaches some tasks only. -/
inductive CancelStep (hit : TaskId → Prop) : Scheduler Stack Job → Scheduler Stack Job → Prop
  /-- A signal is given up. -/
  | signal {s f} (h : s.kind f = .signal) : CancelStep hit s (s.settle f .stopped)
  /-- The wait of a task is given up. -/
  | awaited {s t f} (ht : hit t) (h : s.awaiting t = some f)
      (hall : ∀ members left stopping, s.kind f ≠ .all members left stopping) :
      CancelStep hit s (s.settle f .stopped)
  /-- A task is to be stopped at its next turn. -/
  | task {s t} (ht : hit t) : CancelStep hit s (s.stopNext t)
  /-- A task waits for the end of others that are cancelled. -/
  | group {s t g} (ht : hit t) (h : s.awaiting t = some g) : CancelStep hit s (s.markStopping g)

/-- What a cancellation does in turn. -/
def CancelSteps (hit : TaskId → Prop) : Scheduler Stack Job → Scheduler Stack Job → Prop :=
  Relation.ReflTransGen (CancelStep hit)

theorem CancelSteps.refl (s : Scheduler Stack Job) : CancelSteps hit s s :=
  Relation.ReflTransGen.refl

theorem CancelStep.steps (h : CancelStep hit s s') : CancelSteps hit s s' :=
  Relation.ReflTransGen.single h

theorem CancelSteps.trans {s₁ s₂ s₃ : Scheduler Stack Job} (h₁ : CancelSteps hit s₁ s₂)
    (h₂ : CancelSteps hit s₂ s₃) : CancelSteps hit s₁ s₃ := Relation.ReflTransGen.trans h₁ h₂

/-- A cancellation may reach more tasks. -/
theorem CancelSteps.mono {hit' : TaskId → Prop} (h : CancelSteps hit s s')
    (hsub : ∀ t, hit t → hit' t) : CancelSteps hit' s s' := by
  refine Relation.ReflTransGen.mono ?_ s s' h
  intro s₁ s₂ hstep
  cases hstep with
  | signal hk => exact .signal hk
  | awaited ht hwait hall => exact .awaited (hsub _ ht) hwait hall
  | task ht => exact .task (hsub _ ht)
  | group ht hwait => exact .group (hsub _ ht) hwait

/-- What every step keeps, a cancellation keeps. -/
theorem CancelSteps.keeps {P : Scheduler Stack Job → Prop} (h : CancelSteps hit s s')
    (hstep : ∀ s s', CancelStep hit s s' → P s → P s') (hs : P s) : P s' := by
  induction h with
  | refl => exact hs
  | tail _ hlast ih => exact hstep _ _ hlast ih

/-! ## What a cancellation does not change -/

/-- Two schedulers whose tasks wait for the same futures, of the same kinds. -/
structure SameWaits (s s' : Scheduler Stack Job) : Prop where
  form : ∀ f, (s'.kind f).form = (s.kind f).form
  awaiting : ∀ t, s'.awaiting t = s.awaiting t
  ending? : ∀ t, s'.ending? t = s.ending? t
  stack? : ∀ t, s'.stack? t = s.stack? t
  length : s'.futures.length = s.futures.length
  settled : ∀ f o, s.outcome? f = some o → s'.outcome? f = some o

theorem SameWaits.refl (s : Scheduler Stack Job) : s.SameWaits s :=
  ⟨fun _ => rfl, fun _ => rfl, fun _ => rfl, fun _ => rfl, rfl, fun _ _ h => h⟩

theorem SameWaits.trans {s₁ s₂ s₃ : Scheduler Stack Job} (h₁ : s₁.SameWaits s₂)
    (h₂ : s₂.SameWaits s₃) : s₁.SameWaits s₃ where
  form f := (h₂.form f).trans (h₁.form f)
  awaiting t := (h₂.awaiting t).trans (h₁.awaiting t)
  ending? t := (h₂.ending? t).trans (h₁.ending? t)
  stack? t := (h₂.stack? t).trans (h₁.stack? t)
  length := h₂.length.trans h₁.length
  settled f o h := h₂.settled f o (h₁.settled f o h)

theorem SameWaits.members (h : s.SameWaits s') (f : FutureId) :
    (s'.kind f).members = (s.kind f).members := by
  rw [← FutureKind.members_form, h.form, FutureKind.members_form]

theorem SameWaits.isMember (h : s.SameWaits s') (f : FutureId) :
    (s'.kind f).isMember = (s.kind f).isMember := by
  rw [← FutureKind.isMember_form, h.form, FutureKind.isMember_form]

theorem kind_eq_task {k : FutureKind} {t : TaskId} : k.form = .task t ↔ k = .task t := by
  cases k <;> simp [FutureKind.form]

theorem SameWaits.task (h : s.SameWaits s') (f : FutureId) (t : TaskId) :
    s'.kind f = .task t ↔ s.kind f = .task t := by
  rw [← kind_eq_task, h.form, kind_eq_task]

theorem sameWaits_settle (s : Scheduler Stack Job) (f : FutureId) (o : Outcome) :
    s.SameWaits (s.settle f o) where
  form g := by rw [kind_settle]
  awaiting t := awaiting_settle f o t
  ending? t := ending?_settle f o t
  stack? t := by
    unfold Scheduler.stack? task?
    rw [tasks_settle]
  length := length_settle f o
  settled g o' h := outcome?_settle_of_some h f o

theorem sameWaits_stopNext (s : Scheduler Stack Job) (t : TaskId) : s.SameWaits (s.stopNext t) where
  form f := by
    unfold kind
    rw [future_stopNext]
  awaiting u := awaiting_stopNext t u
  ending? u := ending?_stopNext t u
  stack? u := stack?_stopNext t u
  length := length_stopNext t
  settled f o h := by
    unfold outcome? at h ⊢
    rw [future_stopNext]
    exact h

theorem sameWaits_markStopping (s : Scheduler Stack Job) (g : FutureId) :
    s.SameWaits (s.markStopping g) := by
  cases hk : s.kind g with
  | all members left stopping =>
      rw [markStopping_all hk]
      have hlt : g < s.futures.length := lt_of_kind (by rw [hk]; simp)
      refine ⟨?_, fun _ => rfl, fun _ => rfl, fun _ => rfl, length_setKind g _, ?_⟩
      · intro f
        rw [kind_setKind _ hlt]
        split
        · next hf =>
            rw [hf, hk]
            rfl
        · rfl
      · intro f o h
        rw [outcome?_setKind]
        exact h
  | signal | released | task t | firstFault members left =>
      unfold kind at hk
      have heq : s.markStopping g = s := by simp [markStopping, hk]
      rw [heq]
      exact .refl s

theorem CancelStep.sameWaits (h : CancelStep hit s s') : s.SameWaits s' := by
  cases h with
  | signal h => exact sameWaits_settle s _ _
  | awaited ht h hall => exact sameWaits_settle s _ _
  | task ht => exact sameWaits_stopNext s _
  | group ht h => exact sameWaits_markStopping s _

theorem CancelSteps.sameWaits (h : CancelSteps hit s s') : s.SameWaits s' := by
  induction h with
  | refl => exact .refl s
  | tail _ hlast ih => exact ih.trans hlast.sameWaits

/-! ## How far a cancellation reaches -/

/-- Tasks with all those that they wait for, in a scheduler where tasks wait for other tasks among
several futures only. -/
structure Closed (s : Scheduler Stack Job) (hit : TaskId → Prop) : Prop where
  below : ∀ t g m u, hit t → s.awaiting t = some g → m ∈ (s.kind g).members →
    s.kind m = .task u → hit u
  member : ∀ g m, m ∈ (s.kind g).members → (s.kind m).isMember = true
  awaited : ∀ t f, s.awaiting t = some f → (s.kind f).isMember = false

theorem Closed.mono (h : s.Closed hit) (hsame : s.SameWaits s') : s'.Closed hit where
  below t g m u ht hwait hm hk := by
    rw [hsame.awaiting] at hwait
    rw [hsame.members] at hm
    rw [hsame.task] at hk
    exact h.below t g m u ht hwait hm hk
  member g m hm := by
    rw [hsame.members] at hm
    rw [hsame.isMember]
    exact h.member g m hm
  awaited t f hwait := by
    rw [hsame.awaiting] at hwait
    rw [hsame.isMember]
    exact h.awaited t f hwait

/-- Whether a cancellation may begin at a future. -/
structure Entry (s : Scheduler Stack Job) (hit : TaskId → Prop) (f : FutureId) : Prop where
  task : ∀ t, s.kind f = .task t → hit t
  waits : (s.kind f).isMember = true ∨ ∃ t, hit t ∧ s.awaiting t = some f

theorem Entry.mono {f : FutureId} (h : s.Entry hit f) (hsame : s.SameWaits s') :
    s'.Entry hit f where
  task t hk := h.task t ((hsame.task f t).mp hk)
  waits := by
    rcases h.waits with hm | ⟨t, ht, hwait⟩
    · exact .inl ((hsame.isMember f).trans hm)
    · exact .inr ⟨t, ht, (hsame.awaiting t).trans hwait⟩

/-- Cancel futures in turn, with the news whether any of them is going to settle. -/
def cancelEach (fuel : Nat) (members : List FutureId) (start : Bool × Scheduler Stack Job) :
    Bool × Scheduler Stack Job :=
  members.foldl (fun (any, s) member =>
    let (asked, s) := cancelWithin fuel member s
    (any || asked, s)) start

/-- If the cancellation of one future is made of steps, so is that of several. -/
theorem cancelSteps_cancelEach {fuel : Nat} {members : List FutureId} {any : Bool}
    (hone : ∀ (s : Scheduler Stack Job) (f : FutureId), s.Closed hit → s.Entry hit f →
      CancelSteps hit s (cancelWithin fuel f s).2)
    (hclosed : s.Closed hit) (hentry : ∀ m ∈ members, s.Entry hit m) :
    CancelSteps hit s (cancelEach fuel members (any, s)).2 := by
  induction members generalizing s any with
  | nil => exact .refl s
  | cons m ms ih =>
      have hfirst := hone s m hclosed (hentry m (List.mem_cons_self ..))
      have hsame := hfirst.sameWaits
      refine hfirst.trans (ih (hclosed.mono hsame) ?_)
      intro m' hm'
      exact (hentry m' (List.mem_cons_of_mem _ hm')).mono hsame

/-- A cancellation is made of steps on tasks that it reaches. -/
theorem cancelSteps_cancelWithin (fuel : Nat) (f : FutureId) (hclosed : s.Closed hit)
    (hentry : s.Entry hit f) : CancelSteps hit s (cancelWithin fuel f s).2 := by
  induction fuel generalizing f s with
  | zero => exact .refl s
  | succ fuel ih =>
      unfold cancelWithin
      split
      · exact .refl s
      have hgiven (hall : ∀ members left stopping, s.kind f ≠ .all members left stopping)
          (htask : ∀ t, s.kind f ≠ .task t) : CancelSteps hit s (s.settle f .stopped) := by
        rcases hentry.waits with hm | ⟨t, ht, hwait⟩
        · refine (CancelStep.signal ?_).steps
          cases hk : s.kind f <;> simp_all [FutureKind.isMember]
        · exact (CancelStep.awaited ht hwait hall).steps
      dsimp only
      rw [show (s.future f).kind = s.kind f from rfl]
      cases hk : s.kind f with
      | signal | released | firstFault members left =>
          exact hgiven (by rw [hk]; simp) (by rw [hk]; simp)
      | all members left stopping =>
          have hwaits : ∃ t, hit t ∧ s.awaiting t = some f := by
            refine hentry.waits.resolve_left ?_
            rw [hk]
            simp [FutureKind.isMember]
          obtain ⟨t, ht, hwait⟩ := hwaits
          have hmembers : ∀ m ∈ members, m ∈ (s.kind f).members := by
            intro m hm
            rw [hk]
            exact hm
          have heach : CancelSteps hit s (cancelEach fuel members (false, s)).2 := by
            refine cancelSteps_cancelEach (fun s f h₁ h₂ => ih f h₁ h₂) hclosed ?_
            intro m hm
            refine ⟨?_, .inl (hclosed.member f m (hmembers m hm))⟩
            intro u hu
            exact hclosed.below t f m u ht hwait (hmembers m hm) hu
          change CancelSteps hit s (if (cancelEach fuel members (false, s)).1 then
            (cancelEach fuel members (false, s)).2.markStopping f
            else (cancelEach fuel members (false, s)).2)
          split
          · exact heach.trans (CancelStep.group ht ((heach.sameWaits.awaiting t).trans hwait)).steps
          · exact heach
      | task t =>
          have ht := hentry.task t hk
          dsimp only
          rw [show (s.task? t).bind Task.awaiting = s.awaiting t from rfl]
          cases hwait : s.awaiting t with
          | none => exact (CancelStep.task ht).steps
          | some awaited =>
              have hnext : CancelSteps hit s (cancelWithin fuel awaited s).2 := by
                refine ih awaited hclosed ⟨?_, .inr ⟨t, ht, hwait⟩⟩
                intro u hu
                have hmember := hclosed.awaited t awaited hwait
                rw [hu] at hmember
                cases hmember
              change CancelSteps hit s (if (cancelWithin fuel awaited s).1 then
                (cancelWithin fuel awaited s).2 else (cancelWithin fuel awaited s).2.stopNext t)
              split
              · exact hnext
              · exact hnext.trans (CancelStep.task ht).steps

theorem cancelSteps_cancelAll {fs : List FutureId} (hclosed : s.Closed hit)
    (hentry : ∀ f ∈ fs, s.Entry hit f) : CancelSteps hit s (s.cancelAll fs) := by
  induction fs generalizing s with
  | nil => exact .refl s
  | cons f fs ih =>
      have hfirst : CancelSteps hit s (s.cancel f).2 :=
        cancelSteps_cancelWithin _ f hclosed (hentry f (List.mem_cons_self ..))
      have hsame := hfirst.sameWaits
      refine hfirst.trans (ih (hclosed.mono hsame) ?_)
      intro f' hf'
      exact (hentry f' (List.mem_cons_of_mem _ hf')).mono hsame

/-! ## Tasks below others -/

/-- The tasks that a cancellation of a future reaches. -/
inductive Below (s : Scheduler Stack Job) (f : FutureId) : TaskId → Prop
  | here {t} (h : s.kind f = .task t) : Below s f t
  | further {t g m u} (h : Below s f t) (hwait : s.awaiting t = some g)
      (hm : m ∈ (s.kind g).members) (hk : s.kind m = .task u) : Below s f u

/-- A cancellation of several futures reaches the tasks below them. -/
theorem cancelSteps_below {busy : Option TaskId} {fs : List FutureId} (hs : s.Threads busy)
    (hg : s.Groups) (hfs : ∀ f ∈ fs, (s.kind f).isMember = true) :
    CancelSteps (fun u => ∃ f ∈ fs, s.Below f u) s (s.cancelAll fs) := by
  refine cancelSteps_cancelAll ⟨?_, fun g m hm => (hg.member g m hm).1, hs.awaited⟩ ?_
  · rintro u g m v ⟨f, hf, hbelow⟩ hwait hm hk
    exact ⟨f, hf, hbelow.further hwait hm hk⟩
  · intro f hf
    exact ⟨fun u hk => ⟨f, hf, .here hk⟩, .inl (hfs f hf)⟩

/-! ## Soundness -/

theorem CancelSteps.threads {busy : Option TaskId} (h : CancelSteps hit s s')
    (hs : s.Threads busy) : s'.Threads busy := by
  refine h.keeps (P := fun s => s.Threads busy) ?_ hs
  intro s₁ s₂ hstep h₁
  cases hstep with
  | signal hk => exact h₁.settle _ _
  | awaited ht hwait hall => exact h₁.settle _ _
  | task ht => exact h₁.stopNext _
  | @group t g ht hwait =>
      cases hk : s₁.kind g with
      | all members left stopping =>
          rw [markStopping_all hk]
          exact h₁.setKind (by rw [hk]; rfl) rfl
      | signal | released | task u | firstFault members left =>
          unfold kind at hk
          have heq : s₁.markStopping g = s₁ := by simp [markStopping, hk]
          rw [heq]
          exact h₁

theorem CancelSteps.groups (h : CancelSteps hit s s') (hs : s.Groups) : s'.Groups := by
  refine h.keeps (P := Groups) ?_ hs
  intro s₁ s₂ hstep h₁
  cases hstep with
  | signal hk => exact h₁.settle_of_not_group (by rw [hk]; rfl) _
  | awaited ht hwait hall => exact h₁.settle_stopped hall
  | task ht => exact h₁.stopNext _
  | group ht hwait => exact h₁.markStopping _

end Scheduler

end HotSpec
