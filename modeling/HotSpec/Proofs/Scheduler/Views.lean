import HotSpec.Engine.Scheduler
import Mathlib

/-!
# Views of a scheduler

What can be seen of a scheduler: the kind, the outcome and the watchers of a future, what a task
waits for, and everything that is still to be handled.  Each operation is described by what it does
to these views.

Main results:

- Theorems `kind_settle`, `outcome?_settle`, `watchers_settle`, `handles_settle`: settled futures.
- Theorems `watchers_watchAll`, `handles_watchAll`: futures that watch several others.
- Theorem `handles_next?`: what is handled next is taken from what is to be handled.
-/

namespace HotSpec

/-- The futures that a future waits for. -/
def FutureKind.members : FutureKind → List FutureId
  | .firstFault members _ | .all members _ _ => members
  | _ => []

/-- How many futures a future still waits for. -/
def FutureKind.left? : FutureKind → Option Nat
  | .firstFault _ left | .all _ left _ => some left
  | _ => none

/-- A kind without what changes of it: how many futures are left, and whether they are stopping. -/
def FutureKind.form : FutureKind → FutureKind
  | .firstFault members _ => .firstFault members 0
  | .all members _ _ => .all members 0 false
  | k => k

@[simp]
theorem FutureKind.members_form (k : FutureKind) : k.form.members = k.members := by cases k <;> rfl

/-- Whether a future is settled by futures that it waits for. -/
def FutureKind.isGroup (k : FutureKind) : Bool := k.left?.isSome

/-- Whether a future can be one of those that another one waits for. -/
def FutureKind.isMember : FutureKind → Bool
  | .signal | .task _ => true
  | _ => false

@[simp]
theorem FutureKind.isMember_form (k : FutureKind) : k.form.isMember = k.isMember := by
  cases k <;> rfl

/-- The task that watches a future. -/
def Watcher.task? : Watcher → Option TaskId
  | .task t => some t
  | _ => none

/-- The future that watches another one among several. -/
def Watcher.group? : Watcher → Option FutureId
  | .member g => some g
  | _ => none

namespace Handle

variable {Job : Type}

/-- The task that gets a turn, with the future that it has waited for. -/
def turn? : Handle Job → Option (TaskId × Option FutureId)
  | .turn t => some (t, none)
  | .wake t f => some (t, some f)
  | _ => none

/-- The news for a future that waits for several others. -/
def news? : Handle Job → Option (FutureId × FutureId)
  | .told g m => some (g, m)
  | _ => none

end Handle

namespace Scheduler

variable {Stack Job : Type} {s : Scheduler Stack Job}

/-! ## Views -/

/-- What settles a future. -/
def kind (s : Scheduler Stack Job) (f : FutureId) : FutureKind := (s.future f).kind

/-- Who watches a future. -/
def watchers (s : Scheduler Stack Job) (f : FutureId) : List Watcher := (s.future f).watchers

/-- The future that a task waits for. -/
def awaiting (s : Scheduler Stack Job) (t : TaskId) : Option FutureId :=
  (s.task? t).bind Task.awaiting

/-- Whether a task is to be stopped at its next turn. -/
def stopping (s : Scheduler Stack Job) (t : TaskId) : Bool := (s.task? t).any Task.stopping

/-- The future of the end of a task. -/
def ending? (s : Scheduler Stack Job) (t : TaskId) : Option FutureId := (s.task? t).map Task.future

/-- What a task goes on with. -/
def stack? (s : Scheduler Stack Job) (t : TaskId) : Option Stack := (s.task? t).map Task.stack

/-- All that is still to be handled. -/
def handles (s : Scheduler Stack Job) : List (Handle Job) :=
  s.timers.map Prod.snd ++ s.round ++ s.ready

/-- The tasks that watch a future. -/
def waiters (s : Scheduler Stack Job) (f : FutureId) : List TaskId :=
  (s.watchers f).filterMap Watcher.task?

/-- The futures that watch a future among others. -/
def groups (s : Scheduler Stack Job) (f : FutureId) : List FutureId :=
  (s.watchers f).filterMap Watcher.group?

/-- The turns that are due, with the futures that the tasks have waited for. -/
def turns (s : Scheduler Stack Job) : List (TaskId × Option FutureId) :=
  s.handles.filterMap Handle.turn?

/-- The news that are to be told to futures that wait for several others. -/
def news (s : Scheduler Stack Job) : List (FutureId × FutureId) := s.handles.filterMap Handle.news?

theorem isSettled_eq (f : FutureId) : s.isSettled f = (s.outcome? f).isSome := rfl

theorem mem_waiters {t : TaskId} {f : FutureId} : t ∈ s.waiters f ↔ .task t ∈ s.watchers f := by
  unfold waiters
  rw [List.mem_filterMap]
  constructor
  · rintro ⟨w, hmem, hw⟩
    cases w <;> simp only [Watcher.task?, Option.some.injEq, reduceCtorEq] at hw
    exact hw ▸ hmem
  · intro hmem
    exact ⟨_, hmem, rfl⟩

theorem mem_news {g m : FutureId} : (g, m) ∈ s.news ↔ .told g m ∈ s.handles := by
  unfold news
  rw [List.mem_filterMap]
  constructor
  · rintro ⟨h, hmem, hnews⟩
    cases h <;> simp only [Handle.news?, Option.some.injEq, reduceCtorEq, Prod.mk.injEq] at hnews
    obtain ⟨rfl, rfl⟩ := hnews
    exact hmem
  · intro hmem
    exact ⟨_, hmem, rfl⟩

/-! ## Futures -/

theorem future_of_le {f : FutureId} (h : s.futures.length ≤ f) : s.future f = default := by
  simp [future, h]

theorem lt_of_settled {f : FutureId} {o : Outcome} (h : s.outcome? f = some o) :
    f < s.futures.length := by
  by_contra hf
  have hnone : s.outcome? f = none := by
    unfold outcome?
    rw [future_of_le (Nat.not_lt.mp hf)]
    rfl
  rw [hnone] at h
  cases h

theorem lt_of_kind {f : FutureId} (h : s.kind f ≠ .signal) : f < s.futures.length := by
  by_contra hf
  refine h ?_
  unfold kind
  rw [future_of_le (Nat.not_lt.mp hf)]
  rfl

theorem kind_fresh {f : FutureId} (h : s.futures.length ≤ f) : s.kind f = .signal := by
  by_contra hne
  exact absurd (lt_of_kind hne) (Nat.not_lt.mpr h)

theorem lt_of_not_member {f : FutureId} (h : (s.kind f).isMember = false) :
    f < s.futures.length := by
  refine lt_of_kind ?_
  intro hsignal
  rw [hsignal] at h
  cases h

theorem lt_of_left {f : FutureId} {n : Nat} (h : (s.kind f).left? = some n) :
    f < s.futures.length := by
  refine lt_of_kind ?_
  intro hsignal
  rw [hsignal] at h
  cases h

theorem lt_of_group {f : FutureId} (h : (s.kind f).isGroup = true) : f < s.futures.length := by
  obtain ⟨_, hleft⟩ := Option.isSome_iff_exists.mp h
  exact lt_of_left hleft

theorem lt_of_mem_members {f m : FutureId} (h : m ∈ (s.kind f).members) : f < s.futures.length := by
  refine lt_of_kind ?_
  intro hsignal
  rw [hsignal] at h
  cases h

theorem lt_of_watched {f : FutureId} {w : Watcher} (h : w ∈ s.watchers f) :
    f < s.futures.length := by
  by_contra hf
  unfold watchers at h
  rw [future_of_le (Nat.not_lt.mp hf)] at h
  cases h

theorem future_setFuture {f : FutureId} (x : Future) (h : f < s.futures.length) (g : FutureId) :
    (s.setFuture f x).future g = if g = f then x else s.future g := by
  unfold future setFuture
  by_cases hg : g = f
  · subst hg
    simp [h]
  · simp [hg, List.getElem?_set_ne (Ne.symm hg)]

/-! ## Settled futures -/

/-- Nothing comes of settling a future that is settled or was never given. -/
theorem settle_of_settled {f : FutureId} {o : Outcome}
    (h : ¬(s.outcome? f = none ∧ f < s.futures.length)) : s.settle f o = s := by
  unfold settle
  by_cases hset : s.outcome? f = none
  · have hf : s.futures.length ≤ f := Nat.not_lt.mp fun hlt => h ⟨hset, hlt⟩
    have hdefault := future_of_le hf
    simp [Future.settled, hdefault, setFuture, enqueue, List.set_eq_of_length_le hf, default]
  · have hsome : (s.future f).settled = true := by
      rw [Future.settled, Option.isSome_iff_ne_none]
      exact hset
    simp [hsome]

theorem settle_eq {f : FutureId} {o : Outcome} (h : s.outcome? f = none) :
    s.settle f o = (s.setFuture f { s.future f with outcome := some o, watchers := [] }).enqueue
      ((s.watchers f).map (handleOf f)) := by
  have hopen : (s.future f).settled = false := by
    unfold Future.settled
    have : (s.future f).outcome = none := h
    rw [this]
    rfl
  simp [settle, hopen, watchers]

theorem kind_settle (f : FutureId) (o : Outcome) (g : FutureId) :
    (s.settle f o).kind g = s.kind g := by
  by_cases h : s.outcome? f = none ∧ f < s.futures.length
  · rw [settle_eq h.1]
    change ((s.setFuture f _).future g).kind = _
    rw [future_setFuture _ h.2]
    split
    · next hg => rw [hg]; rfl
    · rfl
  · rw [settle_of_settled h]

theorem outcome?_settle {f : FutureId} (o : Outcome) (hopen : s.outcome? f = none)
    (hlt : f < s.futures.length) (g : FutureId) :
    (s.settle f o).outcome? g = if g = f then some o else s.outcome? g := by
  rw [settle_eq hopen]
  change ((s.setFuture f _).future g).outcome = _
  rw [future_setFuture _ hlt]
  split <;> rfl

/-- Nothing but the future that is settled comes to have an outcome. -/
theorem outcome?_settle_of_ne {f g : FutureId} (hne : g ≠ f) (o : Outcome) :
    (s.settle f o).outcome? g = s.outcome? g := by
  by_cases h : s.outcome? f = none ∧ f < s.futures.length
  · rw [outcome?_settle o h.1 h.2, if_neg hne]
  · rw [settle_of_settled h]

theorem watchers_settle {f : FutureId} (o : Outcome) (hopen : s.outcome? f = none)
    (hlt : f < s.futures.length) (g : FutureId) :
    (s.settle f o).watchers g = if g = f then [] else s.watchers g := by
  rw [settle_eq hopen]
  change ((s.setFuture f _).future g).watchers = _
  rw [future_setFuture _ hlt]
  split <;> rfl

theorem handles_enqueue (hs : List (Handle Job)) : (s.enqueue hs).handles = s.handles ++ hs := by
  simp [handles, enqueue]

theorem handles_settle {f : FutureId} (o : Outcome) (hopen : s.outcome? f = none) :
    (s.settle f o).handles = s.handles ++ (s.watchers f).map (handleOf f) := by
  rw [settle_eq hopen, handles_enqueue]
  rfl

theorem tasks_settle (f : FutureId) (o : Outcome) : (s.settle f o).tasks = s.tasks := by
  unfold settle
  simp only
  split <;> rfl

theorem length_settle (f : FutureId) (o : Outcome) :
    (s.settle f o).futures.length = s.futures.length := by
  unfold settle
  simp only
  split
  · rfl
  · simp [setFuture, enqueue]

/-- A settled future stays as it is. -/
theorem outcome?_settle_of_some {g : FutureId} {o : Outcome} (h : s.outcome? g = some o)
    (f : FutureId) (o' : Outcome) : (s.settle f o').outcome? g = some o := by
  by_cases hf : s.outcome? f = none ∧ f < s.futures.length
  · rw [outcome?_settle o' hf.1 hf.2, if_neg, h]
    rintro rfl
    rw [h] at hf
    cases hf.1
  · rw [settle_of_settled hf, h]

/-! ## New futures -/

theorem kind_newFuture (k : FutureKind) (g : FutureId) :
    (s.newFuture k).2.kind g = if g = s.futures.length then k else s.kind g := by
  unfold kind future newFuture
  by_cases h : g = s.futures.length
  · subst h
    simp
  · rcases Nat.lt_or_gt_of_ne h with hlt | hgt
    · simp [h, List.getElem?_append_left hlt]
    · rw [if_neg h, List.getElem?_append_right (Nat.le_of_lt hgt),
        List.getElem?_eq_none (Nat.le_of_lt hgt),
        List.getElem?_eq_none (Nat.sub_pos_of_lt hgt)]

theorem outcome?_newFuture (k : FutureKind) (g : FutureId) :
    (s.newFuture k).2.outcome? g = s.outcome? g := by
  unfold outcome? future newFuture
  rcases Nat.lt_trichotomy g s.futures.length with hlt | rfl | hgt
  · simp [List.getElem?_append_left hlt]
  · simp [default]
  · rw [List.getElem?_append_right (Nat.le_of_lt hgt), List.getElem?_eq_none (Nat.le_of_lt hgt),
      List.getElem?_eq_none (Nat.sub_pos_of_lt hgt)]

theorem watchers_newFuture (k : FutureKind) (g : FutureId) :
    (s.newFuture k).2.watchers g = s.watchers g := by
  unfold watchers future newFuture
  rcases Nat.lt_trichotomy g s.futures.length with hlt | rfl | hgt
  · simp [List.getElem?_append_left hlt]
  · simp [default]
  · rw [List.getElem?_append_right (Nat.le_of_lt hgt), List.getElem?_eq_none (Nat.le_of_lt hgt),
      List.getElem?_eq_none (Nat.sub_pos_of_lt hgt)]

@[simp]
theorem length_newFuture (k : FutureKind) :
    (s.newFuture k).2.futures.length = s.futures.length + 1 := by simp [newFuture]

@[simp]
theorem tasks_newFuture (k : FutureKind) : (s.newFuture k).2.tasks = s.tasks := rfl

@[simp]
theorem handles_newFuture (k : FutureKind) : (s.newFuture k).2.handles = s.handles := rfl

/-- Nothing is known yet of a future that is about to be made. -/
theorem outcome?_length : s.outcome? s.futures.length = none := by
  unfold outcome?
  rw [future_of_le (Nat.le_refl _)]
  rfl

/-! ## Watching -/

theorem watch_of_settled {f : FutureId} {w : Watcher} (h : s.outcome? f ≠ none) :
    s.watch f w = s.enqueue [handleOf f w] := by
  have hsome : (s.future f).settled = true := by
    rw [Future.settled, Option.isSome_iff_ne_none]
    exact h
  simp [watch, hsome]

theorem watch_of_open {f : FutureId} {w : Watcher} (h : s.outcome? f = none) :
    s.watch f w = s.setFuture f { s.future f with watchers := s.watchers f ++ [w] } := by
  have hopen : (s.future f).settled = false := by
    rw [Future.settled, Option.isSome_eq_false_iff, Option.isNone_iff_eq_none]
    exact h
  simp [watch, hopen, watchers]

theorem future_watch (f : FutureId) (w : Watcher) (g : FutureId) :
    (s.watch f w).future g =
      if g = f ∧ f < s.futures.length ∧ s.outcome? f = none then
        { s.future f with watchers := s.watchers f ++ [w] }
      else s.future g := by
  by_cases h : s.outcome? f = none
  · rw [watch_of_open h]
    by_cases hlt : f < s.futures.length
    · rw [future_setFuture _ hlt]
      simp [h, hlt]
    · have hnone : s.futures.length ≤ f := Nat.not_lt.mp hlt
      simp [hlt, setFuture, List.set_eq_of_length_le hnone]
  · rw [watch_of_settled h]
    simp only [h, and_false, if_false]
    rfl

theorem kind_watch (f : FutureId) (w : Watcher) (g : FutureId) :
    (s.watch f w).kind g = s.kind g := by
  unfold kind
  rw [future_watch]
  split
  · next h => rw [h.1]
  · rfl

theorem outcome?_watch (f : FutureId) (w : Watcher) (g : FutureId) :
    (s.watch f w).outcome? g = s.outcome? g := by
  unfold outcome?
  rw [future_watch]
  split
  · next h => rw [h.1]
  · rfl

theorem watchers_watch {f : FutureId} {w : Watcher} (hopen : s.outcome? f = none)
    (hlt : f < s.futures.length) (g : FutureId) :
    (s.watch f w).watchers g = if g = f then s.watchers f ++ [w] else s.watchers g := by
  unfold watchers
  rw [future_watch]
  simp only [hopen, hlt, and_true]
  split <;> rfl

theorem watchers_watch_of_settled {f : FutureId} {w : Watcher} (h : s.outcome? f ≠ none)
    (g : FutureId) : (s.watch f w).watchers g = s.watchers g := by
  rw [watch_of_settled h]
  rfl

theorem handles_watch (f : FutureId) (w : Watcher) :
    (s.watch f w).handles = s.handles ++ if s.outcome? f = none then [] else [handleOf f w] := by
  by_cases h : s.outcome? f = none
  · rw [watch_of_open h]
    simp only [h, if_true, List.append_nil]
    rfl
  · rw [watch_of_settled h, handles_enqueue]
    simp [h]

@[simp]
theorem length_watch (f : FutureId) (w : Watcher) :
    (s.watch f w).futures.length = s.futures.length := by
  unfold watch
  simp only
  split <;> simp [setFuture, enqueue]

@[simp]
theorem tasks_watch (f : FutureId) (w : Watcher) : (s.watch f w).tasks = s.tasks := by
  unfold watch
  simp only
  split <;> rfl

@[simp]
theorem task?_watch (f : FutureId) (w : Watcher) (t : TaskId) :
    (s.watch f w).task? t = s.task? t := by
  unfold task?
  rw [tasks_watch]

theorem awaiting_watch (f : FutureId) (w : Watcher) (t : TaskId) :
    (s.watch f w).awaiting t = s.awaiting t := by
  unfold awaiting
  rw [task?_watch]

theorem ending?_watch (f : FutureId) (w : Watcher) (t : TaskId) :
    (s.watch f w).ending? t = s.ending? t := by
  unfold ending?
  rw [task?_watch]

/-! ## Watching several futures -/

/-- Have a future watch others in turn. -/
def watchAll (s : Scheduler Stack Job) (g : FutureId) (members : List FutureId) :
    Scheduler Stack Job :=
  members.foldl (fun s f => s.watch f (.member g)) s

theorem gather_eq (k : FutureKind) (members : List FutureId) :
    s.gather k members = (s.futures.length, (s.newFuture k).2.watchAll s.futures.length members) :=
  rfl

theorem watchAll_cons (g f : FutureId) (members : List FutureId) :
    s.watchAll g (f :: members) = (s.watch f (.member g)).watchAll g members := rfl

theorem kind_watchAll (g : FutureId) (members : List FutureId) (f : FutureId) :
    (s.watchAll g members).kind f = s.kind f := by
  induction members generalizing s with
  | nil => rfl
  | cons m ms ih => rw [watchAll_cons, ih, kind_watch]

theorem outcome?_watchAll (g : FutureId) (members : List FutureId) (f : FutureId) :
    (s.watchAll g members).outcome? f = s.outcome? f := by
  induction members generalizing s with
  | nil => rfl
  | cons m ms ih => rw [watchAll_cons, ih, outcome?_watch]

@[simp]
theorem length_watchAll (g : FutureId) (members : List FutureId) :
    (s.watchAll g members).futures.length = s.futures.length := by
  induction members generalizing s with
  | nil => rfl
  | cons m ms ih => rw [watchAll_cons, ih, length_watch]

@[simp]
theorem tasks_watchAll (g : FutureId) (members : List FutureId) :
    (s.watchAll g members).tasks = s.tasks := by
  induction members generalizing s with
  | nil => rfl
  | cons m ms ih => rw [watchAll_cons, ih, tasks_watch]

theorem kind_gather (k : FutureKind) (members : List FutureId) (f : FutureId) :
    (s.gather k members).2.kind f = if f = s.futures.length then k else s.kind f := by
  rw [gather_eq, kind_watchAll, kind_newFuture]

theorem outcome?_gather (k : FutureKind) (members : List FutureId) (f : FutureId) :
    (s.gather k members).2.outcome? f = s.outcome? f := by
  rw [gather_eq, outcome?_watchAll, outcome?_newFuture]

theorem length_gather (k : FutureKind) (members : List FutureId) :
    (s.gather k members).2.futures.length = s.futures.length + 1 := by
  rw [gather_eq, length_watchAll, length_newFuture]

/-- Every open future among several distinct ones gets a watcher. -/
theorem watchers_watchAll (g : FutureId) {members : List FutureId}
    (hrange : ∀ m ∈ members, m < s.futures.length) (hnodup : members.Nodup) (f : FutureId) :
    (s.watchAll g members).watchers f =
      if f ∈ members ∧ s.outcome? f = none then s.watchers f ++ [.member g] else s.watchers f := by
  induction members generalizing s with
  | nil => simp [watchAll]
  | cons m ms ih =>
      obtain ⟨hm, hnodup⟩ := List.nodup_cons.mp hnodup
      have hlt : m < s.futures.length := hrange m (List.mem_cons_self ..)
      rw [watchAll_cons, ih (fun m' hm' => by
        rw [length_watch]
        exact hrange m' (List.mem_cons_of_mem _ hm')) hnodup, outcome?_watch]
      by_cases hopen : s.outcome? m = none
      · rw [watchers_watch hopen hlt]
        by_cases hf : f = m
        · subst hf
          simp [hm, hopen]
        · simp [hf]
      · rw [watchers_watch_of_settled hopen]
        by_cases hf : f = m
        · subst hf
          simp [hopen]
        · simp [hf]

/-- Of every settled future among several there are news. -/
theorem handles_watchAll (g : FutureId) (members : List FutureId) :
    (s.watchAll g members).handles =
      s.handles ++ (members.filter fun f => s.isSettled f).map (.told g) := by
  induction members generalizing s with
  | nil => simp [watchAll]
  | cons m ms ih =>
      have hsame : (fun f => (s.watch m (.member g)).isSettled f) = fun f => s.isSettled f := by
        funext f
        rw [isSettled_eq, outcome?_watch, ← isSettled_eq]
      rw [watchAll_cons, ih, handles_watch, hsame, List.append_assoc]
      by_cases hopen : s.outcome? m = none
      · have hm : s.isSettled m = false := by rw [isSettled_eq, hopen]; rfl
        simp [hopen, hm]
      · have hm : s.isSettled m = true := by
          rw [isSettled_eq, Option.isSome_iff_ne_none]
          exact hopen
        simp [hopen, hm, handleOf]

/-! ## Futures of another kind -/

/-- Change what settles a future. -/
def setKind (s : Scheduler Stack Job) (f : FutureId) (k : FutureKind) : Scheduler Stack Job :=
  s.setFuture f { s.future f with kind := k }

theorem kind_setKind {f : FutureId} (k : FutureKind) (hlt : f < s.futures.length) (g : FutureId) :
    (s.setKind f k).kind g = if g = f then k else s.kind g := by
  unfold kind setKind
  rw [future_setFuture _ hlt]
  split <;> rfl

theorem outcome?_setKind (f : FutureId) (k : FutureKind) (g : FutureId) :
    (s.setKind f k).outcome? g = s.outcome? g := by
  unfold outcome? setKind
  by_cases hlt : f < s.futures.length
  · rw [future_setFuture _ hlt]
    split
    · next h => rw [h]
    · rfl
  · simp [setFuture, List.set_eq_of_length_le (Nat.not_lt.mp hlt)]

theorem watchers_setKind (f : FutureId) (k : FutureKind) (g : FutureId) :
    (s.setKind f k).watchers g = s.watchers g := by
  unfold watchers setKind
  by_cases hlt : f < s.futures.length
  · rw [future_setFuture _ hlt]
    split
    · next h => rw [h]
    · rfl
  · simp [setFuture, List.set_eq_of_length_le (Nat.not_lt.mp hlt)]

@[simp]
theorem handles_setKind (f : FutureId) (k : FutureKind) : (s.setKind f k).handles = s.handles := rfl

@[simp]
theorem tasks_setKind (f : FutureId) (k : FutureKind) : (s.setKind f k).tasks = s.tasks := rfl

@[simp]
theorem length_setKind (f : FutureId) (k : FutureKind) :
    (s.setKind f k).futures.length = s.futures.length := by simp [setKind, setFuture]

/-- Whether a future is settled with a fault. -/
def faulted (s : Scheduler Stack Job) (f : FutureId) : Bool := (s.outcome? f).any Outcome.isFault

/-- What news do to a future that waits for the first fault. -/
theorem tell_firstFault {g m : FutureId} {members : List FutureId} {left : Nat}
    (h : s.kind g = .firstFault members left) :
    s.tell g m =
      if left ≤ 1 ∨ s.faulted m then
        (s.setKind g (.firstFault members (left - 1))).settle g .finished
      else s.setKind g (.firstFault members (left - 1)) := by
  unfold kind at h
  simp only [tell, h, setKind, faulted, Bool.or_eq_true, decide_eq_true_eq]
  congr

/-- What news do to a future that waits for all others. -/
theorem tell_all {g m : FutureId} {members : List FutureId} {left : Nat} {stopping : Bool}
    (h : s.kind g = .all members left stopping) :
    s.tell g m =
      if left ≤ 1 then
        (s.setKind g (.all members (left - 1) stopping)).settle g
          (if stopping then .stopped else .finished)
      else s.setKind g (.all members (left - 1) stopping) := by
  unfold kind at h
  simp only [tell, h, setKind]

theorem markStopping_all {g : FutureId} {members : List FutureId} {left : Nat} {stopping : Bool}
    (h : s.kind g = .all members left stopping) :
    s.markStopping g = s.setKind g (.all members left true) := by
  unfold kind at h
  simp only [markStopping, h, setKind]

/-! ## Tasks -/

theorem task?_setTask {t : TaskId} (task : Task Stack) (h : t < s.tasks.length) (u : TaskId) :
    (s.setTask t task).task? u = if u = t then some task else s.task? u := by
  unfold task? setTask
  by_cases hu : u = t
  · subst hu
    simp [h]
  · simp [hu, List.getElem?_set_ne (Ne.symm hu)]

theorem lt_of_task {t : TaskId} {task : Task Stack} (h : s.task? t = some task) :
    t < s.tasks.length := by
  rw [task?, List.getElem?_eq_some_iff] at h
  exact h.1

theorem stopNext_eq {t : TaskId} {task : Task Stack} (h : s.task? t = some task) :
    s.stopNext t = s.setTask t { task with stopping := true } := by simp [stopNext, h]

theorem stopNext_of_none {t : TaskId} (h : s.task? t = none) : s.stopNext t = s := by
  simp [stopNext, h]

theorem awaiting_stopNext (t u : TaskId) : (s.stopNext t).awaiting u = s.awaiting u := by
  cases h : s.task? t with
  | none => rw [stopNext_of_none h]
  | some task =>
      rw [stopNext_eq h]
      unfold awaiting
      rw [task?_setTask _ (lt_of_task h)]
      split
      · next hu =>
          subst hu
          rw [h]
          rfl
      · rfl

theorem ending?_stopNext (t u : TaskId) : (s.stopNext t).ending? u = s.ending? u := by
  cases h : s.task? t with
  | none => rw [stopNext_of_none h]
  | some task =>
      rw [stopNext_eq h]
      unfold ending?
      rw [task?_setTask _ (lt_of_task h)]
      split
      · next hu =>
          subst hu
          rw [h]
          rfl
      · rfl

theorem stack?_stopNext (t u : TaskId) : (s.stopNext t).stack? u = s.stack? u := by
  cases h : s.task? t with
  | none => rw [stopNext_of_none h]
  | some task =>
      rw [stopNext_eq h]
      unfold stack?
      rw [task?_setTask _ (lt_of_task h)]
      split
      · next hu =>
          subst hu
          rw [h]
          rfl
      · rfl

theorem future_stopNext (t : TaskId) (f : FutureId) : (s.stopNext t).future f = s.future f := by
  unfold stopNext
  split <;> rfl

theorem handles_stopNext (t : TaskId) : (s.stopNext t).handles = s.handles := by
  unfold stopNext
  split <;> rfl

theorem length_stopNext (t : TaskId) : (s.stopNext t).futures.length = s.futures.length := by
  unfold stopNext
  split <;> rfl

/-! ## What is handled next -/

theorem insertTimer_perm (deadline : Ticks) (h : Handle Job) (timers : List (Ticks × Handle Job)) :
    (insertTimer deadline h timers).Perm ((deadline, h) :: timers) := by
  induction timers with
  | nil => exact .refl _
  | cons timer timers ih =>
      unfold insertTimer
      split
      · exact .refl _
      · exact (ih.cons timer).trans (.swap _ _ _)

theorem handles_after (delay : Float) (h : Handle Job) :
    (s.after delay h).handles.Perm (h :: s.handles) := by
  unfold handles after
  have htimers := (insertTimer_perm (s.now + Ticks.ofSeconds delay) h s.timers).map Prod.snd
  exact (htimers.append_right s.round).append_right s.ready

theorem handles_beginRound (h : s.round = []) : s.beginRound.handles.Perm s.handles := by
  obtain ⟨rest, hrest⟩ := List.takeWhile_prefix (l := s.timers) (isDue s.now)
  have hdrop : s.timers.drop (s.timers.takeWhile (isDue s.now)).length = rest := by
    generalize s.timers.takeWhile (isDue s.now) = due at hrest
    rw [← hrest, List.drop_left]
  have hsplit : s.timers.map Prod.snd =
      (s.timers.takeWhile (isDue s.now)).map Prod.snd ++ rest.map Prod.snd := by
    rw [← List.map_append, hrest]
  unfold handles beginRound
  simp only [h, List.append_nil, hdrop]
  rw [hsplit]
  refine (List.perm_append_comm).trans ?_
  rw [List.append_assoc]
  refine (List.perm_append_comm).trans ?_
  rw [List.append_assoc]

/-- What is handled next is taken from what is still to be handled, and nothing else changes. -/
theorem handles_next? {h : Handle Job} {s' : Scheduler Stack Job} (hnext : s.next? = some (h, s')) :
    s.handles.Perm (h :: s'.handles) ∧ s'.futures = s.futures ∧ s'.tasks = s.tasks := by
  unfold next? at hnext
  simp only at hnext
  split at hnext
  · cases hnext
  · next h' round hround =>
      cases hnext
      have hperm : s.handles.Perm (if s.round.isEmpty then s.beginRound else s).handles := by
        split
        · next hempty => exact (handles_beginRound (List.isEmpty_iff.mp hempty)).symm
        · exact .refl _
      refine ⟨hperm.trans ?_, ?_, ?_⟩
      · generalize (if s.round.isEmpty then s.beginRound else s) = s₁ at hround
        simp only [handles, hround]
        rw [List.append_assoc]
        exact List.perm_middle.trans (by simp)
      · simp only
        split <;> rfl
      · simp only
        split <;> rfl

theorem handles_next {h : Handle Job} {s' : Scheduler Stack Job} (hnext : s.next = some (h, s')) :
    s.handles.Perm (h :: s'.handles) ∧ s'.futures = s.futures ∧ s'.tasks = s.tasks := by
  unfold next at hnext
  split at hnext
  · next step hstep =>
      cases hnext
      exact handles_next? hstep
  · obtain ⟨s₁, hclock, hstep⟩ := Option.bind_eq_some_iff.mp hnext
    unfold advanceClock at hclock
    split at hclock
    · cases hclock
    · cases hclock
      have hrest := handles_next? hstep
      exact hrest

end Scheduler

end HotSpec
