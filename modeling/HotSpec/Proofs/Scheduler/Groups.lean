import HotSpec.Proofs.Scheduler.Threads

/-!
# Futures that wait for several others

A future that waits for others is told of each of them once, after it was settled.  So it is not
settled before its time: one that waits for the first fault comes to a value only if one of the
others has failed or all are settled, and one that waits for all others is settled only if all are.

Main results:

- Theorem `Groups.settle`: a future may be settled as its kind allows.
- Theorem `Groups.tell`: news are counted, and settle a future in time only.
- Theorem `Groups.gather`: a new future waits for all of its members.
-/

namespace HotSpec

namespace Scheduler

variable {Stack Job : Type} {s s' : Scheduler Stack Job}

/-- Whether a future has still to be told of another one. -/
def Untold (s : Scheduler Stack Job) (g m : FutureId) : Prop := g ∈ s.groups m ∨ (g, m) ∈ s.news

/-- Whether a future may have an outcome, by those that it waits for. -/
def Decided (s : Scheduler Stack Job) (g : FutureId) (o : Outcome) : Prop :=
  match (s.kind g).form with
  | .firstFault members _ => o.isFault = false ∧ ∀ v, o = .value v →
      (∀ m ∈ members, s.outcome? m ≠ none) ∨ ∃ m ∈ members, s.faulted m = true
  | .all members _ _ => o.isFault = false ∧ ∀ m ∈ members, s.outcome? m ≠ none
  | _ => True

/-- A future counts those that it has still to be told of; what it has been told of was settled, and
has not failed if it waits for that. -/
structure Counts (s : Scheduler Stack Job) (g : FutureId) : Prop where
  left : ∀ n, (s.kind g).left? = some n →
    ∃ rest : List FutureId, rest.Nodup ∧ rest.length = n ∧ ∀ m, m ∈ rest ↔ s.Untold g m
  heard : ∀ m, m ∈ (s.kind g).members → ¬s.Untold g m →
    s.outcome? m ≠ none ∧ ∀ members left, s.kind g = .firstFault members left → s.faulted m = false

/-- Futures that wait for several others are told of them once, and settled in time. -/
structure Links (s : Scheduler Stack Job) : Prop where
  member : ∀ g m, m ∈ (s.kind g).members → (s.kind m).isMember = true ∧ m < s.futures.length
  members : ∀ g, (s.kind g).members.Nodup
  /-- Settled futures are not watched. -/
  group : ∀ g m, g ∈ s.groups m → m ∈ (s.kind g).members ∧ s.outcome? m = none
  groups : ∀ m, (s.groups m).Nodup
  /-- There are news of settled futures only, and no news twice. -/
  told : ∀ g m, (g, m) ∈ s.news → m ∈ (s.kind g).members ∧ s.outcome? m ≠ none
  news : s.news.Nodup
  /-- Settled futures were settled in time. -/
  decided : ∀ g o, s.outcome? g = some o → s.Decided g o
  stopped : ∀ g members left stopping, s.kind g = .all members left stopping →
    s.outcome? g = some .stopped → stopping = true

/-- Futures that wait for several others know of them what they have been told. -/
structure Groups (s : Scheduler Stack Job) : Prop extends s.Links where
  counts : ∀ g, s.outcome? g = none → s.Counts g

/-! ## What lasts -/

theorem faulted_settle {m : FutureId} (h : s.outcome? m ≠ none) (f : FutureId) (o : Outcome) :
    (s.settle f o).faulted m = s.faulted m := by
  obtain ⟨o', ho'⟩ := Option.ne_none_iff_exists'.mp h
  unfold faulted
  rw [outcome?_settle_of_some ho', ho']

theorem settled_settle {m : FutureId} (h : s.outcome? m ≠ none) (f : FutureId) (o : Outcome) :
    (s.settle f o).outcome? m ≠ none := by
  obtain ⟨o', ho'⟩ := Option.ne_none_iff_exists'.mp h
  rw [outcome?_settle_of_some ho']
  simp

theorem settled_of_faulted {m : FutureId} (h : s.faulted m = true) : s.outcome? m ≠ none := by
  intro hnone
  unfold faulted at h
  rw [hnone] at h
  cases h

/-- What is decided stays so. -/
theorem Decided.mono {g : FutureId} {o : Outcome} (h : s.Decided g o)
    (hform : (s'.kind g).form = (s.kind g).form)
    (hsettled : ∀ m, s.outcome? m ≠ none → s'.outcome? m ≠ none)
    (hfault : ∀ m, s.faulted m = true → s'.faulted m = true) : s'.Decided g o := by
  unfold Decided at h ⊢
  rw [hform]
  split at h
  · obtain ⟨hnot, hvalue⟩ := h
    refine ⟨hnot, ?_⟩
    intro v hv
    rcases hvalue v hv with hall | ⟨m, hm, hf⟩
    · exact .inl fun m hm => hsettled m (hall m hm)
    · exact .inr ⟨m, hm, hfault m hf⟩
  · obtain ⟨hnot, hall⟩ := h
    exact ⟨hnot, fun m hm => hsettled m (hall m hm)⟩
  · trivial

theorem Decided.settle {g : FutureId} {o : Outcome} (h : s.Decided g o) (f : FutureId)
    (o' : Outcome) : (s.settle f o').Decided g o := by
  refine h.mono (by rw [kind_settle]) (fun m hm => settled_settle hm f o') ?_
  intro m hm
  rw [faulted_settle (settled_of_faulted hm)]
  exact hm

/-! ## Same views -/

theorem members_of_not_group {k : FutureKind} (h : k.isGroup = false) : k.members = [] := by
  cases k <;> simp_all [FutureKind.isGroup, FutureKind.left?, FutureKind.members]

/-- Nothing but a few views matters for what futures know of others; those that wait for all others
may come to be stopping. -/
theorem Groups.congr (h : s.Groups) (hlength : s.futures.length ≤ s'.futures.length)
    (hgroup : ∀ g, (s'.kind g).isGroup = true ∨ (s.kind g).isGroup = true →
      s'.kind g = s.kind g ∨ ∃ members left stopping,
        s.kind g = .all members left stopping ∧ s'.kind g = .all members left true)
    (hmember : ∀ m, m < s.futures.length → (s.kind m).isMember = true →
      (s'.kind m).isMember = true)
    (houtcome : ∀ f, s'.outcome? f = s.outcome? f) (hgroups : ∀ f, s'.groups f = s.groups f)
    (hnews : s'.news.Perm s.news) : s'.Groups := by
  have hform (g : FutureId) (hg : (s'.kind g).isGroup = true ∨ (s.kind g).isGroup = true) :
      (s'.kind g).form = (s.kind g).form ∧ (s'.kind g).left? = (s.kind g).left? := by
    rcases hgroup g hg with heq | ⟨members, left, stopping, hk, hk'⟩
    · rw [heq]
      exact ⟨rfl, rfl⟩
    · rw [hk, hk']
      exact ⟨rfl, rfl⟩
  have hmembers (g : FutureId) : (s'.kind g).members = (s.kind g).members := by
    by_cases hg : (s'.kind g).isGroup = true ∨ (s.kind g).isGroup = true
    · rw [← FutureKind.members_form, (hform g hg).1, FutureKind.members_form]
    · rw [not_or, Bool.not_eq_true, Bool.not_eq_true] at hg
      rw [members_of_not_group hg.1, members_of_not_group hg.2]
  have hfaulted (m : FutureId) : s'.faulted m = s.faulted m := by
    unfold faulted
    rw [houtcome]
  have huntold (g m : FutureId) : s'.Untold g m ↔ s.Untold g m := by
    unfold Untold
    rw [hgroups, hnews.mem_iff]
  have hdecided (g : FutureId) (o : Outcome) (hd : s.Decided g o) : s'.Decided g o := by
    by_cases hg : (s'.kind g).isGroup = true ∨ (s.kind g).isGroup = true
    · refine hd.mono (hform g hg).1 (fun m hm => ?_) fun m hm => ?_
      · rw [houtcome]
        exact hm
      · rw [hfaulted]
        exact hm
    · rw [not_or, Bool.not_eq_true] at hg
      unfold Decided
      cases hk : s'.kind g <;> simp_all [FutureKind.isGroup, FutureKind.left?, FutureKind.form]
  refine ⟨⟨?member, ?members, ?group, ?groups, ?told, ?news, ?decided, ?stopped⟩, ?counts⟩
  case member =>
    intro g m hm
    rw [hmembers] at hm
    obtain ⟨hkind, hlt⟩ := h.member g m hm
    exact ⟨hmember m hlt hkind, Nat.lt_of_lt_of_le hlt hlength⟩
  case members =>
    intro g
    rw [hmembers]
    exact h.members g
  case group =>
    intro g m hg
    rw [hgroups] at hg
    rw [hmembers, houtcome]
    exact h.group g m hg
  case groups =>
    intro m
    rw [hgroups]
    exact h.groups m
  case told =>
    intro g m hm
    rw [hmembers, houtcome]
    exact h.told g m (hnews.mem_iff.mp hm)
  case news => exact hnews.nodup_iff.mpr h.news
  case counts =>
    intro g hg
    rw [houtcome] at hg
    refine ⟨?_, ?_⟩
    · intro n hleft
      have hsame := (hform g (.inl (by rw [FutureKind.isGroup, hleft]; rfl))).2
      rw [hsame] at hleft
      obtain ⟨rest, hnodup, hn, hrest⟩ := (h.counts g hg).left n hleft
      exact ⟨rest, hnodup, hn, fun m => (hrest m).trans (huntold g m).symm⟩
    · intro m hm hnot
      rw [hmembers] at hm
      rw [huntold] at hnot
      obtain ⟨hsettled, hfault⟩ := (h.counts g hg).heard m hm hnot
      rw [houtcome, hfaulted]
      refine ⟨hsettled, ?_⟩
      intro members left hkind
      rcases hgroup g (.inl (by rw [hkind]; rfl)) with heq | ⟨_, _, _, -, hk'⟩
      · exact hfault members left (heq ▸ hkind)
      · rw [hkind] at hk'
        cases hk'
  case decided =>
    intro g o ho
    rw [houtcome] at ho
    exact hdecided g o (h.decided g o ho)
  case stopped =>
    intro g members left stopping hkind ho
    rw [houtcome] at ho
    rcases hgroup g (.inl (by rw [hkind]; rfl)) with heq | ⟨_, _, _, -, hk'⟩
    · exact h.stopped g members left stopping (heq ▸ hkind) ho
    · rw [hkind] at hk'
      cases hk'
      rfl

/-- What is handled without news leaves all futures as they are. -/
theorem Groups.takes {handle : Handle Job} (h : s.Groups) (ht : s.Takes handle s')
    (hnews : handle.news? = none) : s'.Groups := by
  refine h.congr (Nat.le_of_eq (by rw [ht.futures])) (fun g _ => .inl (ht.kind g)) ?_ ht.outcome? ?_ ?_
  · intro m _ hm
    rw [ht.kind]
    exact hm
  · intro f
    unfold Scheduler.groups
    rw [ht.watchers]
  · have hperm := ht.perm.filterMap Handle.news?
    rw [List.filterMap_cons_none hnews] at hperm
    exact hperm.symm

/-! ## Settled futures -/

theorem groups_settle {f : FutureId} (o : Outcome) (hopen : s.outcome? f = none)
    (hlt : f < s.futures.length) (g : FutureId) :
    (s.settle f o).groups g = if g = f then [] else s.groups g := by
  unfold groups
  rw [watchers_settle o hopen hlt]
  split <;> rfl

/-- The news that come of a future that is settled are for those that watch it among others. -/
theorem news_settle {f : FutureId} (o : Outcome) (hopen : s.outcome? f = none) :
    (s.settle f o).news = s.news ++ (s.groups f).map fun g => (g, f) := by
  unfold news groups
  rw [handles_settle o hopen, List.filterMap_append, List.filterMap_map, List.map_filterMap]
  congr 2
  funext w
  cases w <;> rfl

/-- Settling a future turns those who watch it into news. -/
theorem untold_settle {f : FutureId} (o : Outcome) (hopen : s.outcome? f = none)
    (hlt : f < s.futures.length) (g m : FutureId) :
    (s.settle f o).Untold g m ↔ s.Untold g m := by
  unfold Untold
  rw [groups_settle o hopen hlt, news_settle o hopen, List.mem_append, List.mem_map]
  by_cases hm : m = f
  · subst hm
    rw [if_pos rfl]
    constructor
    · rintro (hw | hmem | ⟨g', hw, heq⟩)
      · cases hw
      · exact .inr hmem
      · cases heq
        exact .inl hw
    · rintro (hw | hmem)
      · exact .inr (.inr ⟨g, hw, rfl⟩)
      · exact .inr (.inl hmem)
  · rw [if_neg hm]
    constructor
    · rintro (hw | hmem | ⟨g', hw, heq⟩)
      · exact .inl hw
      · exact .inr hmem
      · exact absurd (Prod.mk.inj heq).2.symm hm
    · rintro (hw | hmem)
      · exact .inl hw
      · exact .inr (.inl hmem)

theorem Links.settle (h : s.Links) (f : FutureId) {o : Outcome} (hdecided : s.Decided f o)
    (hstopped : ∀ members left stopping, s.kind f = .all members left stopping →
      o = .stopped → stopping = true) : (s.settle f o).Links := by
  by_cases hopen : s.outcome? f = none ∧ f < s.futures.length
  swap
  · rw [settle_of_settled hopen]
    exact h
  obtain ⟨hopen, hlt⟩ := hopen
  constructor
  case member =>
    intro g m
    rw [kind_settle, kind_settle, length_settle]
    exact h.member g m
  case members =>
    intro g
    rw [kind_settle]
    exact h.members g
  case group =>
    intro g m hg
    rw [groups_settle o hopen hlt] at hg
    rw [kind_settle, outcome?_settle o hopen hlt]
    split at hg
    · cases hg
    · next hm =>
        rw [if_neg hm]
        exact h.group g m hg
  case groups =>
    intro m
    rw [groups_settle o hopen hlt]
    split
    · exact List.nodup_nil
    · exact h.groups m
  case told =>
    intro g m hmem
    rw [news_settle o hopen, List.mem_append, List.mem_map] at hmem
    rw [kind_settle]
    rcases hmem with hmem | ⟨g', hg, heq⟩
    · obtain ⟨hmember, hsettled⟩ := h.told g m hmem
      exact ⟨hmember, settled_settle hsettled f o⟩
    · cases heq
      refine ⟨(h.group g f hg).1, ?_⟩
      rw [outcome?_settle o hopen hlt, if_pos rfl]
      simp
  case news =>
    rw [news_settle o hopen, List.nodup_append']
    refine ⟨h.news, (h.groups f).map fun _ _ heq => (Prod.mk.inj heq).1, ?_⟩
    intro x hx hx'
    obtain ⟨g, -, rfl⟩ := List.mem_map.mp hx'
    exact (h.told g f hx).2 hopen
  case decided =>
    intro g o' ho'
    rw [outcome?_settle o hopen hlt] at ho'
    split at ho'
    · next hg =>
        cases ho'
        subst hg
        exact hdecided.settle g o
    · exact (h.decided g o' ho').settle f o
  case stopped =>
    intro g members left stopping hkind ho'
    rw [kind_settle] at hkind
    rw [outcome?_settle o hopen hlt] at ho'
    split at ho'
    · next hg =>
        cases ho'
        subst hg
        exact hstopped members left stopping hkind rfl
    · exact h.stopped g members left stopping hkind ho'

/-- What a future counts stays the same while it is open and its members stay as they are. -/
theorem Counts.mono {g : FutureId} (h : s.Counts g) (hkind : s'.kind g = s.kind g)
    (huntold : ∀ m, s'.Untold g m ↔ s.Untold g m)
    (hmembers : ∀ m, s.outcome? m ≠ none → s'.outcome? m = s.outcome? m) : s'.Counts g where
  left n hn := by
    rw [hkind] at hn
    obtain ⟨rest, hnodup, hlength, hrest⟩ := h.left n hn
    exact ⟨rest, hnodup, hlength, fun m => (hrest m).trans (huntold m).symm⟩
  heard m hm hnot := by
    rw [hkind] at hm
    rw [huntold] at hnot
    obtain ⟨hsettled, hfault⟩ := h.heard m hm hnot
    unfold faulted at hfault ⊢
    rw [hmembers m hsettled, hkind]
    exact ⟨hsettled, hfault⟩

theorem Groups.settle (h : s.Groups) (f : FutureId) {o : Outcome} (hdecided : s.Decided f o)
    (hstopped : ∀ members left stopping, s.kind f = .all members left stopping →
      o = .stopped → stopping = true) : (s.settle f o).Groups := by
  refine ⟨h.toLinks.settle f hdecided hstopped, ?_⟩
  intro g hg
  by_cases hopen : s.outcome? f = none ∧ f < s.futures.length
  · refine (h.counts g ?_).mono (kind_settle f o g) (untold_settle o hopen.1 hopen.2 g) ?_
    · by_contra hsettled
      exact settled_settle hsettled f o hg
    · intro m hm
      obtain ⟨o', ho'⟩ := Option.ne_none_iff_exists'.mp hm
      rw [outcome?_settle_of_some ho', ho']
  · rw [settle_of_settled hopen] at hg ⊢
    exact h.counts g hg

/-- A future of another kind may be settled at any time. -/
theorem Groups.settle_of_not_group (h : s.Groups) {f : FutureId} (hf : (s.kind f).isGroup = false)
    (o : Outcome) : (s.settle f o).Groups := by
  refine h.settle f ?_ ?_
  · unfold Decided
    cases hk : s.kind f <;> simp_all [FutureKind.isGroup, FutureKind.left?, FutureKind.form]
  · intro members left stopping hk
    rw [hk] at hf
    cases hf

/-- The wait for a first fault may be given up at any time. -/
theorem Groups.settle_stopped (h : s.Groups) {f : FutureId}
    (hf : ∀ members left stopping, s.kind f ≠ .all members left stopping) :
    (s.settle f .stopped).Groups := by
  refine h.settle f ?_ fun members left stopping hk => absurd hk (hf members left stopping)
  unfold Decided
  cases hk : s.kind f with
  | signal | released | task t => trivial
  | firstFault members left => exact ⟨rfl, fun v hv => nomatch hv⟩
  | all members left stopping => exact absurd hk (hf members left stopping)

theorem Groups.release (h : s.Groups) (f : FutureId) : (s.release f).Groups := by
  unfold Scheduler.release
  split
  · next hk => exact h.settle_of_not_group (by rw [kind, hk]; rfl) _
  · exact h

/-! ## New futures -/

theorem Groups.newFuture (h : s.Groups) {k : FutureKind} (hk : k.isGroup = false) :
    (s.newFuture k).2.Groups := by
  refine h.congr (by rw [length_newFuture]; exact Nat.le_succ _) ?_ ?_ (outcome?_newFuture k) ?_
    (.refl _)
  · intro g hg
    rw [kind_newFuture] at hg ⊢
    split
    · next hlength =>
        subst hlength
        rw [if_pos rfl, kind_fresh (Nat.le_refl _), hk] at hg
        rcases hg with hg | hg <;> cases hg
    · exact .inl rfl
  · intro m hlt hm
    rw [kind_newFuture, if_neg (Nat.ne_of_lt hlt)]
    exact hm
  · intro f
    unfold Scheduler.groups
    rw [watchers_newFuture]

theorem Groups.watch (h : s.Groups) (f : FutureId) {w : Watcher} (hw : w.group? = none) :
    (s.watch f w).Groups := by
  have hhandle : (handleOf f w : Handle Job).news? = none := by
    cases w <;> simp_all [handleOf, Handle.news?, Watcher.group?]
  refine h.congr (Nat.le_of_eq (by rw [length_watch])) (fun g _ => .inl (kind_watch f _ g)) ?_
    (outcome?_watch f _) ?_ ?_
  · intro m _ hm
    rw [kind_watch]
    exact hm
  · intro g
    unfold Scheduler.groups Scheduler.watchers
    rw [future_watch]
    split
    · next hg =>
        rw [hg.1, List.filterMap_append]
        simp [Scheduler.watchers, hw]
    · rfl
  · unfold Scheduler.news
    rw [handles_watch, List.filterMap_append]
    split
    · simp
    · simp [hhandle]

/-- Tasks may change in any way. -/
theorem Groups.setTask (h : s.Groups) (t : TaskId) (task : Task Stack) :
    (s.setTask t task).Groups :=
  h.congr (Nat.le_refl _) (fun _ _ => .inl rfl) (fun _ _ hm => hm) (fun _ => rfl) (fun _ => rfl)
    (.refl _)

/-- What is to be handled may grow by anything but news. -/
theorem Groups.enqueue (h : s.Groups) {handle : Handle Job} (hnews : handle.news? = none) :
    (s.enqueue [handle]).Groups := by
  refine h.congr (Nat.le_refl _) (fun _ _ => .inl rfl) (fun _ _ hm => hm) (fun _ => rfl) (fun _ => rfl) ?_
  unfold Scheduler.news
  rw [handles_enqueue, List.filterMap_append]
  simp [hnews]

theorem Groups.after (h : s.Groups) (delay : Float) {handle : Handle Job}
    (hnews : handle.news? = none) : (s.after delay handle).Groups := by
  refine h.congr (Nat.le_refl _) (fun _ _ => .inl rfl) (fun _ _ hm => hm) (fun _ => rfl) (fun _ => rfl) ?_
  have hperm := (handles_after delay handle (s := s)).filterMap Handle.news?
  rw [List.filterMap_cons_none hnews] at hperm
  exact hperm

theorem Groups.newTask (h : s.Groups) (stack : Stack) : (s.newTask stack).2.Groups :=
  (h.newFuture rfl).congr (Nat.le_refl _) (fun _ _ => .inl rfl) (fun _ _ hm => hm) (fun _ => rfl)
    (fun _ => rfl) (.refl _)

theorem Groups.spawn (h : s.Groups) (stack : Stack) : (s.spawn stack).2.Groups :=
  (h.newTask stack).enqueue rfl

theorem Groups.stopNext (h : s.Groups) (t : TaskId) : (s.stopNext t).Groups := by
  unfold Scheduler.stopNext
  split
  · exact h.setTask _ _
  · exact h

theorem Groups.park (h : s.Groups) (t : TaskId) (f : FutureId) (stack : Stack) :
    (s.park t f stack).Groups := by
  unfold Scheduler.park
  split
  · exact h
  · exact (h.watch f rfl).setTask _ _

theorem Groups.pause (h : s.Groups) (t : TaskId) (stack : Stack) : (s.pause t stack).Groups := by
  unfold Scheduler.pause
  split
  · exact h
  · exact (h.setTask _ _).enqueue rfl

theorem Groups.beginTurn [Inhabited Stack] (h : s.Groups) {t : TaskId} {o : Outcome}
    {given : Stack × Outcome} (hbegin : s.beginTurn t o = some (given, s')) : s'.Groups := by
  unfold Scheduler.beginTurn at hbegin
  obtain ⟨task, -, heq⟩ := Option.map_eq_some_iff.mp hbegin
  cases heq
  exact h.setTask _ _

/-- The wait for all others may come to be stopping. -/
theorem Groups.markStopping (h : s.Groups) (g : FutureId) : (s.markStopping g).Groups := by
  cases hk : s.kind g with
  | all members left stopping =>
      have hlt : g < s.futures.length := lt_of_kind (by rw [hk]; simp)
      rw [markStopping_all hk]
      refine h.congr (Nat.le_of_eq (length_setKind g _).symm) ?_ ?_ (outcome?_setKind g _) ?_ (.refl _)
      · intro f _
        rw [kind_setKind _ hlt]
        split
        · next hf =>
            subst hf
            exact .inr ⟨members, left, stopping, hk, rfl⟩
        · exact .inl rfl
      · intro m _ hm
        rw [kind_setKind _ hlt, if_neg]
        · exact hm
        · rintro rfl
          rw [hk] at hm
          cases hm
      · intro f
        unfold Scheduler.groups
        rw [watchers_setKind]
  | signal | released | task t | firstFault members left =>
      unfold kind at hk
      simpa [Scheduler.markStopping, hk] using h

/-! ## New futures that wait for several others -/

section Gather

variable {k : FutureKind} {members : List FutureId}

/-- A new future comes to watch those that are open. -/
theorem groups_gather (hlt : ∀ m ∈ members, m < s.futures.length) (hnodup : members.Nodup)
    (f : FutureId) :
    (s.gather k members).2.groups f =
      if f ∈ members ∧ s.outcome? f = none then s.groups f ++ [s.futures.length]
      else s.groups f := by
  have hlt' (m : FutureId) (hm : m ∈ members) : m < (s.newFuture k).2.futures.length := by
    rw [length_newFuture]
    exact Nat.lt_succ_of_lt (hlt m hm)
  rw [gather_eq]
  unfold Scheduler.groups
  rw [watchers_watchAll _ hlt' hnodup, outcome?_newFuture, watchers_newFuture]
  split
  · rw [List.filterMap_append]
    rfl
  · rfl

/-- There are news for a new future of those that are settled. -/
theorem news_gather (k : FutureKind) (members : List FutureId) :
    (s.gather k members).2.news =
      s.news ++ (members.filter fun f => s.isSettled f).map fun f => (s.futures.length, f) := by
  have hsame : (fun f => (s.newFuture k).2.isSettled f) = fun f => s.isSettled f := by
    funext f
    rw [isSettled_eq, outcome?_newFuture, ← isSettled_eq]
  rw [gather_eq]
  unfold Scheduler.news
  rw [handles_watchAll, hsame, List.filterMap_append, List.filterMap_map, handles_newFuture]
  congr 1
  rw [← List.filterMap_eq_map]
  rfl

theorem mem_news_gather {g m : FutureId} :
    (g, m) ∈ (s.gather k members).2.news ↔
      (g, m) ∈ s.news ∨ g = s.futures.length ∧ m ∈ members ∧ s.outcome? m ≠ none := by
  rw [news_gather, List.mem_append, List.mem_map]
  refine or_congr .rfl ⟨?_, ?_⟩
  · rintro ⟨f, hf, heq⟩
    cases heq
    obtain ⟨hm, hsettled⟩ := List.mem_filter.mp hf
    rw [isSettled_eq, Option.isSome_iff_ne_none] at hsettled
    exact ⟨rfl, hm, hsettled⟩
  · rintro ⟨rfl, hm, hsettled⟩
    refine ⟨m, List.mem_filter.mpr ⟨hm, ?_⟩, rfl⟩
    rw [isSettled_eq, Option.isSome_iff_ne_none]
    exact hsettled

theorem mem_groups_gather (hlt : ∀ m ∈ members, m < s.futures.length) (hnodup : members.Nodup)
    {g m : FutureId} :
    g ∈ (s.gather k members).2.groups m ↔
      g ∈ s.groups m ∨ g = s.futures.length ∧ m ∈ members ∧ s.outcome? m = none := by
  rw [groups_gather hlt hnodup]
  split
  · next hopen => simp [hopen]
  · next hnot =>
      refine ⟨.inl, ?_⟩
      rintro (hg | ⟨-, hopen⟩)
      · exact hg
      · exact absurd hopen hnot

/-- A new future has still to be told of all of its members, whether they are open or settled. -/
theorem untold_gather (hlt : ∀ m ∈ members, m < s.futures.length) (hnodup : members.Nodup)
    (g m : FutureId) :
    (s.gather k members).2.Untold g m ↔ s.Untold g m ∨ g = s.futures.length ∧ m ∈ members := by
  unfold Untold
  rw [mem_groups_gather hlt hnodup, mem_news_gather]
  by_cases hopen : s.outcome? m = none <;> simp [hopen, or_assoc, or_comm, or_left_comm]

/-- Nobody waits for others under the name of the next future. -/
theorem Links.ne_of_mem_groups (h : s.Links) {g m : FutureId} (hg : g ∈ s.groups m) :
    g ≠ s.futures.length := by
  rintro rfl
  have hmem := (h.group _ m hg).1
  rw [kind_fresh (Nat.le_refl _)] at hmem
  cases hmem

theorem Links.ne_of_mem_news (h : s.Links) {g m : FutureId} (hm : (g, m) ∈ s.news) :
    g ≠ s.futures.length := by
  rintro rfl
  have hmem := (h.told _ m hm).1
  rw [kind_fresh (Nat.le_refl _)] at hmem
  cases hmem

theorem Links.ne_of_untold (h : s.Links) {g m : FutureId} (hm : s.Untold g m) :
    g ≠ s.futures.length :=
  hm.elim h.ne_of_mem_groups h.ne_of_mem_news

theorem Links.gather (h : s.Links) (hmembers : k.members = members) (hnodup : members.Nodup)
    (hmember : ∀ m ∈ members, (s.kind m).isMember = true ∧ m < s.futures.length) :
    (s.gather k members).2.Links := by
  have hlt (m : FutureId) (hm : m ∈ members) := (hmember m hm).2
  have hold {f : FutureId} (hf : f < s.futures.length) : (s.gather k members).2.kind f = s.kind f := by
    rw [kind_gather, if_neg (Nat.ne_of_lt hf)]
  constructor
  case member =>
    intro g m hm
    rw [kind_gather] at hm
    have hm' : (s.kind m).isMember = true ∧ m < s.futures.length := by
      split at hm
      · exact hmember m (hmembers ▸ hm)
      · exact h.member g m hm
    rw [hold hm'.2, length_gather]
    exact ⟨hm'.1, Nat.lt_succ_of_lt hm'.2⟩
  case members =>
    intro g
    rw [kind_gather]
    split
    · exact hmembers ▸ hnodup
    · exact h.members g
  case group =>
    intro g m hg
    rw [kind_gather, outcome?_gather]
    rcases (mem_groups_gather hlt hnodup).mp hg with hg | ⟨rfl, hm, hopen⟩
    · rw [if_neg (h.ne_of_mem_groups hg)]
      exact h.group g m hg
    · rw [if_pos rfl, hmembers]
      exact ⟨hm, hopen⟩
  case groups =>
    intro m
    rw [groups_gather hlt hnodup]
    split
    · refine List.nodup_append'.mpr ⟨h.groups m, List.nodup_singleton _, ?_⟩
      intro g hg hg'
      exact h.ne_of_mem_groups hg (List.mem_singleton.mp hg')
    · exact h.groups m
  case told =>
    intro g m hm
    rw [kind_gather, outcome?_gather]
    rcases mem_news_gather.mp hm with hm | ⟨rfl, hm, hsettled⟩
    · rw [if_neg (h.ne_of_mem_news hm)]
      exact h.told g m hm
    · rw [if_pos rfl, hmembers]
      exact ⟨hm, hsettled⟩
  case news =>
    rw [news_gather, List.nodup_append']
    refine ⟨h.news, (hnodup.filter _).map fun _ _ heq => (Prod.mk.inj heq).2, ?_⟩
    intro x hx hx'
    obtain ⟨m, -, rfl⟩ := List.mem_map.mp hx'
    exact h.ne_of_mem_news hx rfl
  case decided =>
    intro g o ho
    rw [outcome?_gather] at ho
    refine (h.decided g o ho).mono ?_ ?_ ?_
    · rw [hold (lt_of_settled ho)]
    · intro m hm
      rw [outcome?_gather]
      exact hm
    · intro m hm
      unfold faulted at hm ⊢
      rw [outcome?_gather]
      exact hm
  case stopped =>
    intro g members' left stopping hk ho
    rw [outcome?_gather] at ho
    rw [hold (lt_of_settled ho)] at hk
    exact h.stopped g members' left stopping hk ho

/-- A new future that waits for several others has still to be told of all of them. -/
theorem Groups.gather (h : s.Groups) (hmembers : k.members = members)
    (hleft : k.left? = some members.length) (hnodup : members.Nodup)
    (hmember : ∀ m ∈ members, (s.kind m).isMember = true ∧ m < s.futures.length) :
    (s.gather k members).2.Groups := by
  have hlt (m : FutureId) (hm : m ∈ members) := (hmember m hm).2
  refine ⟨h.toLinks.gather hmembers hnodup hmember, ?_⟩
  intro g hg
  rw [outcome?_gather] at hg
  by_cases hnew : g = s.futures.length
  · have hall (m : FutureId) : (s.gather k members).2.Untold g m ↔ m ∈ members := by
      rw [untold_gather hlt hnodup]
      exact ⟨fun hm => hm.elim (fun hm => absurd hnew (h.ne_of_untold hm)) And.right,
        fun hm => .inr ⟨hnew, hm⟩⟩
    constructor
    case left =>
      intro n hn
      rw [kind_gather, if_pos hnew, hleft] at hn
      cases hn
      exact ⟨members, hnodup, rfl, fun m => (hall m).symm⟩
    case heard =>
      intro m hm hnot
      rw [kind_gather, if_pos hnew, hmembers] at hm
      exact absurd ((hall m).mpr hm) hnot
  · refine (h.counts g hg).mono ?_ ?_ fun m _ => outcome?_gather k members m
    · rw [kind_gather, if_neg hnew]
    · intro m
      rw [untold_gather hlt hnodup]
      exact ⟨fun hm => hm.resolve_right fun heq => hnew heq.1, .inl⟩

end Gather

/-! ## News -/

section News

variable {g m : FutureId} {k : FutureKind} {n : Nat}

/-- News that are told are not told again. -/
theorem untold_takes (h : s.Links) (ht : s.Takes (.told g m) s') (g' m' : FutureId) :
    s'.Untold g' m' ↔ s.Untold g' m' ∧ ¬(g' = g ∧ m' = m) := by
  have hnews : s.news.Perm ((g, m) :: s'.news) := ht.perm.filterMap Handle.news?
  have htold : (g, m) ∈ s.news := hnews.mem_iff.mpr (List.mem_cons_self ..)
  obtain ⟨hnot, -⟩ := List.nodup_cons.mp (hnews.nodup_iff.mp h.news)
  have hgroups : s'.groups m' = s.groups m' := by
    unfold groups
    rw [ht.watchers]
  unfold Untold
  rw [hgroups]
  constructor
  · rintro (hg | hm)
    · refine ⟨.inl hg, ?_⟩
      rintro ⟨rfl, rfl⟩
      exact (h.told _ _ htold).2 (h.group _ _ hg).2
    · refine ⟨.inr (hnews.mem_iff.mpr (List.mem_cons_of_mem _ hm)), ?_⟩
      rintro ⟨rfl, rfl⟩
      exact hnot hm
  · rintro ⟨hg | hm, hne⟩
    · exact .inl hg
    · rcases List.mem_cons.mp (hnews.mem_iff.mp hm) with heq | hm
      · exact absurd (Prod.mk.inj heq) hne
      · exact .inr hm

/-- A future that counts down stays linked to the others. -/
theorem Links.countDown (h : s.Links) (ht : s.Takes (.told g m) s')
    (hform : k.form = (s.kind g).form)
    (hstop : ∀ members left stopping, k = .all members left stopping →
      ∃ left, s.kind g = .all members left stopping) : (s'.setKind g k).Links := by
  have hnews : s.news.Perm ((g, m) :: s'.news) := ht.perm.filterMap Handle.news?
  have hmember := (h.told g m (hnews.mem_iff.mpr (List.mem_cons_self ..))).1
  have hlt : g < s'.futures.length := by
    rw [ht.futures]
    exact lt_of_mem_members hmember
  have hkind (f : FutureId) : ((s'.setKind g k).kind f).form = (s.kind f).form := by
    rw [kind_setKind k hlt, ht.kind]
    split
    · next hf => rw [hf, hform]
    · rfl
  have hmembers (f : FutureId) : ((s'.setKind g k).kind f).members = (s.kind f).members := by
    rw [← FutureKind.members_form, hkind, FutureKind.members_form]
  have houtcome (f : FutureId) : (s'.setKind g k).outcome? f = s.outcome? f := by
    rw [outcome?_setKind, ht.outcome?]
  have hgroups (f : FutureId) : (s'.setKind g k).groups f = s.groups f := by
    unfold Scheduler.groups
    rw [watchers_setKind, ht.watchers]
  constructor
  case member =>
    intro f m' hm'
    rw [hmembers] at hm'
    obtain ⟨hk, hlt'⟩ := h.member f m' hm'
    rw [← FutureKind.isMember_form, hkind, FutureKind.isMember_form, length_setKind, ht.futures]
    exact ⟨hk, hlt'⟩
  case members =>
    intro f
    rw [hmembers]
    exact h.members f
  case group =>
    intro f m' hf
    rw [hgroups] at hf
    rw [hmembers, houtcome]
    exact h.group f m' hf
  case groups =>
    intro m'
    rw [hgroups]
    exact h.groups m'
  case told =>
    intro f m' hm'
    rw [hmembers, houtcome]
    exact h.told f m' (hnews.mem_iff.mpr (List.mem_cons_of_mem _ hm'))
  case news => exact (List.nodup_cons.mp (hnews.nodup_iff.mp h.news)).2
  case decided =>
    intro f o ho
    rw [houtcome] at ho
    refine (h.decided f o ho).mono (hkind f) (fun m' hm' => ?_) fun m' hm' => ?_
    · rw [houtcome]
      exact hm'
    · unfold faulted at hm' ⊢
      rw [houtcome]
      exact hm'
  case stopped =>
    intro f members left stopping hk ho
    rw [houtcome] at ho
    rw [kind_setKind k hlt, ht.kind] at hk
    split at hk
    · next hf =>
        subst hf
        obtain ⟨left', hk'⟩ := hstop members left stopping hk
        exact h.stopped _ members left' stopping hk' ho
    · exact h.stopped f members left stopping hk ho

theorem untold_setKind (f m' : FutureId) : (s.setKind g k).Untold f m' ↔ s.Untold f m' := by
  unfold Untold groups
  rw [watchers_setKind]
  rfl

/-- Other futures count what they have counted. -/
theorem Counts.countDown_of_ne (h : s.Groups) (ht : s.Takes (.told g m) s') {f : FutureId}
    (hf : f ≠ g) (hlt : g < s'.futures.length) (hopen : s.outcome? f = none) :
    (s'.setKind g k).Counts f := by
  refine (h.counts f hopen).mono ?_ ?_ ?_
  · rw [kind_setKind k hlt, if_neg hf, ht.kind]
  · intro m'
    rw [untold_setKind, untold_takes h.toLinks ht]
    exact ⟨And.left, fun hu => ⟨hu, fun heq => hf heq.1⟩⟩
  · intro m' _
    rw [outcome?_setKind, ht.outcome?]

/-- The future that is told counts one less, unless it waits for a fault and is told of one. -/
theorem Counts.countDown (h : s.Groups) (ht : s.Takes (.told g m) s')
    (hlt : g < s'.futures.length) (hopen : s.outcome? g = none)
    (hmembers : k.members = (s.kind g).members) (hn : (s.kind g).left? = some n)
    (hk : k.left? = some (n - 1))
    (hfault : ∀ members left, k = .firstFault members left →
      s.faulted m = false ∧ ∃ left, s.kind g = .firstFault members left) :
    (s'.setKind g k).Counts g := by
  have hnews : s.news.Perm ((g, m) :: s'.news) := ht.perm.filterMap Handle.news?
  have htold : (g, m) ∈ s.news := hnews.mem_iff.mpr (List.mem_cons_self ..)
  have hkind : (s'.setKind g k).kind g = k := by rw [kind_setKind k hlt, if_pos rfl]
  have huntold (m' : FutureId) : (s'.setKind g k).Untold g m' ↔ s.Untold g m' ∧ m' ≠ m := by
    rw [untold_setKind, untold_takes h.toLinks ht]
    simp
  obtain ⟨rest, hnodup, hlength, hrest⟩ := (h.counts g hopen).left n hn
  refine ⟨?_, ?_⟩
  · intro n' hn'
    rw [hkind, hk] at hn'
    cases hn'
    refine ⟨rest.erase m, hnodup.erase m, ?_, ?_⟩
    · rw [List.length_erase_of_mem ((hrest m).mpr (.inr htold)), hlength]
    · intro m'
      rw [hnodup.mem_erase_iff, hrest, huntold, and_comm]
  · intro m' hm' hnot
    rw [hkind, hmembers] at hm'
    rw [huntold] at hnot
    have houtcome : (s'.setKind g k).outcome? m' = s.outcome? m' := by
      rw [outcome?_setKind, ht.outcome?]
    unfold faulted at hfault ⊢
    rw [houtcome, hkind]
    by_cases heq : m' = m
    · subst heq
      exact ⟨(h.told g m' htold).2, fun members left hk' => (hfault members left hk').1⟩
    · obtain ⟨hsettled, hold⟩ := (h.counts g hopen).heard m' hm' fun hu => hnot ⟨hu, heq⟩
      refine ⟨hsettled, ?_⟩
      intro members left hk'
      obtain ⟨-, left', hkg⟩ := hfault members left hk'
      exact hold members left' hkg

/-- Once the last news are told, all members are settled. -/
theorem settled_of_last (h : s.Groups) (htold : (g, m) ∈ s.news) (hopen : s.outcome? g = none)
    (hn : (s.kind g).left? = some n) (hlast : n ≤ 1) (m' : FutureId)
    (hm' : m' ∈ (s.kind g).members) : s.outcome? m' ≠ none := by
  obtain ⟨rest, hnodup, hlength, hrest⟩ := (h.counts g hopen).left n hn
  by_cases heq : m' = m
  · rw [heq]
    exact (h.told g m htold).2
  · refine ((h.counts g hopen).heard m' hm' ?_).1
    intro hu
    have hm := (hrest m).mpr (.inr htold)
    have hm'' := (hrest m').mpr hu
    rcases rest with _ | ⟨x, _ | ⟨y, rest⟩⟩
    · cases hm
    · rw [List.mem_singleton] at hm hm''
      exact heq (hm''.trans hm.symm)
    · simp only [List.length_cons] at hlength
      omega

end News

/-- Futures count down while they are not settled by the news. -/
private theorem Groups.countDown (h : s.Groups) {g m : FutureId} (ht : s.Takes (.told g m) s')
    {k : FutureKind} {n : Nat} (hform : k.form = (s.kind g).form)
    (hn : (s.kind g).left? = some n) (hk : k.left? = some (n - 1))
    (hlinks : (s'.setKind g k).Links)
    (hfault : ∀ members left, k = .firstFault members left →
      s.faulted m = false ∧ ∃ left, s.kind g = .firstFault members left) :
    (s'.setKind g k).Groups := by
  have hlt : g < s'.futures.length := by
    rw [ht.futures]
    exact lt_of_left hn
  refine ⟨hlinks, ?_⟩
  intro f hf
  rw [outcome?_setKind, ht.outcome?] at hf
  by_cases hfg : f = g
  · subst hfg
    refine Counts.countDown h ht hlt hf ?_ hn hk hfault
    rw [← FutureKind.members_form, hform, FutureKind.members_form]
  · exact Counts.countDown_of_ne h ht hfg hlt hf

/-- A future that is settled by the news, or was settled before, counts no more. -/
private theorem Groups.countOut (h : s.Groups) {g m : FutureId} (ht : s.Takes (.told g m) s')
    {k : FutureKind} {o : Outcome} (hkg : s.kind g ≠ .signal) (hlinks : (s'.setKind g k).Links)
    (hdecided : s.outcome? g = none → (s'.setKind g k).Decided g o)
    (hstopped : ∀ members left stopping, k = .all members left stopping →
      o = .stopped → stopping = true) : ((s'.setKind g k).settle g o).Groups := by
  have hlt : g < s'.futures.length := by
    rw [ht.futures]
    exact lt_of_kind hkg
  have houtcome (f : FutureId) : (s'.setKind g k).outcome? f = s.outcome? f := by
    rw [outcome?_setKind, ht.outcome?]
  have hother (f : FutureId) (hfg : f ≠ g) (hf : s.outcome? f = none) :
      (s'.setKind g k).Counts f := Counts.countDown_of_ne h ht hfg hlt hf
  by_cases hopen : s.outcome? g = none
  · have hopen' := (houtcome g).trans hopen
    have hlt' : g < (s'.setKind g k).futures.length := by
      rw [length_setKind]
      exact hlt
    refine ⟨hlinks.settle g (hdecided hopen) ?_, ?_⟩
    · intro members left stopping hk
      rw [kind_setKind k hlt, if_pos rfl] at hk
      exact hstopped members left stopping hk
    · intro f hf
      rw [outcome?_settle o hopen' hlt'] at hf
      split at hf
      · cases hf
      · next hfg =>
          rw [houtcome] at hf
          refine (hother f hfg hf).mono (kind_settle g o f) (untold_settle o hopen' hlt' f) ?_
          intro m' hm'
          obtain ⟨o', ho'⟩ := Option.ne_none_iff_exists'.mp hm'
          rw [outcome?_settle_of_some ho', ho']
  · rw [settle_of_settled fun hg => hopen ((houtcome g).symm.trans hg.1)]
    refine ⟨hlinks, ?_⟩
    intro f hf
    rw [houtcome] at hf
    refine hother f ?_ hf
    rintro rfl
    exact hopen hf

/-- News that are told are counted, and settle a future in time only. -/
theorem Groups.tell (h : s.Groups) {g m : FutureId} (ht : s.Takes (.told g m) s') :
    (s'.tell g m).Groups := by
  have hnews : s.news.Perm ((g, m) :: s'.news) := ht.perm.filterMap Handle.news?
  have htold : (g, m) ∈ s.news := hnews.mem_iff.mpr (List.mem_cons_self ..)
  have houtcome (k : FutureKind) (f : FutureId) : (s'.setKind g k).outcome? f = s.outcome? f := by
    rw [outcome?_setKind, ht.outcome?]
  have hfaulted (f : FutureId) : s'.faulted f = s.faulted f := by
    unfold faulted
    rw [ht.outcome?]
  cases hkind : s.kind g with
  | signal | released | task t =>
      have hmember := (h.told g m htold).1
      rw [hkind] at hmember
      cases hmember
  | firstFault members left =>
      have hkind' : s'.kind g = .firstFault members left := by rw [ht.kind, hkind]
      have hlt : g < s'.futures.length := lt_of_kind (by rw [hkind']; simp)
      have hlinks : (s'.setKind g (.firstFault members (left - 1))).Links :=
        h.toLinks.countDown ht (by rw [hkind]; rfl) (fun _ _ _ hk => nomatch hk)
      have hfin : (s'.setKind g (.firstFault members (left - 1))).kind g =
          .firstFault members (left - 1) := by rw [kind_setKind _ hlt, if_pos rfl]
      rw [tell_firstFault hkind', hfaulted]
      split
      · next hlast =>
          refine h.countOut ht (by rw [hkind]; simp) hlinks ?_ fun _ _ _ hk => nomatch hk
          intro hopen
          unfold Decided
          rw [hfin]
          refine ⟨rfl, ?_⟩
          rintro v -
          rcases hlast with hlast | hfault
          · refine .inl fun m' hm' => ?_
            rw [houtcome]
            refine settled_of_last h htold hopen (by rw [hkind]; rfl) hlast m' ?_
            rw [hkind]
            exact hm'
          · refine .inr ⟨m, ?_, ?_⟩
            · have hmember := (h.told g m htold).1
              rw [hkind] at hmember
              exact hmember
            · unfold faulted at hfault ⊢
              rw [houtcome]
              exact hfault
      · next hlast =>
          rw [not_or, Bool.not_eq_true] at hlast
          refine h.countDown ht (by rw [hkind]; rfl) (by rw [hkind]; rfl) rfl hlinks ?_
          intro members' left' hk
          cases hk
          exact ⟨hlast.2, left, hkind⟩
  | all members left stopping =>
      have hkind' : s'.kind g = .all members left stopping := by rw [ht.kind, hkind]
      have hlt : g < s'.futures.length := lt_of_kind (by rw [hkind']; simp)
      have hlinks : (s'.setKind g (.all members (left - 1) stopping)).Links := by
        refine h.toLinks.countDown ht (by rw [hkind]; rfl) ?_
        rintro members' left' stopping' ⟨⟩
        exact ⟨left, hkind⟩
      have hfin : (s'.setKind g (.all members (left - 1) stopping)).kind g =
          .all members (left - 1) stopping := by rw [kind_setKind _ hlt, if_pos rfl]
      rw [tell_all hkind']
      split
      · next hlast =>
          refine h.countOut ht (by rw [hkind]; simp) hlinks ?_ ?_
          · intro hopen
            unfold Decided
            rw [hfin]
            refine ⟨by cases stopping <;> rfl, fun m' hm' => ?_⟩
            rw [houtcome]
            refine settled_of_last h htold hopen (by rw [hkind]; rfl) hlast m' ?_
            rw [hkind]
            exact hm'
          · rintro _ _ _ ⟨⟩ ho
            cases stopping with
            | true => rfl
            | false => cases ho
      · refine h.countDown ht (by rw [hkind]; rfl) (by rw [hkind]; rfl) rfl hlinks ?_
        exact fun _ _ hk => nomatch hk

end Scheduler

end HotSpec
