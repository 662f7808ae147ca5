import HotSpec.Proofs.Scheduler.Lulls

/-!
# A task that waits for several futures

A task that waits for the first fault among some futures, or else for the last of them, sleeps as long
as they are open.  One of them can be settled without a fault and nothing happens; the last of them
makes the task due.

Main definitions:

- `Scheduler.Guards`: an open future that only one other future waits for.
- `Scheduler.Awaits`: a task that waits for several futures.

Main results:

- Theorems `awaits_join`, `awaits_spawned`: a task begins to wait for several futures.
- Theorem `idle_settle`: nothing happens to any task as long as another future is open.
- Theorem `Awaits.pends`: the last of the futures makes the task due.
-/

namespace HotSpec

namespace Scheduler

variable {Stack Job : Type} {s s' : Scheduler Stack Job} {p : FutureId → Prop}
  {quiet : Job → Prop} {h : Handle Job} {t : TaskId} {task : Task Stack} {f g m : FutureId}
  {members : List FutureId}

/-- An open future that only one other future waits for. -/
structure Guards (s : Scheduler Stack Job) (g m : FutureId) : Prop where
  opened : s.outcome? m = none
  watchers : s.watchers m = [.member g]

/-- A task that waits for the first fault among some futures, or else for the last of them. -/
structure Awaits (s : Scheduler Stack Job) (t : TaskId) (task : Task Stack) (g : FutureId)
    (members : List FutureId) : Prop where
  held : s.task? t = some task
  stopping : task.stopping = false
  awaiting : task.awaiting = some g
  opened : s.outcome? g = none
  watchers : s.watchers g = [.task t]
  kind : ∃ left, s.kind g = .firstFault members left ∧ 0 < left

namespace Guards

theorem lt (hm : s.Guards g m) : m < s.futures.length :=
  lt_of_watched (hm.watchers ▸ List.mem_singleton.mpr rfl)

theorem lasts (hm : s.Guards g m) (hl : s.Lasts p s') (hp : p m) : s'.Guards g m :=
  ⟨(hl.outcome? hp).trans hm.opened, (hl.watchers hp).trans hm.watchers⟩

theorem settle (hm : s.Guards g m) (hne : m ≠ f) (o : Outcome) : (s.settle f o).Guards g m :=
  hm.lasts (lasts_settle (p := (· ≠ f)) o (by simp)) hne

theorem groups (hm : s.Guards g m) : s.groups m = [g] := by
  unfold Scheduler.groups
  rw [hm.watchers]
  rfl

end Guards

namespace Awaits

theorem lt (ha : s.Awaits t task g members) : g < s.futures.length :=
  lt_of_watched (ha.watchers ▸ List.mem_singleton.mpr rfl)

theorem members_eq (ha : s.Awaits t task g members) : (s.kind g).members = members := by
  obtain ⟨left, hkind, -⟩ := ha.kind
  rw [hkind]
  rfl

theorem lasts (ha : s.Awaits t task g members) (htask : s'.task? t = s.task? t)
    (hl : s.Lasts p s') (hp : p g) : s'.Awaits t task g members := by
  obtain ⟨left, hkind, hpos⟩ := ha.kind
  exact ⟨htask.trans ha.held, ha.stopping, ha.awaiting, (hl.outcome? hp).trans ha.opened,
    (hl.watchers hp).trans ha.watchers, hl.firstFault hp hkind ha.opened hpos⟩

/-- The future that a task waits for is none of those that it waits for in turn. -/
theorem ne (ha : s.Awaits t task g members) (hm : s.Guards g m) : m ≠ g := by
  rintro rfl
  have hwatchers := ha.watchers
  rw [hm.watchers] at hwatchers
  cases hwatchers

theorem settle (ha : s.Awaits t task g members) (hne : m ≠ g) (o : Outcome) :
    (s.settle m o).Awaits t task g members := by
  refine ha.lasts ?_ (lasts_settle (p := (· ≠ m)) o (by simp)) hne.symm
  unfold task?
  rw [tasks_settle]

end Awaits

/-! ## The beginning -/

/-- What is of no use to tasks stays so, if all futures that there were keep their outcomes and
members. -/
theorem Idle.keeps (hidle : s.Idle quiet h) (hg : s.Groups) (hmem : h ∈ s.handles)
    (houtcome : ∀ f, f < s.futures.length → s'.outcome? f = s.outcome? f)
    (hkind : ∀ f, f < s.futures.length → s'.kind f = s.kind f) : s'.Idle quiet h := by
  have hsettled (f : FutureId) (hf : s.outcome? f ≠ none) : s'.outcome? f ≠ none := by
    obtain ⟨o, ho⟩ := Option.ne_none_iff_exists'.mp hf
    rwa [houtcome f (lt_of_settled ho)]
  cases h with
  | job job => exact hidle
  | release f => exact hsettled f hidle
  | turn t | wake t f => exact hidle
  | told g m =>
      rcases hidle with hidle | ⟨hfault, u, hu, hopen⟩
      · exact .inl (hsettled g hidle)
      · have hlt : g < s.futures.length := lt_of_mem_members hu
        have hm := hg.member g m (hg.told g m (mem_news.mpr hmem)).1
        refine .inr ⟨?_, u, ?_, ?_⟩
        · unfold faulted
          rw [houtcome m hm.2]
          exact hfault
        · rw [hkind g hlt]
          exact hu
        · rw [houtcome u (hg.member g u hu).2]
          exact hopen

/-- A task begins to wait for the first fault among open futures that nobody waits for, or else for the
last of them. -/
theorem awaits_join (hheld : s.task? t = some task) (hstopping : task.stopping = false)
    (hne : members ≠ []) (hnodup : members.Nodup)
    (hopen : ∀ m ∈ members, m < s.futures.length ∧ s.outcome? m = none ∧ s.watchers m = [])
    (stack : Stack) :
    let g := s.futures.length
    let s' := (s.firstFault members).2.park t g stack
    s'.Awaits t { task with stack, awaiting := some g } g members ∧
      (∀ m ∈ members, s'.Guards g m) ∧ s'.handles = s.handles ∧
      s'.tasks = s.tasks.set t { task with stack, awaiting := some g } ∧
      (∀ f, s'.outcome? f = s.outcome? f) ∧ ∀ f, f < g → s'.kind f = s.kind f := by
  intro g s'
  let s₁ := (s.firstFault members).2
  have hs₁ : s₁ = (s.newFuture (.firstFault members members.length)).2.watchAll g members := by
    simp only [s₁, firstFault, gather_eq]
    rfl
  have hlength : s₁.futures.length = g + 1 := by
    rw [hs₁, length_watchAll, length_newFuture]
  have houtcome (f : FutureId) : s₁.outcome? f = s.outcome? f := by
    rw [hs₁, outcome?_watchAll, outcome?_newFuture]
  have hkind (f : FutureId) :
      s₁.kind f = if f = g then .firstFault members members.length else s.kind f := by
    rw [hs₁, kind_watchAll, kind_newFuture]
  have hrange (m : FutureId) (hm : m ∈ members) :
      m < (s.newFuture (.firstFault members members.length)).2.futures.length := by
    rw [length_newFuture]
    exact Nat.lt_succ_of_lt (hopen m hm).1
  have hwatchers (f : FutureId) : s₁.watchers f =
      if f ∈ members ∧ s.outcome? f = none then s.watchers f ++ [.member g] else s.watchers f := by
    rw [hs₁, watchers_watchAll g hrange hnodup, outcome?_newFuture, watchers_newFuture]
  have hhandles : s₁.handles = s.handles := by
    have hsettled : members.filter (fun m =>
        (s.newFuture (.firstFault members members.length)).2.isSettled m) = [] := by
      refine List.filter_eq_nil_iff.mpr fun m hm => ?_
      rw [isSettled_eq, outcome?_newFuture, (hopen m hm).2.1]
      simp
    rw [hs₁, handles_watchAll, hsettled, List.map_nil, List.append_nil, handles_newFuture]
  have hheld₁ : s₁.task? t = some task := by
    rw [hs₁]
    unfold task?
    rw [tasks_watchAll]
    exact hheld
  have hopen₁ : s₁.outcome? g = none := (houtcome g).trans outcome?_length
  have hs' : s' = (s₁.watch g (.task t)).setTask t { task with stack, awaiting := some g } := by
    change s₁.park t g stack = _
    unfold park
    rw [hheld₁]
  have hwatch (f : FutureId) :
      s'.watchers f = if f = g then s₁.watchers g ++ [.task t] else s₁.watchers f := by
    rw [hs']
    exact watchers_watch hopen₁ (hlength ▸ Nat.lt_succ_self g) f
  have houtcome' (f : FutureId) : s'.outcome? f = s.outcome? f := by
    rw [hs']
    exact (outcome?_watch g _ f).trans (houtcome f)
  have hkind' (f : FutureId) : s'.kind f = s₁.kind f := by
    rw [hs']
    exact kind_watch g _ f
  have htasks : s'.tasks = s.tasks.set t { task with stack, awaiting := some g } := by
    rw [hs']
    change (s₁.watch g (.task t)).tasks.set t _ = _
    rw [tasks_watch, hs₁, tasks_watchAll, tasks_newFuture]
  have hunwatched : s.watchers g = [] := by
    rw [watchers, future_of_le (Nat.le_refl _)]
    rfl
  have hnotMem : g ∉ members := fun hmem => Nat.lt_irrefl g (hopen g hmem).1
  refine ⟨⟨?_, hstopping, rfl, ?_, ?_, members.length, ?_, ?_⟩, fun m hm => ⟨?_, ?_⟩, ?_, htasks,
    houtcome', fun f hf => ?_⟩
  · unfold task?
    rw [htasks, List.getElem?_set_self (lt_of_task hheld)]
  · rw [houtcome', outcome?_length]
  · rw [hwatch, if_pos rfl, hwatchers, if_neg fun h => hnotMem h.1, hunwatched]
    rfl
  · rw [hkind', hkind, if_pos rfl]
  · exact List.length_pos_of_ne_nil hne
  · rw [houtcome', (hopen m hm).2.1]
  · have hmg : m ≠ g := fun heq => hnotMem (heq ▸ hm)
    rw [hwatch, if_neg hmg, hwatchers, if_pos ⟨hm, (hopen m hm).2.1⟩, (hopen m hm).2.2]
    rfl
  · rw [hs']
    change (s₁.watch g (.task t)).handles = _
    rw [handles_watch, if_pos hopen₁, List.append_nil, hhandles]
  · rw [hkind', hkind, if_neg (Nat.ne_of_lt hf)]

/-- A task begins another one and waits for it together with some other futures: the new task is due. -/
theorem awaits_spawned {others : List FutureId} (hheld : s.task? t = some task)
    (hstopping : task.stopping = false) (hg : s.Groups)
    (hidle : ∀ h ∈ s.handles, s.Idle quiet h) (hnodup : others.Nodup)
    (hopen : ∀ m ∈ others, m < s.futures.length ∧ s.outcome? m = none ∧ s.watchers m = [])
    (first stack : Stack) :
    let e := s.futures.length
    let g := e + 1
    let s' := ((s.spawn first).2.firstFault (e :: others)).2.park t g stack
    s'.Awaits t { task with stack, awaiting := some g } g (e :: others) ∧
      (∀ m ∈ e :: others, s'.Guards g m) ∧
      s'.Pends quiet s.tasks.length ⟨first, e, none, false⟩ ∧
      ∀ f, s'.outcome? f = s.outcome? f := by
  intro e g s'
  let s₁ := (s.spawn first).2
  let u := s.tasks.length
  have hlength : s₁.futures.length = g := length_newFuture (s := s) (.task u)
  have houtcome (f : FutureId) : s₁.outcome? f = s.outcome? f := outcome?_newFuture (.task u) f
  have hkind (f : FutureId) : s₁.kind f = if f = e then .task u else s.kind f :=
    kind_newFuture (.task u) f
  have hwatchers (f : FutureId) : s₁.watchers f = s.watchers f := watchers_newFuture (.task u) f
  have htasks : s₁.tasks = s.tasks ++ [⟨first, e, none, false⟩] := rfl
  have hhandles : s₁.handles = s.handles ++ [.turn u] := handles_enqueue _
  have hheld₁ : s₁.task? t = some task := by
    unfold task?
    rw [htasks, List.getElem?_append_left (lt_of_task hheld)]
    exact hheld
  have hunwatched : s.watchers e = [] := by
    rw [watchers, future_of_le (Nat.le_refl _)]
    rfl
  have hopen₁ (m : FutureId) (hm : m ∈ e :: others) :
      m < s₁.futures.length ∧ s₁.outcome? m = none ∧ s₁.watchers m = [] := by
    rw [hlength, houtcome, hwatchers]
    rcases List.mem_cons.mp hm with rfl | hm
    · exact ⟨Nat.lt_succ_self _, outcome?_length, hunwatched⟩
    · exact ⟨Nat.lt_succ_of_lt (hopen m hm).1, (hopen m hm).2⟩
  have hnodup₁ : (e :: others).Nodup :=
    List.nodup_cons.mpr ⟨fun hmem => Nat.lt_irrefl e (hopen e hmem).1, hnodup⟩
  have hjoin := awaits_join hheld₁ hstopping (List.cons_ne_nil _ _) hnodup₁ hopen₁ stack
  rw [hlength] at hjoin
  obtain ⟨hawaits, hguards, hhandles', htasks', houtcome', hkind'⟩ := hjoin
  refine ⟨hawaits, hguards, ⟨?_, rfl, .turn ?_, ?_⟩, fun f => (houtcome' f).trans (houtcome f)⟩
  · have hne : t ≠ u := Nat.ne_of_lt (lt_of_task hheld)
    change s'.tasks[u]? = _
    rw [htasks', List.getElem?_set_ne hne, htasks]
    exact List.getElem?_concat_length
  · rw [hhandles', hhandles]
    exact List.mem_append_right _ (List.mem_singleton.mpr rfl)
  · intro h hmem
    rw [hhandles', hhandles] at hmem
    rcases List.mem_append.mp hmem with hmem | hmem
    · refine .inl ((hidle h hmem).keeps hg hmem (fun f _ => (houtcome' f).trans (houtcome f))
        fun f hf => ?_)
      rw [hkind' f (Nat.lt_succ_of_lt hf), hkind, if_neg (Nat.ne_of_lt hf)]
    · rw [List.mem_singleton.mp hmem]
      exact .inr (.inl rfl)

/-! ## Members that are settled -/

/-- What is of no use to tasks stays so where a future is settled, unless it is news for a future that
waits for that one. -/
theorem Idle.settle (hidle : s.Idle quiet h) (hg : s.Groups) (hmem : h ∈ s.handles)
    (hm : s.Guards g m) (o : Outcome) : (s.settle m o).Idle quiet h ∨
      ∃ m', h = .told g m' ∧ s.outcome? m' ≠ none ∧ s.faulted m' = false := by
  cases h with
  | job job => exact .inl hidle
  | release f => exact .inl (settled_settle hidle m o)
  | turn t | wake t f => cases hidle
  | told g' m' =>
      obtain ⟨-, hm'⟩ := hg.told g' m' (mem_news.mpr hmem)
      rcases hidle with hidle | ⟨hfault, u, hu, hopen⟩
      · exact .inl (.inl (settled_settle hidle m o))
      by_cases hg' : s.outcome? g' = none
      · by_cases hum : u = m
        · subst hum
          -- An open future that waits for this one watches it.
          have huntold : s.Untold g' u := by
            by_contra hheard
            exact ((hg.counts g' hg').heard u hu hheard).1 hopen
          rcases huntold with hgroup | hnews
          · rw [hm.groups, List.mem_singleton] at hgroup
            subst hgroup
            exact .inr ⟨m', rfl, hm', hfault⟩
          · exact absurd hopen (hg.told g' u hnews).2
        · refine .inl (.inr ⟨?_, u, ?_, ?_⟩)
          · rw [faulted_settle hm']
            exact hfault
          · rw [kind_settle]
            exact hu
          · rw [outcome?_settle o hm.opened hm.lt, if_neg hum]
            exact hopen
      · exact .inl (.inl (settled_settle hg' m o))

/-- Nothing happens to any task where a future is settled, as long as another one is open that is waited
for in the same way. -/
theorem idle_settle (hidle : ∀ h ∈ s.handles, s.Idle quiet h) (hg : s.Groups)
    (hm : s.Guards g m) (hmembers : (s.kind g).members = members) (hf : f ∈ members) (hne : f ≠ m)
    (hopen : s.outcome? f = none) (v : Value) :
    ∀ h ∈ (s.settle m (.value v)).handles, (s.settle m (.value v)).Idle quiet h := by
  intro h hmem
  have hopen' : (s.settle m (.value v)).outcome? f = none := by
    rw [outcome?_settle _ hm.opened hm.lt, if_neg hne]
    exact hopen
  have hmember : f ∈ ((s.settle m (.value v)).kind g).members := by
    rw [kind_settle, hmembers]
    exact hf
  rw [handles_settle _ hm.opened, hm.watchers] at hmem
  rcases List.mem_append.mp hmem with hold | hnew
  · rcases (hidle h hold).settle hg hold hm (.value v) with hidle' | ⟨m', rfl, hm', hfault⟩
    · exact hidle'
    · refine .inr ⟨?_, f, hmember, hopen'⟩
      rw [faulted_settle hm']
      exact hfault
  · rw [List.mem_singleton.mp hnew]
    refine .inr ⟨?_, f, hmember, hopen'⟩
    unfold faulted
    rw [outcome?_settle _ hm.opened hm.lt, if_pos rfl]
    rfl

/-- A task goes on waiting where one of several futures is settled without a fault, as long as another
one is open. -/
theorem Awaits.settle_member (ha : s.Awaits t task g members) (hg : s.Groups)
    (hidle : ∀ h ∈ s.handles, s.Idle quiet h) (hm : s.Guards g m) (hmem : m ∈ members)
    (hf : f ∈ members) (hne : f ≠ m) (hopen : s.outcome? f = none) (v : Value) :
    let s' := s.settle m (.value v)
    s'.Awaits t task g members ∧ s'.Groups ∧ ∀ h ∈ s'.handles, s'.Idle quiet h := by
  intro s'
  have hkind : (s.kind m).isGroup = false := by
    have hmember := (hg.member g m (ha.members_eq ▸ hmem)).1
    cases hk : s.kind m with
    | signal | released | task u => rfl
    | firstFault | all =>
        rw [hk] at hmember
        cases hmember
  exact ⟨ha.settle (ha.ne hm) _, hg.settle_of_not_group hkind _,
    idle_settle hidle hg hm ha.members_eq hf hne hopen v⟩

/-- A task that waits for several futures is due once the last of them is settled. -/
theorem Awaits.pends (ha : s.Awaits t task g members) (hg : s.Groups) (hm : s.Guards g m)
    (hidle : ∀ h ∈ s.handles, s.Idle quiet h)
    (hothers : ∀ f ∈ members, f ≠ m → s.outcome? f ≠ none) (o : Outcome) :
    (s.settle m o).Pends quiet t task := by
  have ha' := ha.settle (ha.ne hm) o
  obtain ⟨left, hkind, hpos⟩ := ha'.kind
  refine ⟨ha'.held, ha'.stopping, ?_, ?_⟩
  · rw [ha.awaiting]
    refine .news ha'.opened ha'.watchers hkind hpos fun f hf => ?_
    by_cases hfm : f = m
    · rw [hfm, outcome?_settle _ hm.opened hm.lt, if_pos rfl]
      simp
    · exact settled_settle (hothers f hf hfm) m o
  · intro h hmem
    rw [handles_settle _ hm.opened, hm.watchers] at hmem
    rcases List.mem_append.mp hmem with hold | hnew
    · rcases (hidle h hold).settle hg hold hm o with hidle' | ⟨m', rfl, -⟩
      · exact .inl hidle'
      · exact .inr (.inr ⟨g, ha.awaiting, .inr ⟨m', rfl⟩⟩)
    · rw [List.mem_singleton.mp hnew]
      exact .inr (.inr ⟨g, ha.awaiting, .inr ⟨m, rfl⟩⟩)

end Scheduler

end HotSpec
