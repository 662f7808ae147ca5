import HotSpec.Proofs.Scheduler.Turns

/-!
# While a task waits

A task that waits is due as soon as its future is settled, and its future is settled in time if
there is something to be handled that settles it.  Whatever else is handled in the meantime leaves
the other futures as they are, and is of no use to other tasks.

Main definitions:

- `Scheduler.Idle`: what can be handled without any effect on tasks.
- `Scheduler.Due`: a task that gets a turn by what is to be handled.
- `Scheduler.Pends`: a task that is due while nothing else happens to any task.

Main results:

- Theorem `Due.exists_next`: while a task is due there is something to be handled.
- Theorems `Pends.tell`, `Pends.release`: what is handled keeps a task due.
-/

namespace HotSpec

/-- A future that has not changed but for how many it has still to be told of.  As long as it is open,
that comes to none only if it was none before. -/
structure Future.Lasts (x x' : Future) : Prop where
  form : x'.kind.form = x.kind.form
  outcome : x'.outcome = x.outcome
  watchers : x'.watchers = x.watchers
  left : x.outcome = none → ∀ n, x.kind.left? = some n → 0 < n →
    ∃ n', x'.kind.left? = some n' ∧ 0 < n'

namespace Future.Lasts

variable {x x₁ x₂ x₃ : Future}

theorem refl (x : Future) : x.Lasts x := ⟨rfl, rfl, rfl, fun _ n hn hpos => ⟨n, hn, hpos⟩⟩

theorem trans (h₁ : x₁.Lasts x₂) (h₂ : x₂.Lasts x₃) : x₁.Lasts x₃ where
  form := h₂.form.trans h₁.form
  outcome := h₂.outcome.trans h₁.outcome
  watchers := h₂.watchers.trans h₁.watchers
  left hopen n hn hpos := by
    obtain ⟨n', hn', hpos'⟩ := h₁.left hopen n hn hpos
    exact h₂.left (h₁.outcome.trans hopen) n' hn' hpos'

end Future.Lasts

namespace Scheduler

variable {Stack Job : Type} {s s' s₁ s₂ s₃ : Scheduler Stack Job} {p : FutureId → Prop}
  {quiet : Job → Prop} {h : Handle Job} {t : TaskId} {task : Task Stack} {f g m : FutureId}
  {wait : Option FutureId}

/-- Some futures last. -/
def Lasts (p : FutureId → Prop) (s s' : Scheduler Stack Job) : Prop :=
  ∀ f, p f → (s.future f).Lasts (s'.future f)

namespace Lasts

theorem of_futures (h : s'.futures = s.futures) : s.Lasts p s' := by
  intro f _
  unfold future
  rw [h]
  exact .refl _

theorem trans (h₁ : s₁.Lasts p s₂) (h₂ : s₂.Lasts p s₃) : s₁.Lasts p s₃ :=
  fun f hf => (h₁ f hf).trans (h₂ f hf)

theorem mono {q : FutureId → Prop} (h : s.Lasts p s') (hq : ∀ f, q f → p f) : s.Lasts q s' :=
  fun f hf => h f (hq f hf)

theorem form (h : s.Lasts p s') (hf : p f) : (s'.kind f).form = (s.kind f).form := (h f hf).form

theorem outcome? (h : s.Lasts p s') (hf : p f) : s'.outcome? f = s.outcome? f := (h f hf).outcome

theorem watchers (h : s.Lasts p s') (hf : p f) : s'.watchers f = s.watchers f := (h f hf).watchers

theorem members (h : s.Lasts p s') (hf : p f) : (s'.kind f).members = (s.kind f).members := by
  rw [← FutureKind.members_form, h.form hf, FutureKind.members_form]

theorem faulted (h : s.Lasts p s') (hf : p f) : s'.faulted f = s.faulted f := by
  unfold Scheduler.faulted
  rw [h.outcome? hf]

/-- A future that waits for the first fault goes on doing so, with some that it has to be told of. -/
theorem firstFault {members : List FutureId} {left : Nat} (h : s.Lasts p s') (hf : p f)
    (hkind : s.kind f = .firstFault members left) (hopen : s.outcome? f = none)
    (hpos : 0 < left) : ∃ left', s'.kind f = .firstFault members left' ∧ 0 < left' := by
  obtain ⟨n, hn, hn'⟩ := (h f hf).left hopen left (by
    change (s.kind f).left? = _
    rw [hkind]
    rfl) hpos
  have hform := h.form hf
  change (s'.kind f).left? = some n at hn
  rw [hkind] at hform
  cases hkind' : s'.kind f with
  | firstFault members' left' =>
      rw [hkind'] at hform hn
      cases hform
      cases hn
      exact ⟨n, rfl, hn'⟩
  | _ =>
      rw [hkind'] at hform
      cases hform

/-- A future of a kind that does not change keeps it. -/
theorem kind (h : s.Lasts p s') (hf : p f) (hkind : (s.kind f).isGroup = false) :
    s'.kind f = s.kind f := by
  have hform := h.form hf
  cases hk : s.kind f with
  | firstFault members left | all members left stopping =>
      rw [hk] at hkind
      cases hkind
  | signal | released | task t =>
      rw [hk] at hform
      cases hk' : s'.kind f <;> rw [hk'] at hform <;> first | exact hform | cases hform

end Lasts

/-- A future may come to have fewer that it has to be told of. -/
theorem lasts_setKind {k : FutureKind} {n : Nat} (hlt : f < s.futures.length)
    (hform : k.form = (s.kind f).form) (hk : k.left? = some n)
    (hpos : s.outcome? f = none → 0 < n) : s.Lasts p (s.setKind f k) := by
  intro x _
  unfold setKind
  rw [future_setFuture _ hlt]
  split
  · next hx =>
      subst hx
      exact ⟨hform, rfl, rfl, fun hopen _ _ _ => ⟨n, hk, hpos hopen⟩⟩
  · exact .refl _

/-- Nothing else changes where a future is settled. -/
theorem lasts_settle (o : Outcome) (hp : ¬p f) : s.Lasts p (s.settle f o) := by
  intro x hx
  have hne : x ≠ f := fun heq => hp (heq ▸ hx)
  by_cases hopen : s.outcome? f = none ∧ f < s.futures.length
  · rw [settle_eq hopen.1]
    change (s.future x).Lasts ((s.setFuture f _).future x)
    rw [future_setFuture _ hopen.2, if_neg hne]
    exact .refl _
  · rw [settle_of_settled hopen]
    exact .refl _

/-! ## What is of no use to tasks -/

/-- Whether something can be handled without any effect on tasks: jobs of some sort, news for a future
that is settled or that waits for an open one, and the release of a future that is settled. -/
def Idle (quiet : Job → Prop) (s : Scheduler Stack Job) : Handle Job → Prop
  | .job job => quiet job
  | .told g m => s.outcome? g ≠ none ∨
      s.faulted m = false ∧ ∃ u ∈ (s.kind g).members, s.outcome? u = none
  | .release f => s.outcome? f ≠ none
  | .turn _ | .wake .. => False

/-- What is of no use to tasks stays so, if futures last or are settled and no task ends. -/
theorem Idle.mono (hidle : s.Idle quiet h) (hg : s.Groups) (hmem : h ∈ s.handles)
    (hl : s.Lasts p s')
    (hmember : ∀ u, u < s.futures.length → (s.kind u).isMember = true → p u)
    (hset : ∀ f, f < s.futures.length → p f ∨ s'.outcome? f ≠ none) : s'.Idle quiet h := by
  have hsettled (f : FutureId) (hf : s.outcome? f ≠ none) : s'.outcome? f ≠ none := by
    obtain ⟨o, ho⟩ := Option.ne_none_iff_exists'.mp hf
    rcases hset f (lt_of_settled ho) with hp | hf'
    · rw [hl.outcome? hp]
      exact hf
    · exact hf'
  cases h with
  | job job => exact hidle
  | release f => exact hsettled f hidle
  | turn t | wake t f => exact hidle
  | told g m =>
      rcases hidle with hidle | ⟨hfault, u, hu, hopen⟩
      · exact .inl (hsettled g hidle)
      · have hlt : g < s.futures.length := lt_of_mem_members hu
        rcases hset g hlt with hp | hg'
        · have hmem' : m ∈ (s.kind g).members := (hg.told g m (mem_news.mpr hmem)).1
          refine .inr ⟨?_, u, ?_, ?_⟩
          · rw [hl.faulted (hmember m (hg.member g m hmem').2 (hg.member g m hmem').1)]
            exact hfault
          · rw [hl.members hp]
            exact hu
          · rw [hl.outcome? (hmember u (hg.member g u hu).2 (hg.member g u hu).1)]
            exact hopen
        · exact .inl hg'

/-! ## Tasks that are due -/

/-- Whether a task gets a turn by what is to be handled: the task itself is, or what settles the future
that it waits for. -/
inductive Due (s : Scheduler Stack Job) (t : TaskId) : Option FutureId → Prop
  | turn (h : .turn t ∈ s.handles) : Due s t none
  | wake {f : FutureId} (h : .wake t f ∈ s.handles) (ho : s.outcome? f = some .finished) :
      Due s t (some f)
  | release {f : FutureId} (hopen : s.outcome? f = none) (hwatch : s.watchers f = [.task t])
      (hkind : s.kind f = .released) (h : .release f ∈ s.handles) : Due s t (some f)
  | news {f : FutureId} {members : List FutureId} {left : Nat} (hopen : s.outcome? f = none)
      (hwatch : s.watchers f = [.task t]) (hkind : s.kind f = .firstFault members left)
      (hpos : 0 < left) (hall : ∀ m ∈ members, s.outcome? m ≠ none) : Due s t (some f)

/-- Whether something is what a task is due by. -/
def Serves (s : Scheduler Stack Job) (t : TaskId) (wait : Option FutureId) (h : Handle Job) : Prop :=
  h.turn? = some (t, wait) ∨
    ∃ f, wait = some f ∧ s.outcome? f = none ∧ s.kind f = .released ∧ h = .release f

/-- A task that is due for a turn, while nothing else can happen to any task. -/
structure Pends (quiet : Job → Prop) (s : Scheduler Stack Job) (t : TaskId) (task : Task Stack) :
    Prop where
  held : s.task? t = some task
  stopping : task.stopping = false
  due : s.Due t task.awaiting
  handles : ∀ h ∈ s.handles, s.Idle quiet h ∨ h.turn? = some (t, task.awaiting) ∨
    ∃ f, task.awaiting = some f ∧ (h = .release f ∨ ∃ m, h = .told f m)

/-- A task is due as long as what it is due by is to be handled. -/
theorem Due.lasts (hd : s.Due t wait) (hl : s.Lasts (fun _ => True) s')
    (hkeep : ∀ h ∈ s.handles, s.Serves t wait h → h ∈ s'.handles) : s'.Due t wait := by
  cases hd with
  | turn h => exact .turn (hkeep _ h (.inl rfl))
  | wake h ho => exact .wake (hkeep _ h (.inl rfl)) ((hl.outcome? trivial).trans ho)
  | release hopen hwatch hkind h =>
      refine .release ((hl.outcome? trivial).trans hopen) ((hl.watchers trivial).trans hwatch) ?_
        (hkeep _ h (.inr ⟨_, rfl, hopen, hkind, rfl⟩))
      exact (hl.kind trivial (by rw [hkind]; rfl)).trans hkind
  | news hopen hwatch hkind hpos hall =>
      obtain ⟨left', hkind', hpos'⟩ := hl.firstFault trivial hkind hopen hpos
      refine .news ((hl.outcome? trivial).trans hopen) ((hl.watchers trivial).trans hwatch) hkind'
        hpos' ?_
      intro m hm
      rw [hl.outcome? trivial]
      exact hall m hm

/-- While a task is due there is something to be handled. -/
theorem Due.handles_ne_nil (hd : s.Due t wait) (hg : s.Groups) : s.handles ≠ [] := by
  cases hd with
  | turn h | wake h _ | release _ _ _ h => exact List.ne_nil_of_mem h
  | @news f members left hopen hwatch hkind hpos hall =>
      obtain ⟨rest, -, hlength, hrest⟩ := (hg.counts f hopen).left left (by rw [hkind]; rfl)
      obtain ⟨m, hm⟩ := List.exists_mem_of_length_pos (hlength ▸ hpos)
      rcases (hrest m).mp hm with hgroup | hnews
      · obtain ⟨hmem, hnone⟩ := hg.group f m hgroup
        rw [hkind] at hmem
        exact absurd hnone (hall m hmem)
      · exact List.ne_nil_of_mem (mem_news.mp hnews)

/-- The future that a task is due by is no member of another one. -/
theorem Due.isMember (hd : s.Due t (some f)) (hopen : s.outcome? f = none) :
    (s.kind f).isMember = false := by
  cases hd with
  | wake _ ho =>
      rw [hopen] at ho
      cases ho
  | release _ _ hkind _ | news _ _ hkind _ _ =>
      rw [hkind]
      rfl

namespace Pends

/-- A task is still due, and nothing else can happen, after something was handled that had no effect on
futures or settled the one that the task waits for. -/
theorem lasts (hp : s.Pends quiet t task) (hg : s.Groups) (htasks : s'.tasks = s.tasks)
    (hl : s.Lasts p s')
    (hmember : ∀ u, u < s.futures.length → (s.kind u).isMember = true → p u)
    (hset : ∀ f, f < s.futures.length → p f ∨ s'.outcome? f ≠ none)
    (hhandles : ∀ h ∈ s'.handles, h ∈ s.handles ∨ s'.Idle quiet h ∨
      h.turn? = some (t, task.awaiting))
    (hdue : s'.Due t task.awaiting) : s'.Pends quiet t task where
  held := by
    unfold task?
    rw [htasks]
    exact hp.held
  stopping := hp.stopping
  due := hdue
  handles h hmem := by
    rcases hhandles h hmem with hold | hidle | hturn
    · rcases hp.handles h hold with hidle | hother
      · exact .inl (hidle.mono hg hold hl hmember hset)
      · exact .inr hother
    · exact .inl hidle
    · exact .inr (.inl hturn)

/-- A task is still due after something was handled that it is not due by, if all futures last. -/
theorem all_last (hp : s.Pends quiet t task) (hg : s.Groups) (ht : s.Takes h s₁)
    (hother : ¬s.Serves t task.awaiting h) (htasks : s'.tasks = s.tasks)
    (hl : s.Lasts (fun _ => True) s') (hold : ∀ h' ∈ s₁.handles, h' ∈ s'.handles)
    (hnew : ∀ h' ∈ s'.handles, h' ∈ s₁.handles ∨ s'.Idle quiet h') : s'.Pends quiet t task := by
  refine hp.lasts hg htasks hl (fun _ _ _ => trivial) (fun _ _ => .inl trivial) ?_ ?_
  · intro h' hmem
    rcases hnew h' hmem with hmem | hidle
    · exact .inl (ht.mem hmem)
    · exact .inr (.inl hidle)
  · refine hp.due.lasts hl ?_
    intro h' hmem hserves
    rcases List.mem_cons.mp (ht.perm.mem_iff.mp hmem) with rfl | hmem
    · exact absurd hserves hother
    · exact hold h' hmem

/-- A task is still due, now by its own turn, after the future that it waits for was settled. -/
theorem settled (hp : s.Pends quiet t task) (hg : s.Groups) (ht : s.Takes h s₁)
    (hwait : task.awaiting = some f) (hopen : s.outcome? f = none)
    (hwatch : s.watchers f = [.task t]) (htasks : s'.tasks = s.tasks)
    (hl : s.Lasts (· ≠ f) s') (ho : s'.outcome? f = some .finished)
    (hhandles : s'.handles = s₁.handles ++ [.wake t f]) : s'.Pends quiet t task := by
  have hdue := hp.due
  rw [hwait] at hdue
  refine hp.lasts hg htasks hl ?_ ?_ ?_ ?_
  · rintro u - hu rfl
    rw [hdue.isMember hopen] at hu
    cases hu
  · intro g _
    by_cases heq : g = f
    · subst heq
      rw [ho]
      exact .inr (by simp)
    · exact .inl heq
  · intro h' hmem
    rw [hhandles] at hmem
    rcases List.mem_append.mp hmem with hmem | hmem
    · exact .inl (ht.mem hmem)
    · rw [List.mem_singleton.mp hmem, hwait]
      exact .inr (.inr rfl)
  · rw [hwait]
    exact .wake (by simp [hhandles]) ho

end Pends

/-! ## News -/

/-- A future that waits for an open one has to be told of two at least when there are news for it. -/
theorem Groups.two_left {n : Nat} {u : FutureId} (hg : s.Groups) (htold : (g, m) ∈ s.news)
    (hopen : s.outcome? g = none) (hn : (s.kind g).left? = some n) (hu : u ∈ (s.kind g).members)
    (huopen : s.outcome? u = none) : 2 ≤ n := by
  by_contra hlast
  exact settled_of_last hg htold hopen hn (by omega) u hu huopen

/-- What news do to a future that is not settled by them. -/
theorem lasts_tell (hg : s.Groups) (ht : s.Takes (.told g m) s₁)
    (hidle : s.outcome? g ≠ none ∨
      s.faulted m = false ∧ ∃ u ∈ (s.kind g).members, s.outcome? u = none) :
    s.Lasts p (s₁.tell g m) ∧ (s₁.tell g m).handles = s₁.handles ∧
      (s₁.tell g m).tasks = s.tasks := by
  have htold : (g, m) ∈ s.news := mem_news.mpr (ht.perm.mem_iff.mpr (List.mem_cons_self ..))
  have hmem := (hg.told g m htold).1
  have hlasts : s.Lasts p s₁ := .of_futures ht.futures
  have hset (k : FutureKind) (n : Nat) (hform : k.form = (s.kind g).form)
      (hk : k.left? = some n) (hpos : s.outcome? g = none → 0 < n) :
      s.Lasts p (s₁.setKind g k) ∧ (s₁.setKind g k).handles = s₁.handles ∧
        (s₁.setKind g k).tasks = s.tasks := by
    have hlt : g < s₁.futures.length := by
      rw [ht.futures]
      exact lt_of_mem_members hmem
    refine ⟨hlasts.trans (lasts_setKind hlt ?_ hk ?_), handles_setKind _ _, ht.tasks⟩
    · rw [ht.kind]
      exact hform
    · rw [ht.outcome?]
      exact hpos
  have hsettled (k : FutureKind) (o : Outcome) (hsettled : s.outcome? g ≠ none) :
      (s₁.setKind g k).settle g o = s₁.setKind g k := by
    refine settle_of_settled fun h => hsettled ?_
    rw [← ht.outcome?, ← outcome?_setKind g k]
    exact h.1
  cases hkind : s.kind g with
  | signal | released | task t =>
      rw [hkind] at hmem
      cases hmem
  | firstFault members left =>
      have hkind₁ : s₁.kind g = .firstFault members left := by rw [ht.kind, hkind]
      have hpos (hopen : s.outcome? g = none) : 0 < left - 1 ∧ s.faulted m = false := by
        rcases hidle with hidle | ⟨hfault, u, hu, huopen⟩
        · exact absurd hopen hidle
        · have htwo := hg.two_left htold hopen (n := left) (by rw [hkind]; rfl) hu huopen
          exact ⟨by omega, hfault⟩
      rw [tell_firstFault hkind₁]
      have hset := hset (.firstFault members (left - 1)) (left - 1) (by rw [hkind]; rfl) rfl
        fun hopen => (hpos hopen).1
      split
      · next hlast =>
          rw [hsettled]
          · exact hset
          · intro hopen
            obtain ⟨hleft, hfault⟩ := hpos hopen
            have hfault₁ : s₁.faulted m = false := by
              unfold faulted
              rw [ht.outcome?]
              exact hfault
            rw [hfault₁] at hlast
            rcases hlast with hlast | hlast
            · omega
            · cases hlast
      · exact hset
  | all members left stopping =>
      have hkind₁ : s₁.kind g = .all members left stopping := by rw [ht.kind, hkind]
      have hpos (hopen : s.outcome? g = none) : 0 < left - 1 := by
        rcases hidle with hidle | ⟨hfault, u, hu, huopen⟩
        · exact absurd hopen hidle
        · have htwo := hg.two_left htold hopen (n := left) (by rw [hkind]; rfl) hu huopen
          omega
      rw [tell_all hkind₁]
      have hset := hset (.all members (left - 1) stopping) (left - 1) (by rw [hkind]; rfl) rfl hpos
      split
      · next hlast =>
          rw [hsettled]
          · exact hset
          · intro hopen
            have hleft := hpos hopen
            omega
      · exact hset

/-- What is left of a task that is due after something was taken and handled: it is still due, perhaps
by a turn now. -/
structure Abides (quiet : Job → Prop) (t : TaskId) (task : Task Stack)
    (s s₁ s' : Scheduler Stack Job) : Prop where
  pends : s'.Pends quiet t task
  lasts : s.Lasts (fun f => task.awaiting ≠ some f) s'
  tasks : s'.tasks = s.tasks
  handles : s'.handles = s₁.handles ∨ ∃ f, s'.handles = s₁.handles ++ [.wake t f]

/-- News keep a task due: they have no effect, or settle the future that the task waits for. -/
theorem Pends.tell (hp : s.Pends quiet t task) (hg : s.Groups) (ht : s.Takes (.told g m) s₁) :
    Abides quiet t task s s₁ (s₁.tell g m) := by
  have hmem : .told g m ∈ s.handles := ht.perm.mem_iff.mpr (List.mem_cons_self ..)
  have hother : ¬s.Serves t task.awaiting (.told g m) := by
    rintro (hturn | ⟨f, -, -, -, heq⟩)
    · cases hturn
    · cases heq
  have hidle_case (hidle : s.outcome? g ≠ none ∨
      s.faulted m = false ∧ ∃ u ∈ (s.kind g).members, s.outcome? u = none) :
      Abides quiet t task s s₁ (s₁.tell g m) := by
    obtain ⟨hl, hhandles, htasks⟩ := lasts_tell (p := fun _ => True) hg ht hidle
    refine ⟨hp.all_last hg ht hother htasks hl ?_ ?_, hl.mono fun _ _ => trivial, htasks,
      .inl hhandles⟩
    · rw [hhandles]
      exact fun _ h => h
    · rw [hhandles]
      exact fun _ h => .inl h
  rcases hp.handles _ hmem with hidle | hturn | ⟨f, hwait, heq⟩
  · exact hidle_case hidle
  · cases hturn
  · by_cases hopen : s.outcome? g = none
    · have hgf : g = f := by
        rcases heq with heq | ⟨m', heq⟩
        · cases heq
        · cases heq
          rfl
      subst hgf
      have hdue := hp.due
      rw [hwait] at hdue
      have hgm := (hg.told g m (mem_news.mpr hmem)).1
      cases hdue with
      | wake _ ho =>
          rw [hopen] at ho
          cases ho
      | release _ _ hkind _ =>
          rw [hkind] at hgm
          cases hgm
      | @news _ members left _ hwatch hkind hpos hall =>
          have hkind₁ : s₁.kind g = .firstFault members left := by rw [ht.kind, hkind]
          have hlt : g < s₁.futures.length := lt_of_kind (by rw [hkind₁]; simp)
          have hopen₁ (k : FutureKind) : (s₁.setKind g k).outcome? g = none := by
            rw [outcome?_setKind, ht.outcome?, hopen]
          rw [tell_firstFault hkind₁]
          split
          · -- The news settle the future, and so the task gets a turn.
            have hhandles (k : FutureKind) : ((s₁.setKind g k).settle g .finished).handles =
                s₁.handles ++ [.wake t g] := by
              rw [handles_settle _ (hopen₁ k), watchers_setKind, ht.watchers, hwatch]
              rfl
            have htasks (k : FutureKind) :
                ((s₁.setKind g k).settle g .finished).tasks = s.tasks := by
              rw [tasks_settle, tasks_setKind, ht.tasks]
            have hl (k : FutureKind) :
                s.Lasts (· ≠ g) ((s₁.setKind g k).settle g .finished) := by
              refine (Lasts.of_futures ht.futures).trans (.trans ?_ (lasts_settle _ (by simp)))
              intro x hx
              unfold setKind
              rw [future_setFuture _ hlt, if_neg hx]
              exact .refl _
            refine ⟨hp.settled hg ht hwait hopen hwatch (htasks _) (hl _) ?_ (hhandles _),
              (hl _).mono ?_, htasks _, .inr ⟨g, hhandles _⟩⟩
            · rw [outcome?_settle _ (hopen₁ _) (by rw [length_setKind]; exact hlt), if_pos rfl]
            · rintro x hx rfl
              exact hx hwait
          · next hmore =>
              have hl : s.Lasts (fun _ => True) (s₁.setKind g (.firstFault members (left - 1))) := by
                refine (Lasts.of_futures ht.futures).trans
                  (lasts_setKind (n := left - 1) hlt (by rw [hkind₁]; rfl) rfl fun _ => ?_)
                rw [not_or] at hmore
                omega
              refine ⟨hp.all_last hg ht hother ?_ hl (fun _ h => h) fun _ h => .inl h,
                hl.mono fun _ _ => trivial, ht.tasks, .inl rfl⟩
              exact ht.tasks
    · exact hidle_case (.inl hopen)

/-! ## Releases -/

theorem release_of_settled (h : s.outcome? f ≠ none) : s.release f = s := by
  unfold release
  split
  · exact settle_of_settled fun h' => h h'.1
  · rfl

/-- Releases keep a task due: they have no effect, or settle the future that the task waits for. -/
theorem Pends.release (hp : s.Pends quiet t task) (hg : s.Groups) (ht : s.Takes (.release f) s₁) :
    Abides quiet t task s s₁ (s₁.release f) := by
  have hmem : .release f ∈ s.handles := ht.perm.mem_iff.mpr (List.mem_cons_self ..)
  have hl (p : FutureId → Prop) : s.Lasts p s₁ := .of_futures ht.futures
  have hsame (hother : ¬s.Serves t task.awaiting (.release f)) (heq : s₁.release f = s₁) :
      Abides quiet t task s s₁ (s₁.release f) := by
    rw [heq]
    exact ⟨hp.all_last hg ht hother ht.tasks (hl _) (fun _ h => h) fun _ h => .inl h, hl _,
      ht.tasks, .inl rfl⟩
  by_cases hopen : s.outcome? f = none
  · rcases hp.handles _ hmem with hidle | hturn | ⟨f', hwait, heq⟩
    · exact absurd hopen hidle
    · cases hturn
    · have hff : f = f' := by
        rcases heq with heq | ⟨m', heq⟩
        · cases heq
          rfl
        · cases heq
      subst hff
      have hdue := hp.due
      rw [hwait] at hdue
      cases hdue with
      | wake _ ho =>
          rw [hopen] at ho
          cases ho
      | @news _ members left _ _ hkind _ _ =>
          refine hsame ?_ ?_
          · rintro (hturn | ⟨f', -, -, hkind', heq⟩)
            · cases hturn
            · cases heq
              rw [hkind] at hkind'
              cases hkind'
          · have hkind₁ : (s₁.future f).kind = .firstFault members left := (ht.kind f).trans hkind
            simp only [Scheduler.release, hkind₁]
      | release _ hwatch hkind _ =>
          have hkind₁ : (s₁.future f).kind = .released := (ht.kind f).trans hkind
          have hlt : f < s₁.futures.length := lt_of_kind (by rw [ht.kind, hkind]; simp)
          have hopen₁ : s₁.outcome? f = none := (ht.outcome? f).trans hopen
          have hrelease : s₁.release f = s₁.settle f .finished := by
            simp only [Scheduler.release, hkind₁]
          have hhandles : (s₁.settle f .finished).handles = s₁.handles ++ [.wake t f] := by
            rw [handles_settle _ hopen₁, ht.watchers, hwatch]
            rfl
          have htasks : (s₁.settle f .finished).tasks = s.tasks := by rw [tasks_settle, ht.tasks]
          have hlast : s.Lasts (· ≠ f) (s₁.settle f .finished) :=
            (hl _).trans (lasts_settle _ (by simp))
          rw [hrelease]
          refine ⟨hp.settled hg ht hwait hopen hwatch htasks hlast ?_ hhandles, hlast.mono ?_,
            htasks, .inr ⟨f, hhandles⟩⟩
          · rw [outcome?_settle _ hopen₁ hlt, if_pos rfl]
          · rintro x hx rfl
            exact hx hwait
  · refine hsame ?_ (release_of_settled (by rw [ht.outcome?]; exact hopen))
    rintro (hturn | ⟨f', -, hopen', -, heq⟩)
    · cases hturn
    · cases heq
      exact hopen hopen'

/-! ## The end of a turn -/

/-- A task that pauses is due. -/
theorem pends_pause (hheld : s.task? t = some task) (hwait : task.awaiting = none)
    (hstopping : task.stopping = false) (hidle : ∀ h ∈ s.handles, s.Idle quiet h) (stack : Stack) :
    (s.pause t stack).Pends quiet t { task with stack } := by
  have heq : s.pause t stack = (s.setTask t { task with stack }).enqueue [.turn t] := by
    simp only [pause, hheld]
  have hhandles : (s.pause t stack).handles = s.handles ++ [.turn t] := by
    rw [heq]
    exact handles_enqueue _
  refine ⟨?_, hstopping, ?_, ?_⟩
  · rw [heq]
    exact (task?_setTask _ (lt_of_task hheld) t).trans (if_pos rfl)
  · rw [hwait]
    exact .turn (by simp [hhandles])
  · intro h hmem
    rw [hhandles] at hmem
    rcases List.mem_append.mp hmem with hmem | hmem
    · rw [heq]
      exact .inl (hidle h hmem)
    · rw [List.mem_singleton.mp hmem, hwait]
      exact .inr (.inl rfl)

/-- A task that waits for a timer is due. -/
theorem pends_sleep (hheld : s.task? t = some task) (hstopping : task.stopping = false)
    (hg : s.Groups) (hidle : ∀ h ∈ s.handles, s.Idle quiet h) (delay : Float) (stack : Stack) :
    let s' := ((s.newFuture .released).2.after delay (.release s.futures.length)).park t
      s.futures.length stack
    s'.Pends quiet t { task with stack, awaiting := some s.futures.length } ∧
      s.Lasts (· < s.futures.length) s' := by
  intro s'
  let f := s.futures.length
  let s₁ := (s.newFuture .released).2.after delay (.release f)
  have hlength : s₁.futures.length = f + 1 := length_newFuture (s := s) .released
  have hopen : s₁.outcome? f = none := (outcome?_newFuture _ f).trans outcome?_length
  have hs' : s' = (s₁.watch f (.task t)).setTask t { task with stack, awaiting := some f } := by
    have hheld₁ : s₁.task? t = some task := hheld
    simp only [s', park]
    rw [show ((s.newFuture .released).2.after delay (.release s.futures.length)).task? t = some task
      from hheld₁]
  have hfuture (g : FutureId) : s'.future g = (s₁.watch f (.task t)).future g := by rw [hs']; rfl
  have hlasts : s.Lasts (· < f) s' := by
    intro g hgf
    have hne : g ≠ f := Nat.ne_of_lt hgf
    have hold : s₁.future g = s.future g := by
      change (s.futures ++ [_])[g]?.getD default = _
      rw [List.getElem?_append_left hgf]
      rfl
    rw [hfuture, future_watch, if_neg fun h => hne h.1, hold]
    exact .refl _
  have hhandles : s'.handles.Perm (.release f :: s.handles) := by
    have hwatch : (s₁.watch f (.task t)).handles = s₁.handles := by
      rw [handles_watch, if_pos hopen, List.append_nil]
    rw [hs']
    change (s₁.watch f (.task t)).handles.Perm _
    rw [hwatch]
    exact handles_after delay _
  refine ⟨⟨?_, hstopping, ?_, ?_⟩, hlasts⟩
  · rw [hs']
    refine (task?_setTask _ ?_ t).trans (if_pos rfl)
    rw [tasks_watch]
    exact lt_of_task hheld
  · refine .release ?_ ?_ ?_ (hhandles.mem_iff.mpr (List.mem_cons_self ..))
    · change (s'.future f).outcome = none
      rw [hfuture]
      exact (outcome?_watch f _ f).trans hopen
    · change (s'.future f).watchers = _
      rw [hfuture]
      refine (watchers_watch hopen (hlength ▸ Nat.lt_succ_self f) f).trans ?_
      rw [if_pos rfl]
      change (s.newFuture .released).2.watchers f ++ _ = _
      rw [watchers_newFuture, watchers, future_of_le (Nat.le_refl _)]
      rfl
    · change (s'.future f).kind = _
      rw [hfuture]
      refine (kind_watch f _ f).trans ?_
      exact (kind_newFuture (s := s) .released f).trans (if_pos rfl)
  · intro h hmem
    rcases List.mem_cons.mp (hhandles.mem_iff.mp hmem) with rfl | hmem
    · exact .inr (.inr ⟨f, rfl, .inl rfl⟩)
    · exact .inl ((hidle h hmem).mono hg hmem hlasts (fun u hu _ => hu) fun g hgf => .inl hgf)

/-! ## What is handled next -/

private theorem grain_pos : 0 < Ticks.grain := by
  have hle : 30 ≤ Ticks.perSecond := by decide
  unfold Ticks.grain
  generalize Ticks.perSecond = n at hle
  exact Nat.div_pos (Nat.le_trans (by decide) (Nat.pow_le_pow_right (by decide) hle)) (by decide)

theorem exists_next? (h : s.round ≠ [] ∨ s.ready ≠ [] ∨ ∃ timer timers, s.timers = timer :: timers ∧
    isDue s.now timer = true) : ∃ handle s', s.next? = some (handle, s') := by
  have hround : (if s.round.isEmpty then s.beginRound else s).round ≠ [] := by
    split
    · next hempty =>
        unfold beginRound
        rcases h with hround | hready | ⟨timer, timers, htimers, hdue⟩
        · exact absurd (List.isEmpty_iff.mp hempty) hround
        · simp [hready]
        · simp [htimers, hdue]
    · next hempty => simpa using hempty
  unfold next?
  obtain ⟨handle, round, heq⟩ := List.exists_cons_of_ne_nil hround
  simp only [heq]
  exact ⟨_, _, rfl⟩

/-- As long as there is something to be handled, something is handled next. -/
theorem exists_next (h : s.handles ≠ []) : ∃ handle s', s.next = some (handle, s') := by
  unfold next
  cases hnext : s.next? with
  | some found => exact ⟨found.1, found.2, rfl⟩
  | none =>
      have hnone (h' : s.round ≠ [] ∨ s.ready ≠ [] ∨ ∃ timer timers, s.timers = timer :: timers ∧
          isDue s.now timer = true) : False := by
        obtain ⟨handle, s', heq⟩ := exists_next? h'
        rw [hnext] at heq
        cases heq
      have hround : s.round = [] := by_contra fun hr => hnone (.inl hr)
      have hready : s.ready = [] := by_contra fun hr => hnone (.inr (.inl hr))
      obtain ⟨timer, timers, htimers⟩ : ∃ timer timers, s.timers = timer :: timers := by
        refine List.exists_cons_of_ne_nil fun hempty => h ?_
        simp [handles, hround, hready, hempty]
      have hclock : s.advanceClock = some { s with now := max s.now timer.1 } := by
        simp [advanceClock, htimers]
      simp only [hclock, Option.bind_some]
      refine exists_next? (.inr (.inr ⟨timer, timers, htimers, ?_⟩))
      exact decide_eq_true (Nat.lt_of_le_of_lt (Nat.le_max_right s.now timer.1)
        (Nat.lt_add_of_pos_right grain_pos))

end Scheduler

end HotSpec
