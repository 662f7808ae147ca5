import HotSpec.Proofs.Engine.Passing
import HotSpec.Proofs.Scheduler.Vigils

/-!
# The life of a page

While a page lives, the test waits for the task that loads it, and for the two futures by which the
page can fail the test.  Where the environment is quiet neither of them is settled before the end of the
page, and the test ends as the task does.

Main definitions:

- `World.Hosts`: a test that waits for the task that loads its page.
- `World.Open`, `World.Shut`: whether the page can still fail the test.

Main results:

- Theorem `shows_afterReset`: a test begins to wait for its page.
- Theorem `shows_load`: the page is loaded and handed over.
- Theorem `shows_pageDone`: the end of the page is the end of the wait.
-/

namespace HotSpec

/-- What work comes to if its value is forgotten. -/
def Outcome.forget : Outcome → Outcome
  | .value _ => .finished
  | o => o

namespace World

variable {w w' : World} {t u : TaskId} {task : Task (List Frame)} {g e v f : FutureId}

/-- A test that waits for the task that loads its page, and for the two futures by which the page can
fail it. -/
structure Hosts (w : World) (t u : TaskId) (task : Task (List Frame)) (g e v f : FutureId) :
    Prop where
  lone : w.Lone u
  verdict : w.verdict = some v
  failSignal : w.failSignal = some f
  awaits : w.scheduler.Awaits t task g [e, v, f]
  root : task.future < w.scheduler.futures.length ∧ w.scheduler.outcome? task.future = none
  other : task.future ∉ [e, v, f]
  ending : w.scheduler.ending? u = some e
  loading : w.scheduler.Guards g e

/-- Whether the page can still fail the test, but has given no cause to do so. -/
structure Open (w : World) (g v f : FutureId) : Prop where
  verdict : w.scheduler.Guards g v
  failSignal : w.scheduler.Guards g f
  rejected : w.monitor.rejected = false
  buffering : w.monitor.buffering = false
  undecided : w.monitor.verdict = none

/-- Whether the page has come to its end without a failure. -/
structure Shut (w : World) (v f : FutureId) : Prop where
  verdict : w.scheduler.outcome? v = some .finished
  failSignal : w.scheduler.outcome? f = some .finished
  rejected : w.monitor.rejected = false
  buffering : w.monitor.buffering = false
  decided : w.monitor.verdict = some none

theorem Hosts.flows (h : w.Hosts t u task g e v f) (hf : w.Flows w') :
    w'.Hosts t u task g e v f := by
  obtain ⟨pending, hd⟩ := hf.drifts
  have hl := hf.scheduler.lasts
  have htask (x : TaskId) : w'.scheduler.task? x = w.scheduler.task? x := by
    unfold Scheduler.task?
    rw [hf.scheduler.tasks]
  refine ⟨hf.lone h.lone, hd.verdict.trans h.verdict, hd.failSignal.trans h.failSignal,
    h.awaits.lasts (htask t) hl h.awaits.lt, ⟨?_, (hl.outcome? h.root.1).trans h.root.2⟩,
    h.other, ?_, h.loading.lasts hl h.loading.lt⟩
  · exact Nat.lt_of_lt_of_le h.root.1 hf.scheduler.length
  · unfold Scheduler.ending?
    rw [htask]
    exact h.ending

theorem Open.flows (h : w.Open g v f) (hf : w.Flows w') : w'.Open g v f := by
  obtain ⟨pending, hd⟩ := hf.drifts
  have hl := hf.scheduler.lasts
  refine ⟨h.verdict.lasts hl h.verdict.lt, h.failSignal.lasts hl h.failSignal.lt, ?_, ?_, ?_⟩
  · rw [hd.monitor]
    exact h.rejected
  · rw [hd.monitor]
    exact h.buffering
  · rw [hd.monitor]
    exact h.undecided

theorem Shut.flows (h : w.Shut v f) (hf : w.Flows w') : w'.Shut v f := by
  obtain ⟨pending, hd⟩ := hf.drifts
  have hl := hf.scheduler.lasts
  refine ⟨(hl.outcome? (Scheduler.lt_of_settled h.verdict)).trans h.verdict,
    (hl.outcome? (Scheduler.lt_of_settled h.failSignal)).trans h.failSignal, ?_, ?_, ?_⟩
  · rw [hd.monitor]
    exact h.rejected
  · rw [hd.monitor]
    exact h.buffering
  · rw [hd.monitor]
    exact h.decided

/-! ## The end of a page -/

/-- At the end of an open page both futures are settled without a failure. -/
theorem closePage_open (hv : w.verdict = some v) (hf : w.failSignal = some f) (h : w.Open g v f) :
    ∃ site, w.closePage = { w with
      monitor := { w.monitor with verdict := some none }, site
      scheduler := (w.scheduler.settle v .finished).settle f .finished } := by
  refine ⟨w.unlistenMonitor.site, ?_⟩
  have hstep : w.monitor.step w.session.console .close =
      ({ w.monitor with verdict := some none }, ⟨true, none⟩) := by
    simp [Monitor.step, Monitor.settle, h.rejected, h.buffering, h.undecided]
  simp only [closePage, tellMonitor, hstep, if_true, h.undecided, passVerdict]
  change ((World.settle _ w.verdict .finished).settle w.failSignal .finished) = _
  rw [hv, hf]
  rfl

/-- A page that has come to its end is not closed once more. -/
theorem closePage_shut (hf : w.failSignal = some f) (h : w.Shut v f) :
    ∃ site, w.closePage = { w with site } := by
  refine ⟨w.unlistenMonitor.site, ?_⟩
  have hstep : w.monitor.step w.session.console .close = (w.monitor, ⟨true, none⟩) := by
    rw [Monitor.step, if_neg (by simp [h.rejected, h.buffering]), Monitor.settle, h.decided]
    change (({ w.monitor with verdict := some none } : Monitor), _) = _
    rw [← h.decided]
  have hsettle (w' : World) : w'.settle w.failSignal .finished =
      { w' with scheduler := w'.scheduler.settle f .finished } := by
    rw [hf]
    rfl
  simp only [closePage, tellMonitor, hstep, if_true, h.decided, passVerdict]
  refine (hsettle _).trans ?_
  have hsettled : w.scheduler.settle f .finished = w.scheduler :=
    Scheduler.settle_of_settled (by rw [h.failSignal]; simp)
  change ({ w with
    site := w.unlistenMonitor.site, scheduler := w.scheduler.settle f .finished } : World) = _
  rw [hsettled]

/-- At the end of an open page the test still waits for the task that has loaded it. -/
theorem Hosts.closePage (h : w.Hosts t u task g e v f) (ho : w.Open g v f)
    (hg : w.scheduler.Groups) : w.closePage.Hosts t u task g e v f ∧ w.closePage.Shut v f := by
  obtain ⟨site, heq⟩ := closePage_open h.verdict h.failSignal ho
  have hnodup : [e, v, f].Nodup := h.awaits.members_eq ▸ hg.members g
  simp only [List.nodup_cons, List.mem_cons, List.not_mem_nil, or_false, not_or] at hnodup
  obtain ⟨⟨hev, hef⟩, hvf, -⟩ := hnodup
  have hother := h.other
  simp only [List.mem_cons, List.not_mem_nil, or_false, not_or] at hother
  let s₁ := w.scheduler.settle v .finished
  let s₂ := s₁.settle f .finished
  obtain ⟨hawaits₁, hg₁, hidle₁⟩ := h.awaits.settle_member hg h.lone.idle ho.verdict (by simp)
    (List.mem_cons_self ..) hev h.loading.opened .nothing
  have hfail₁ : s₁.Guards g f := ho.failSignal.settle (Ne.symm hvf) _
  have hloading₁ : s₁.Guards g e := h.loading.settle hev _
  obtain ⟨hawaits₂, -, hidle₂⟩ := hawaits₁.settle_member hg₁ hidle₁ hfail₁ (by simp)
    (List.mem_cons_self ..) hef hloading₁.opened .nothing
  have htasks : s₂.tasks = w.scheduler.tasks := by
    rw [Scheduler.tasks_settle, Scheduler.tasks_settle]
  have houtcome (x : FutureId) : s₂.outcome? x =
      if x = f then some .finished else if x = v then some .finished
        else w.scheduler.outcome? x := by
    rw [Scheduler.outcome?_settle _ hfail₁.opened hfail₁.lt,
      Scheduler.outcome?_settle _ ho.verdict.opened ho.verdict.lt]
  rw [heq]
  refine ⟨⟨⟨?_, hidle₂, h.lone.loads⟩, h.verdict, h.failSignal, hawaits₂, ⟨?_, ?_⟩, h.other, ?_,
    hloading₁.settle hef _⟩, ?_, ?_, ho.rejected, ho.buffering, rfl⟩
  · obtain ⟨ending, htask⟩ := h.lone.task
    refine ⟨ending, ?_⟩
    unfold Scheduler.task?
    rw [htasks]
    exact htask
  · rw [Scheduler.length_settle, Scheduler.length_settle]
    exact h.root.1
  · rw [houtcome, if_neg hother.2.2, if_neg hother.2.1]
    exact h.root.2
  · unfold Scheduler.ending? Scheduler.task?
    rw [htasks]
    exact h.ending
  · rw [houtcome, if_neg hvf, if_pos rfl]
  · rw [houtcome, if_pos rfl]

/-- A test that waits for its page ends with another future than the one it waits for. -/
theorem Hosts.root_ne (h : w.Hosts t u task g e v f) {current : Option TaskId}
    (ht : w.scheduler.Threads current) : task.future ≠ g := by
  intro heq
  obtain ⟨left, hkind, -⟩ := h.awaits.kind
  have hroot := (ht.ending t g).mp (by
    unfold Scheduler.ending?
    rw [h.awaits.held, ← heq]
    rfl)
  rw [hkind] at hroot
  cases hroot

/-- Once the task that has loaded the page ends, all that the test waits for is settled, and none but
that task can have failed. -/
theorem Hosts.outcomes {s : Scheduler (List Frame) Job} {o : Outcome}
    (h : w.Hosts t u task g e v f) (hs : w.Shut v f) (hg : w.scheduler.Groups)
    (hlast : ∀ x, x ≠ g → s.outcome? x = if x = e then some o else w.scheduler.outcome? x) :
    s.outcome? e = some o ∧ s.outcome? v = some .finished ∧ s.outcome? f = some .finished := by
  have hnodup : [e, v, f].Nodup := h.awaits.members_eq ▸ hg.members g
  simp only [List.nodup_cons, List.mem_cons, List.not_mem_nil, or_false, not_or] at hnodup
  have hwaits {x : FutureId} (hx : w.scheduler.outcome? x = some .finished) : x ≠ g := by
    rintro rfl
    rw [h.awaits.opened] at hx
    cases hx
  refine ⟨?_, ?_, ?_⟩
  · rw [hlast e (h.awaits.ne h.loading), if_pos rfl]
  · rw [hlast v (hwaits hs.verdict), if_neg (Ne.symm hnodup.1.1), hs.verdict]
  · rw [hlast f (hwaits hs.failSignal), if_neg (Ne.symm hnodup.1.2), hs.failSignal]

end World

namespace Machine

open World

variable {w : World} {t u : TaskId} {task : Task (List Frame)} {g e v f : FutureId}
  {stack : List Frame}

/-! ## The beginning of a page -/

/-- A test whose sources were reset waits for the task that loads its page. -/
theorem shows_afterReset {r : FutureId}
    (hm : Machine.Sound ⟨w, some (t, .outcome .finished (.reset none :: stack))⟩)
    (hl : w.Lone t) (hv : w.verdict = some v) (hf : w.failSignal = some f) (hne : v ≠ f)
    (hopen : ∀ m ∈ [v, f], m < w.scheduler.futures.length ∧ w.scheduler.outcome? m = none ∧
      w.scheduler.watchers m = [])
    (hroot : w.scheduler.ending? t = some r) (hother : r ∉ [v, f])
    (hrun : w.scheduler.outcome? r = none) :
    ∃ w' u g e, Shows ⟨w, some (t, .outcome .finished (.reset none :: stack))⟩ []
        ⟨w', some (u, .work (.load none) [])⟩ ∧
      w'.Hosts t u ⟨.joined [e, v, f] false :: .raced :: stack, r, some g, false⟩ g e v f ∧
      w'.scheduler.Guards g v ∧ w'.scheduler.Guards g f ∧
      ({ w with session := w.session.openQueue } : World).Drifts w' := by
  obtain ⟨ending, htask⟩ := hl.task
  obtain rfl : ending = r := by
    unfold Scheduler.ending? at hroot
    rw [htask] at hroot
    exact Option.some.inj hroot
  let s := w.scheduler
  let e := s.futures.length
  let g := e + 1
  let frames : List Frame := .joined [e, v, f] false :: .raced :: stack
  let s' := ((s.spawn [.begin (.load none)]).2.firstFault [e, v, f]).2.park t g frames
  let w₁ : World := { w with
    session := w.session.openQueue
    history := .opened (w.session.openQueue.pendingLabels.getD []) :: w.history
    scheduler := s' }
  obtain ⟨hawaits, hguards, hpends, houtcome⟩ := Scheduler.awaits_spawned (t := t) htask rfl
    hm.groups hl.idle (by simpa using hne) hopen [.begin (.load none)] frames
  have hstep : step ⟨w, some (t, .outcome .finished (.reset none :: stack))⟩ = some ⟨w₁, none⟩ := by
    let s₁ := (s.spawn [.begin (.load none)]).2
    let members := e :: w.verdict.toList ++ w.failSignal.toList
    have hmembers : members = [e, v, f] := by simp [members, hv, hf]
    have hlength : s₁.futures.length = g := Scheduler.length_newFuture (s := s) _
    have hrun : (Move.afterReset none .finished).run w =
        (.await s₁.futures.length [.joined members false, .raced],
          { w₁ with scheduler := (s₁.firstFault members).2 }) := rfl
    rw [hmembers, hlength] at hrun
    have hwait : (s₁.firstFault [e, v, f]).2.outcome? g = none :=
      (Scheduler.outcome?_park t g frames g).symm.trans hawaits.opened
    rw [step_outcome]
    simp only [Frame.take, hrun, follow, hwait]
    rfl
  have hrange : ending < s.futures.length := by
    refine Scheduler.lt_of_kind ?_
    rw [(hm.threads.ending t ending).mp hroot]
    simp
  obtain ⟨w', hshows, hwoken⟩ := lull (hm.step hstep) hl.loads hpends
  have hbegin : step ⟨w', some (s.tasks.length, .outcome .finished [.begin (.load none)])⟩ =
      some ⟨w', some (s.tasks.length, .work (.load none) [])⟩ := rfl
  have hne' : t ≠ s.tasks.length := Nat.ne_of_lt (Scheduler.lt_of_task htask)
  have hlasts : s'.Lasts (fun _ => True) w'.scheduler := hwoken.lasts.mono fun x _ => by simp
  have hguards' (m : FutureId) (hmem : m ∈ [e, v, f]) : w'.scheduler.Guards g m :=
    (hguards m hmem).lasts hlasts trivial
  have hnew : w'.scheduler.task? s.tasks.length = some ⟨[], e, none, false⟩ := by
    unfold Scheduler.task?
    rw [hwoken.tasks, List.getElem?_set_self (Scheduler.lt_of_task hpends.held)]
  have hold : w'.scheduler.task? t = s'.task? t := by
    unfold Scheduler.task?
    rw [hwoken.tasks, List.getElem?_set_ne hne'.symm]
  have hall := (Shows.silent [_] hstep rfl rfl (by simp [Event.sight?])).silently
    (hshows.silently (.mute hbegin rfl rfl))
  obtain ⟨more, hextends⟩ := Steps.extends hm hall.steps
  refine ⟨w', s.tasks.length, g, e, hall, ⟨⟨⟨e, hnew⟩, hwoken.idle, ?_⟩, ?_, ?_,
    hawaits.lasts hold hlasts trivial, ⟨?_, ?_⟩, ?_, ?_, hguards' e (by simp)⟩,
    hguards' v (by simp), hguards' f (by simp), ?_⟩
  · rw [hwoken.session]
    exact hl.loads
  · exact hwoken.verdict.trans hv
  · exact hwoken.failSignal.trans hf
  · exact Nat.lt_of_lt_of_le hrange hextends.length
  · exact (hlasts.outcome? trivial).trans ((houtcome ending).trans hrun)
  · simp only [List.mem_cons, not_or]
    exact ⟨Nat.ne_of_lt hrange, by simpa using hother⟩
  · unfold Scheduler.ending?
    rw [hnew]
    rfl
  · exact (Drifts.aside { w with session := w.session.openQueue } _ _ _).trans hwoken.toDrifts

/-- The page is loaded and handed over: the monitor listens to it. -/
theorem shows_load (he : w.environment.Quiet)
    (hm : Machine.Sound ⟨w, some (u, .work (.load none) stack)⟩) (hl : w.Lone u)
    (hattached : w.monitor.attached = false) (hbefore : w.session.beforeLoad = none) :
    ∃ (w' : World) (closed : List Chore), Shows ⟨w, some (u, .work (.load none) stack)⟩
        [.loadPage w.session.settings.pageUrl] ⟨w', some (u, .work (.inPage none)
          (.pageDone :: .deeds (closed.map .chore) :: .unloaded :: stack))⟩ ∧
      (∀ c ∈ closed, c.Quiet) ∧
      ({ w with monitor := { w.monitor with attached := true } } : World).Passes w' := by
  obtain ⟨before, opened, closed, hload, hquiet₁, hquiet₂, hclosed⟩ :=
    he.load w.session.settings.pageUrl
  let last : List Deed := .handOver none :: closed.map .chore
  have hdeeds : w.environment.loadDeeds w.session.settings.pageUrl none =
      before.map .chore ++ .openPage :: (opened.map .chore ++ last) := by
    simp [Environment.loadDeeds, hload, last, LoadStep.deed, Function.comp_def]
  -- The environment begins to load the page.
  let w₁ : World := w.record (.log (.loadPage w.session.settings.pageUrl))
  have hcall : step ⟨w, some (u, .work (.load none) stack)⟩ = some ⟨w₁, some (u, .work
      (.deeds (w.environment.loadDeeds w.session.settings.pageUrl none)) (.unloaded :: stack))⟩ := rfl
  rw [hdeeds] at hcall
  have hpasses₁ : w.Passes w₁ := hl.aside _ _
  have hl₁ := hpasses₁.lone hl
  have hshows₁ := Shows.single [_] hcall rfl
  obtain ⟨w₂, hshows₂, hpasses₂⟩ := shows_chores hquiet₁ (hm.step hcall) hl₁
  have hl₂ := hpasses₂.lone hl₁
  have hpasses := hpasses₁.trans hpasses₂
  -- The page is there, but not loaded.
  let monitor : Monitor := { w.monitor with attached := true }
  let w₃ : World := { w₂ with monitor }.listenMonitor
  have hopen : step ⟨w₂, some (u, .work (.deeds (.openPage :: (opened.map .chore ++ last)))
      (.unloaded :: stack))⟩ = some ⟨w₃, some (u, .work (.deeds (opened.map .chore ++ last))
        (.unloaded :: stack))⟩ := by
    have hattach : w₂.monitor.attach = .ok monitor := by
      rw [hpasses.monitor, Monitor.attach, hattached]
      rfl
    have hnone : w₂.session.beforeLoad = none := by rw [hpasses.session, hbefore]
    have hrun (rest : List Deed) : (Move.openPage rest).run w₂ = (.call (.deeds rest) [], w₃) := by
      simp only [Move.openPage, StateT.run_bind, StateT.run_get, pure_bind, hattach, hnone]
      rfl
    rw [step_work]
    simp only [Work.run, Move.deeds, hrun]
    rfl
  have hpasses₃ : ({ w with monitor } : World).Passes w₃ :=
    ⟨⟨hpasses.session, hpasses.environment, rfl, hpasses.verdict, hpasses.failSignal,
      hpasses.generators⟩, hpasses.scheduler⟩
  have hl₃ : w₃.Lone u := hpasses₃.lone ⟨hl.task, hl.idle, hl.loads⟩
  have hshows₃ := (hshows₁.then_silently hshows₂).then_silently (.mute hopen rfl rfl)
  obtain ⟨w₄, hshows₄, hpasses₄⟩ := shows_chores hquiet₂ (hshows₃.sound hm) hl₃
  have hhand : step ⟨w₄, some (u, .work (.deeds last) (.unloaded :: stack))⟩ =
      some ⟨w₄, some (u, .work (.inPage none)
        (.pageDone :: .deeds (closed.map .chore) :: .unloaded :: stack))⟩ := rfl
  exact ⟨w₄, closed, (hshows₃.then_silently hshows₄).then_silently (.mute hhand rfl rfl), hclosed,
    hpasses₃.trans hpasses₄⟩

/-! ## The end of a page -/

/-- A task that ends settles its future. -/
theorem step_end (h : w.scheduler.ending? u = some e) (o : Outcome) :
    step ⟨w, some (u, .outcome o [])⟩ = some ⟨w.withScheduler (·.settle e o), none⟩ := by
  unfold Scheduler.ending? at h
  obtain ⟨task, htask, rfl⟩ := Option.map_eq_some_iff.mp h
  have hsettle : w.scheduler.finish u o = w.scheduler.settle task.future o := by
    unfold Scheduler.finish
    rw [htask]
  rw [step_finish]
  exact congrArg (fun s => some (Machine.mk (w.withScheduler fun _ => s) none)) hsettle

/-- Where all futures are settled, a wait for them comes to what they have come to. -/
theorem step_joined (members : List FutureId) (stack : List Frame)
    (h : ∀ x ∈ members, w.scheduler.outcome? x ≠ none) :
    step ⟨w, some (t, .outcome .finished (.joined members false :: stack))⟩ = some ⟨w, some (t,
      .outcome (Move.outcomeOf false (members.filterMap w.scheduler.outcome?)) stack)⟩ := by
  have hpending : members.filter (fun x => !w.scheduler.isSettled x) = [] := by
    refine List.filter_eq_nil_iff.mpr fun x hx => ?_
    rw [Scheduler.isSettled_eq]
    simpa [Option.isSome_iff_ne_none] using h x hx
  have hrun : (Move.joined members false .finished).run w =
      (.give (Move.outcomeOf false (members.filterMap w.scheduler.outcome?)), w) := by
    simp only [Move.joined, StateT.run_bind, StateT.run_get, pure_bind, hpending, List.isEmpty_nil,
      if_true]
    rfl
  rw [step_outcome]
  simp only [Frame.take, hrun]
  rfl

/-- How the run phase ended is put down, where nobody sees it. -/
theorem step_raced (stack : List Frame) {o : Outcome} (ho : o.isStopped = false) :
    ∃ ending, ending.sight? = none ∧
      step ⟨w, some (t, .outcome o.forget (.raced :: stack))⟩ =
        some ⟨w.record ending, some (t, .outcome o.forget stack)⟩ := by
  cases o with
  | value x => exact ⟨.passed, rfl, rfl⟩
  | fault fault => exact ⟨.halted fault, rfl, rfl⟩
  | stopped => cases ho

/-- The task that has loaded the page ends, and with it the wait of the test. -/
theorem shows_finish {r : FutureId} {o : Outcome} (ho : o.isStopped = false)
    (hm : Machine.Sound ⟨w, some (u, .outcome o.forget [])⟩)
    (hh : w.Hosts t u ⟨.joined [e, v, f] false :: .raced :: stack, r, some g, false⟩ g e v f)
    (hs : w.Shut v f) :
    ∃ w', Shows ⟨w, some (u, .outcome o.forget [])⟩ [] ⟨w', some (t, .outcome o.forget stack)⟩ ∧
      w'.scheduler.ending? t = some r ∧ w'.scheduler.outcome? r = none := by
  -- The wait is over as soon as the task ends.
  have hfinish := step_end hh.ending o.forget
  have hothers : ∀ x ∈ [e, v, f], x ≠ e → w.scheduler.outcome? x ≠ none := by
    simp [hs.verdict, hs.failSignal]
  have hpends := hh.awaits.pends hm.groups hh.loading hh.lone.idle hothers o.forget
  obtain ⟨w₁, hshows₁, hwoken⟩ := lull (hm.step hfinish) hh.lone.loads hpends
  have hshows := (Shows.mute hfinish rfl rfl).silently hshows₁
  have houtcome (x : FutureId) (hx : x ≠ g) : w₁.scheduler.outcome? x =
      if x = e then some o.forget else w.scheduler.outcome? x := by
    have hlast : w₁.scheduler.outcome? x = (w.scheduler.settle e o.forget).outcome? x :=
      hwoken.lasts.outcome? fun heq => hx (Option.some.inj heq).symm
    rw [hlast, Scheduler.outcome?_settle _ hh.loading.opened hh.loading.lt]
  -- None of the futures is pending, and none but that of the task can have failed.
  obtain ⟨heo, hvo, hfo⟩ := hh.outcomes hs hm.groups houtcome
  have hjoined := step_joined (w := w₁) (t := t) [e, v, f] (.raced :: stack)
    (by simp [heo, hvo, hfo])
  have hof : Move.outcomeOf false ([e, v, f].filterMap w₁.scheduler.outcome?) = o.forget := by
    rw [show [e, v, f].filterMap w₁.scheduler.outcome? = [o.forget, .finished, .finished] by
      simp [heo, hvo, hfo]]
    cases o with
    | value | fault => rfl
    | stopped => cases ho
  rw [hof] at hjoined
  obtain ⟨ending, hsight, hraced⟩ := step_raced (w := w₁) (t := t) stack ho
  have htask : w₁.scheduler.task? t = some ⟨[], r, none, false⟩ := by
    unfold Scheduler.task?
    rw [hwoken.tasks]
    exact List.getElem?_set_self (Scheduler.lt_of_task hpends.held)
  refine ⟨w₁.record ending, (hshows.silently (.mute hjoined rfl rfl)).silently
    (.silent [ending] hraced rfl rfl (by simpa using hsight)), ?_, ?_⟩
  · change w₁.scheduler.ending? t = _
    unfold Scheduler.ending?
    rw [htask]
    rfl
  · change w₁.scheduler.outcome? r = none
    have hne : r ≠ e := fun heq => hh.other (heq ▸ List.mem_cons_self ..)
    rw [houtcome r (hh.root_ne hm.threads), if_neg hne]
    exact hh.root.2

/-- The page comes to its end, and with it the wait of the test. -/
theorem shows_pageDone {r : FutureId} {o : Outcome} {closed : List Chore} (ho : o.isStopped = false)
    (hclosed : ∀ c ∈ closed, c.Quiet)
    (hm : Machine.Sound ⟨w, some (u, .outcome o
      [.pageDone, .deeds (closed.map .chore), .unloaded])⟩)
    (hh : w.Hosts t u ⟨.joined [e, v, f] false :: .raced :: stack, r, some g, false⟩ g e v f)
    (hopen : w.Open g v f) :
    ∃ w', Shows ⟨w, some (u, .outcome o [.pageDone, .deeds (closed.map .chore), .unloaded])⟩ []
        ⟨w', some (t, .outcome o.forget stack)⟩ ∧
      w'.scheduler.ending? t = some r ∧ w'.scheduler.outcome? r = none := by
  have hdone : step ⟨w, some (u, .outcome o [.pageDone, .deeds (closed.map .chore), .unloaded])⟩ =
      some ⟨w.closePage, some (u, .outcome o [.deeds (closed.map .chore), .unloaded])⟩ := rfl
  have hhistory : w.closePage.history = w.history := by
    obtain ⟨site, heq⟩ := closePage_open hh.verdict hh.failSignal hopen
    rw [heq]
  obtain ⟨hh₁, hs₁⟩ := hh.closePage hopen hm.groups
  have hshows₁ := Shows.mute hdone hhistory rfl
  have hfinish {w₂ : World} (hshows₂ : Shows
      ⟨w.closePage, some (u, .outcome o [.deeds (closed.map .chore), .unloaded])⟩ []
        ⟨w₂, some (u, .outcome o.forget [])⟩) (hpasses : w.closePage.Passes w₂) :
      ∃ w', Shows ⟨w, some (u, .outcome o [.pageDone, .deeds (closed.map .chore), .unloaded])⟩ []
          ⟨w', some (t, .outcome o.forget stack)⟩ ∧
        w'.scheduler.ending? t = some r ∧ w'.scheduler.outcome? r = none := by
    have hshows := hshows₁.silently hshows₂
    obtain ⟨w', hrest, hend⟩ := shows_finish ho (hshows.sound hm) (hh₁.flows hpasses.flows)
      (hs₁.flows hpasses.flows)
    exact ⟨w', hshows.silently hrest, hend⟩
  cases o with
  | stopped => cases ho
  | fault fault =>
      have hpass : step ⟨w.closePage, some (u, .outcome (.fault fault)
          [.deeds (closed.map .chore), .unloaded])⟩ =
            some ⟨w.closePage, some (u, .outcome (.fault fault) [.unloaded])⟩ := rfl
      have hleave : step ⟨w.closePage, some (u, .outcome (.fault fault) [.unloaded])⟩ =
          some ⟨w.closePage, some (u, .outcome (.fault fault) [])⟩ := rfl
      exact hfinish ((Shows.mute hpass rfl rfl).silently (.mute hleave rfl rfl)) hh₁.lone.refl
  | value x =>
      have hdeeds : step ⟨w.closePage, some (u, .outcome (.value x)
          [.deeds (closed.map .chore), .unloaded])⟩ =
            some ⟨w.closePage, some (u, .work (.deeds (closed.map .chore)) [.unloaded])⟩ := rfl
      have hshows₂ := Shows.mute hdeeds rfl rfl
      obtain ⟨w₂, hshows₃, hpasses₂⟩ := shows_deeds hclosed
        (hshows₂.sound (hshows₁.sound hm)) hh₁.lone
      have hh₂ := hh₁.flows hpasses₂.flows
      obtain ⟨site, heq⟩ := closePage_shut hh₂.failSignal (hs₁.flows hpasses₂.flows)
      have hleave : step ⟨w₂, some (u, .outcome .finished [.unloaded])⟩ =
          some ⟨w₂.closePage, some (u, .outcome .finished [])⟩ := rfl
      rw [heq] at hleave
      exact hfinish ((hshows₂.silently hshows₃).silently (.mute hleave rfl rfl))
        (hpasses₂.trans (hh₂.lone.aside site _))

end Machine

end HotSpec
