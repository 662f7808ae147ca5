import HotSpec.Proofs.Engine.Gathering
import HotSpec.Proofs.Script.Page

/-!
# What the first task tells of the script

While the page is there the first task waits for its load.  By then the script is over, and the task
passes on how: the race ends as the load has, the first phase tells the script, which is over and has
nothing more to say, and the test ends.

Main definitions:

- `Machine.Reporting`: where the first task stands after its race.
- `Machine.Hosting`: where it stands once the page is asked for.

Main results:

- Theorem `Paged.settled`: where the load has come to an outcome, the script is over.
- Theorem `Hosting.moves_self`: every step of the first task passes on how the script has ended.
-/

namespace HotSpec

variable {r : Registry} {talk : Talk} {m m' : Machine}

/-! ## After the race -/

/-- Where the first task stands after its race, for the reply that the script has ended with. -/
inductive Machine.Reporting (m : Machine) (reply : Reply) : Prop
  | raced {o : Outcome} {rest : List Frame} (h : m.current = some (0, .outcome o (.raced :: rest)))
      (hrest : Resuming rest) (ho : o.Reports reply)
  | told {o : Outcome} {rest : List Frame} (h : m.current = some (0, .outcome o rest))
      (hrest : Resuming rest) (ho : o.Reports reply)
  /-- The script is told, but it is over. -/
  | again {reply' : Reply} (h : m.current = some (0, .work
      (.resume (.phase .prepare) scriptNumber reply') [.prepared]))
      (ho : (Outcome.ofReply reply').Reports reply)
  | prepared {o : Outcome} (h : m.current = some (0, .outcome o [.prepared])) (ho : o.Reports reply)
  | closes (h : m.Closes reply)

namespace Outcome

theorem reports_value {o : Outcome} {v : Value} : o.Reports (.ok v) := by rintro fault ⟨⟩

theorem reports_fault {fault : Fault} : (Outcome.fault fault).Reports (.error fault) := by
  rintro _ ⟨⟩
  rfl

/-- What comes after a value need not tell of anything, since that did not either. -/
theorem Reports.andThen {o o' : Outcome} {reply : Reply} (h : o.Reports reply) :
    (o.andThen o').Reports reply := by
  intro fault hfault
  cases h fault hfault
  rfl

end Outcome

/-- After the second phase has started, a test is over once its script is. -/
theorem run_prepared_of_started {w : World} (h : w.session.started = true) (o : Outcome) :
    ((Move.prepared o).run w).1 = .give (o.andThen .finished) := by
  cases o with
  | value v =>
      rcases run_prepared v w with ⟨hnot, -⟩ | heq
      · cases h.symm.trans hnot
      · exact heq
  | fault | stopped => rfl

namespace Machine

variable {t : TaskId} {head : Head} {stack : List Frame} {turn : Turn} {new : List (List Frame)}
  {w' : World} {load : FutureId} {reply : Reply}

/-- Where the first task tells of the script it has its turn, until it is done. -/
theorem Reporting.cases_current (h : m.Reporting reply) :
    (∃ c, m.current = some (0, c) ∧ c.frames ≠ []) ∨ m.Closes reply := by
  cases h with
  | closes h => exact .inr h
  | raced hcurrent | again hcurrent | prepared hcurrent =>
      exact .inl ⟨_, hcurrent, by simp [Control.frames]⟩
  | told hcurrent hrest =>
      refine .inl ⟨_, hcurrent, ?_⟩
      rcases hrest with rfl | rfl <;> simp [Control.frames]

/-- The first task passes on how the script has ended. -/
theorem Reporting.moves_self (h : m.Reporting reply) (hm : m.Sound)
    (hended : m.world.Ended) (hstarted : m.world.session.started = true)
    (hunstopped : ∀ o fs, m.current = some (0, .outcome o fs) → o ≠ .stopped)
    (hopen : m.world.scheduler.kind 0 = .task 0 ∧
      ∀ f fs, m.frames 0 = some (f :: fs) → m.world.scheduler.outcome? 0 = none)
    (hstep : m.step = some m') (hcurrent : m.current = some (0, head.control stack)) :
    Talk.Run r (.gone reply) m.words (.gone reply) ∧ m'.Reporting reply := by
  obtain ⟨new, hmoves⟩ := hm.moves_of_head hstep hcurrent
  have hopen' : m'.world.scheduler.outcome? 0 = none :=
    (hmoves.ended 0 0 hopen.1).trans (hopen.2 _ _ hmoves.before)
  cases h with
  | @raced o rest hcurrent' hrest ho =>
      obtain ⟨-, rfl, rfl⟩ := hmoves.head_eq hcurrent'
      rw [words_of_silent hcurrent rfl]
      have hrun : ((Move.raced o).run m.world).1 = .give o := by cases o <;> rfl
      have hnext := hmoves.next
      change m'.current = (((Move.raced o).run m.world).1.control stack).map _ at hnext
      rw [hrun] at hnext
      exact ⟨.nil, .told hnext hrest ho⟩
  | @told o rest hcurrent' hrest ho =>
      rcases hrest with rfl | rfl
      · obtain ⟨-, rfl, rfl⟩ := hmoves.head_eq hcurrent'
        rw [words_of_silent hcurrent rfl]
        have hrun : ((Frame.forget.take o).run m.world).1 = .give (o.andThen .finished) := by
          cases o <;> rfl
        have hnext := hmoves.next
        change m'.current = (((Frame.forget.take o).run m.world).1.control []).map _ at hnext
        rw [hrun] at hnext
        exact ⟨.nil, .closes (.ends hnext hopen' ho.andThen)⟩
      · obtain ⟨-, rfl, rfl⟩ := hmoves.head_eq hcurrent'
        obtain ⟨reply', rfl⟩ := Outcome.exists_reply (hunstopped _ _ hcurrent')
        obtain ⟨hwords, hnext⟩ := answer_step hstep hcurrent'
        rw [hwords]
        exact ⟨.single (.gone rfl), .again hnext ho⟩
  | @again reply' hcurrent' ho =>
      obtain ⟨hrun, reply'', hnext, hreply⟩ := again_step hended hstep hcurrent'
      refine ⟨hrun, .prepared hnext fun fault hfault => ?_⟩
      have hfault' : reply' = .error fault := by
        have heq := ho fault hfault
        cases reply' <;> cases heq
        rfl
      rw [hreply fault hfault']
      rfl
  | @prepared o hcurrent' ho =>
      obtain ⟨-, rfl, rfl⟩ := hmoves.head_eq hcurrent'
      rw [words_of_silent hcurrent rfl]
      have hnext := hmoves.next
      change m'.current = (((Move.prepared o).run m.world).1.control []).map _ at hnext
      rw [run_prepared_of_started hstarted] at hnext
      exact ⟨.nil, .closes (.ends hnext hopen' ho.andThen)⟩
  | closes h => cases hmoves.before.symm.trans h.frames

/-! ## The end of the load -/

/-- Where the load has come to an outcome, the script is over, and the outcome tells of it. -/
theorem Paged.settled (h : m.Paged r talk) (hm : m.Sound) (hloads : m.Loads load) {o : Outcome}
    (ho : m.world.scheduler.outcome? load = some o) :
    ∃ reply, talk = .gone reply ∧ o.Reports reply := by
  have hframes {fs : List Frame} (hfs : m.frames 1 = some fs) : fs = [] := by
    cases fs with
    | nil => rfl
    | cons f fs => cases ho.symm.trans (hloads.opened f fs hfs)
  have hload {load' : FutureId} (hk : m.world.scheduler.kind load' = .task 1) : load' = load :=
    hm.threads.task_unique hk hloads.kind
  cases h with
  | coming h =>
      cases h with
      | fresh hfs => cases hframes hfs
      | given hcurrent | loads hcurrent | inPage hcurrent => cases hframes (frames_current hcurrent)
      | loading hfs | missed hfs | opens hfs => cases (List.append_eq_nil_iff.mp (hframes hfs)).2
  | asked hcurrent | due hcurrent | again hcurrent | gone hcurrent =>
      cases hframes (frames_current hcurrent)
  | refused hcurrent hseat =>
      obtain ⟨f, rest, rfl, -⟩ := hseat.answers
      cases hframes (frames_current hcurrent)
  | busy hfs habove hseat =>
      obtain ⟨f, rest, rfl, -⟩ := hseat.answers
      cases (List.append_eq_nil_iff.mp (hframes hfs)).2
  | failing hcurrent hbelow hk hopen => cases ho.symm.trans (hload hk ▸ hopen)
  | closing => exact ⟨_, rfl, Outcome.reports_value⟩
  | failed hfs hk houtcome =>
      rw [hload hk] at houtcome
      cases ho.symm.trans houtcome
      exact ⟨_, rfl, Outcome.reports_fault⟩

end Machine

/-- Where one of several futures has failed and no other has, all have come to that fault. -/
theorem World.jointOutcome_of_single {w : World} {members : List FutureId} {i : FutureId}
    {fault : Fault} (hi : i ∈ members) (hfault : w.scheduler.outcome? i = some (.fault fault))
    (hothers : ∀ j ∈ members, j ≠ i → w.scheduler.faulted j = false) (results : Bool) :
    w.jointOutcome members results = .fault fault := by
  have hfind : (members.filterMap w.scheduler.outcome?).find? Outcome.isFault =
      some (.fault fault) := by
    induction members with
    | nil => cases hi
    | cons j members ih =>
        by_cases hji : j = i
        · subst hji
          rw [List.filterMap_cons_some hfault]
          rfl
        · have hrest := ih (List.mem_of_ne_of_mem (Ne.symm hji) hi)
            fun j' hj' => hothers j' (List.mem_cons_of_mem _ hj')
          cases ho : w.scheduler.outcome? j with
          | none => rwa [List.filterMap_cons_none ho]
          | some o =>
              have hnot : o.isFault = false := by
                have hfaulted := hothers j (List.mem_cons_self ..) hji
                unfold Scheduler.faulted at hfaulted
                rwa [ho] at hfaulted
              rw [List.filterMap_cons_some ho, List.find?_cons_of_neg (by simp [hnot]), hrest]
  unfold World.jointOutcome Move.outcomeOf
  rw [hfind]

/-- Signals that are cancelled are settled. -/
theorem Scheduler.settled_cancelAll {Stack Job : Type} {s : Scheduler Stack Job} {fs : List FutureId}
    (h : ∀ f ∈ fs, s.kind f = .signal) {i : FutureId}
    (hi : s.outcome? i ≠ none ∨ i ∈ fs ∧ i < s.futures.length) :
    (s.cancelAll fs).outcome? i ≠ none := by
  induction fs generalizing s with
  | nil => exact hi.resolve_right (by simp)
  | cons f fs ih =>
      have hf := h f (List.mem_cons_self ..)
      by_cases hopen : s.outcome? f = none
      · have heq : s.cancelAll (f :: fs) = (s.settle f .stopped).cancelAll fs := by
          unfold cancelAll
          rw [List.foldl_cons, cancel_signal hf hopen]
        rw [heq]
        refine ih (fun f' hf' => ?_) ?_
        · rw [kind_settle]
          exact h f' (List.mem_cons_of_mem _ hf')
        · rw [length_settle]
          rcases hi with hi | ⟨hi, hlt⟩
          · exact .inl (settled_settle hi f _)
          · rcases List.mem_cons.mp hi with rfl | hi
            · refine .inl ?_
              rw [outcome?_settle _ hopen hlt, if_pos rfl]
              simp
            · exact .inr ⟨hi, hlt⟩
      · have hset : s.isSettled f = true := by
          rw [isSettled_eq]
          exact Option.isSome_iff_ne_none.mpr hopen
        have heq : s.cancelAll (f :: fs) = s.cancelAll fs := by
          unfold cancelAll
          rw [List.foldl_cons]
          simp [cancel, cancelWithin, hset]
        rw [heq]
        refine ih (fun f' hf' => h f' (List.mem_cons_of_mem _ hf')) ?_
        rcases hi with hi | ⟨hi, hlt⟩
        · exact .inl hi
        · rcases List.mem_cons.mp hi with rfl | hi
          · exact .inl hopen
          · exact .inr ⟨hi, hlt⟩

namespace Machine

variable {t : TaskId} {head : Head} {stack : List Frame} {turn : Turn} {new : List (List Frame)}
  {w' : World} {load : FutureId} {reply : Reply}

/-! ## While the page is there -/

/-- Where the first task stands once the page is asked for. -/
inductive Hosting (m : Machine) (load : FutureId) (talk : Talk) : Prop
  /-- It waits for the load, in a race. -/
  | waits {members : List FutureId} {rest : List Frame}
      (h : m.frames 0 = some (.joined members false :: .raced :: rest)) (hrest : Resuming rest)
      (hload : load ∈ members)
  /-- The load has ended, and the others are cancelled. -/
  | collects {members : List FutureId} {v : Value} {rest : List Frame}
      (h : m.frames 0 = some (.collected members false (.value v) :: .raced :: rest))
      (hrest : Resuming rest) (hload : load ∈ members)
      (hracers : ∀ i ∈ members, i = load ∨ m.world.Heeds i)
      (hsettled : ∀ i ∈ members, m.world.scheduler.outcome? i ≠ none)
  | reports {reply : Reply} (htalk : talk = .gone reply) (h : m.Reporting reply)

/-- A step that leaves all frames leaves the first task where it is, or ends it. -/
theorem Hosting.rests (h : m.Hosting load talk) (hrests : m.Rests m')
    (hheeds : ∀ i, m.world.Heeds i → m'.world.Heeds i)
    (hkind : m.world.scheduler.kind 0 = .task 0) : m'.Hosting load talk := by
  cases h with
  | waits hfs hrest hload => exact .waits ((hrests.frames 0).trans hfs) hrest hload
  | collects hfs hrest hload hracers hall =>
      exact .collects ((hrests.frames 0).trans hfs) hrest hload
        (fun i hi => (hracers i hi).imp_right (hheeds i)) fun i hi => hrests.grows.still (hall i hi)
  | reports htalk h =>
      refine .reports htalk ?_
      rcases h.cases_current with ⟨c, hcurrent, hc⟩ | hcloses
      · exact absurd hcurrent (hrests.not_current hc)
      · exact .closes (hcloses.rests hrests hkind)

/-- Another task leaves the first one where it is. -/
theorem Hosting.moves_other {talk' : Talk} (h : m.Hosting load talk)
    (hmoves : m.Moves t head stack turn new w' m') (ht : t ≠ 0)
    (hheeds : ∀ i, m.world.Heeds i → m'.world.Heeds i) (hframes : m'.frames 0 = m.frames 0)
    (hover : ∀ reply, talk = .gone reply → talk' = .gone reply) : m'.Hosting load talk' := by
  have hnot {c : Control} (hcurrent : m.current = some (0, c)) : False := by
    have heq := hmoves.current.symm.trans hcurrent
    exact ht (congrArg Prod.fst (Option.some.inj heq))
  cases h with
  | waits hfs hrest hload => exact .waits (hframes.trans hfs) hrest hload
  | collects hfs hrest hload hracers hall =>
      exact .collects (hframes.trans hfs) hrest hload
        (fun i hi => (hracers i hi).imp_right (hheeds i)) fun i hi => hmoves.grows.still (hall i hi)
  | reports htalk h =>
      refine .reports (hover _ htalk) ?_
      rcases h.cases_current with ⟨c, hcurrent, -⟩ | hcloses
      · exact (hnot hcurrent).elim
      · cases hcloses with
        | ends hcurrent => exact (hnot hcurrent).elim
        | ended hfs houtcome ho =>
            exact .closes (.ended (hframes.trans hfs) (hmoves.grows.settled 0 _ houtcome) ho)

end Machine

/-! ## Steps -/

open Machine

variable {setup : TestSetup} {g : Generator} {load : FutureId} {head : Head} {stack : List Frame}

/-- Where nothing but the load can have failed, several futures that it is one of tell how the script has
ended. -/
theorem TestSetup.Smooth.jointOutcome (hsmooth : setup.Smooth g) (hreach : setup.Reaches g m)
    {members : List FutureId} (hload : load ∈ members)
    (hracers : ∀ i ∈ members, i = load ∨ m.world.Heeds i) {o : Outcome} {reply : Reply}
    (ho : m.world.scheduler.outcome? load = some o) (hreports : o.Reports reply) :
    (m.world.jointOutcome members false).Reports reply := by
  intro fault hfault
  have hsingle : m.world.scheduler.outcome? load = some (.fault fault) := by
    rw [ho, hreports fault hfault]
  refine World.jointOutcome_of_single hload hsingle (fun j hj hne => ?_) false
  have hheeds := (hracers j hj).resolve_left hne
  by_contra hfaulted
  exact hsmooth.fine m hreach ⟨j, hheeds, by simpa using hfaulted⟩

/-- Where those of several futures that are open are signals, all are settled once they are cancelled. -/
theorem World.settled_cancelled {members : List FutureId} {w : World}
    (hsignal : ∀ i ∈ w.open? members,
      w.scheduler.kind i = .signal ∧ i < w.scheduler.futures.length) {i : FutureId}
    (hi : i ∈ members) : (w.scheduler.cancelAll (w.open? members)).outcome? i ≠ none := by
  refine Scheduler.settled_cancelAll (fun j hj => (hsignal j hj).1) ?_
  by_cases hopen : w.scheduler.outcome? i = none
  · have hmem := World.mem_open?.mpr ⟨hi, hopen⟩
    exact .inr ⟨hmem, (hsignal i hmem).2⟩
  · exact .inl hopen

/-- Once the load is settled the race is over, and what is still open of it is cancelled. -/
theorem Machine.Moves.raced {members : List FutureId} {v : Value} {turn : Turn}
    {new : List (List Frame)} {w' : World} {reply : Reply} {o : Outcome}
    (hmoves : m.Moves 0 (.frame (.joined members false) (.value v)) (.raced :: stack) turn new w' m')
    (hreach : setup.Reaches g m) (hsmooth : setup.Smooth g) (hstep : m.step = some m')
    (hstarted : m.world.session.started = true) (hrest : Resuming stack) (hload : load ∈ members)
    (hracers : ∀ i ∈ members, i = load ∨ m.world.Heeds i)
    (ho : m.world.scheduler.outcome? load = some o) (hreports : o.Reports reply) :
    m'.Hosting load (.gone reply) := by
  have hm := hreach.sound
  have hrule := hmoves.rule
  have hnext := hmoves.next
  have hframes := hmoves.frames_self
  cases hrule with
  | joined hall =>
      exact .reports rfl (.raced hnext hrest (hsmooth.jointOutcome hreach hload hracers ho hreports))
  | asks h =>
      cases h with
      | cancelled hopen =>
          have hheeds (i : FutureId) (hi : m.world.Heeds i) : m'.world.Heeds i :=
            (hm.heeds_of_started hstep hstarted).mpr hi
          have hsignal (j : FutureId) (hj : j ∈ m.world.open? members) :
              m.world.scheduler.kind j = .signal ∧ j < m.world.scheduler.futures.length := by
            obtain ⟨hmem, hnone⟩ := World.mem_open?.mp hj
            rcases hracers j hmem with rfl | hj'
            · cases ho.symm.trans hnone
            · exact hm.signals.of_heeds hj'
          refine .collects hframes hrest hload
            (fun i hi => (hracers i hi).imp_right (hheeds i)) fun i hi => ?_
          rw [hmoves.outcome?]
          change ((m.world.scheduler.cancelAll (m.world.open? members)).gather _ _).2.outcome? i ≠ none
          rw [Scheduler.outcome?_gather]
          exact World.settled_cancelled hsignal hi
  | reply r hhead => cases hhead
  | pass hf => cases hf
  | call hcall => cases hcall

/-- The first task waits for the load, and passes on how the script has ended. -/
theorem Machine.Hosting.moves_self (h : m.Hosting load talk) (hreach : setup.Reaches g m)
    (hsmooth : setup.Smooth g) (hloads : m.Loads load) (hpage : m.Paged setup.session.registry talk)
    (hstarted : m.world.session.started = true) (hended : ∀ reply, talk = .gone reply → m.world.Ended)
    (hstep : m.step = some m') (hcurrent : m.current = some (0, head.control stack)) :
    Talk.Run setup.session.registry talk m.words talk ∧ m'.Hosting load talk := by
  have hm := hreach.sound
  have hunstopped (o : Outcome) (fs : List Frame) (hout : m.current = some (0, .outcome o fs)) :
      o ≠ .stopped := hreach.unstopped hsmooth.fine (.inl rfl) hout
  cases h with
  | @waits members rest hfs hrest hload =>
      obtain ⟨new, hmoves⟩ := hm.moves_of_head hstep hcurrent
      obtain ⟨o, rfl, rfl⟩ := hmoves.frame_eq hfs (by simp)
      rw [words_of_silent hcurrent rfl]
      obtain ⟨⟨v, rfl⟩, hsettled⟩ := hreach.load_settled (hsmooth.fine m hreach) hcurrent
      obtain ⟨o, ho⟩ := Option.ne_none_iff_exists'.mp (hsettled load hload hloads.kind)
      obtain ⟨reply, rfl, hreports⟩ := hpage.settled hm hloads ho
      have hracers (i : FutureId) (hi : i ∈ members) : i = load ∨ m.world.Heeds i :=
        (hreach.racers hfs i hi).imp_left fun hk => hm.threads.task_unique hk hloads.kind
      exact ⟨.nil, hmoves.raced hreach hsmooth hstep hstarted hrest hload hracers ho hreports⟩
  | @collects members v rest hfs hrest hload hracers hsettled =>
      obtain ⟨new, hmoves⟩ := hm.moves_of_head hstep hcurrent
      obtain ⟨o, rfl, rfl⟩ := hmoves.frame_eq hfs (by simp)
      rw [words_of_silent hcurrent rfl]
      obtain ⟨o', ho'⟩ := Option.ne_none_iff_exists'.mp (hsettled load hload)
      obtain ⟨reply, rfl, hreports⟩ := hpage.settled hm hloads ho'
      refine ⟨.nil, ?_⟩
      have hvalue : ∃ v', o = .value v' := by
        have hfault := (hreach.gathers.collected 0 o members false (.value v) _ hcurrent).1
        cases o with
        | value v' => exact ⟨v', rfl⟩
        | fault f => cases hfault
        | stopped => exact absurd rfl (hunstopped _ _ hcurrent)
      obtain ⟨v', rfl⟩ := hvalue
      have hrule := hmoves.rule
      generalize ((Head.frame (.collected members false (.value v)) (.value v')).run.run m.world).1 =
        turn at hmoves hrule
      generalize ((Head.frame (.collected members false (.value v)) (.value v')).run.run m.world).2 =
        w' at hmoves hrule
      have hnext := hmoves.next
      cases hrule with
      | collected =>
          exact .reports rfl (.raced hnext hrest (hsmooth.jointOutcome hreach hload hracers ho' hreports))
      | asks h => cases h
      | reply r hhead => cases hhead
      | pass hf => cases hf
      | call hcall => cases hcall
  | @reports reply htalk h =>
      subst htalk
      obtain ⟨hrun, hreporting⟩ := h.moves_self hm (hended _ rfl) hstarted hunstopped
        hreach.running hstep hcurrent
      exact ⟨hrun, .reports rfl hreporting⟩

end HotSpec
