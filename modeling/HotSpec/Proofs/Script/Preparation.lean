import HotSpec.Proofs.Script.Smooth

/-!
# The talk in the first phase

Before the page is loaded there is a single task: it resumes the script, resolves what that says, and
goes on with the answer.  A command without a handler of the first phase stays unresolved until the
environment has started anew.

Main definitions:

- `Prepares`: where the first phase stands, for a given state of the talk.

Main results:

- Theorem `Prepares.step`: every step of the first phase goes on with the talk, until the environment has
  started anew.
-/

namespace HotSpec

variable {r : Registry} {talk : Talk} {m m' : Machine}

/-! ## Frames -/

/-- Frames that wait in the first phase leave the script alone. -/
theorem foreign_of_inner {above : List Frame} (h : ∀ f ∈ above, f.isInner = true) :
    Foreign above := by
  refine ⟨fun f hf => ?_, fun f hf => ?_⟩
  · have hinner := h f hf
    cases f with
    | begin work =>
        cases work with
        | deeds ds => simpa [Frame.isForeign] using handsIn_of_chores hinner
        | sleep | await => rfl
        | _ => cases hinner
    | deeds ds => simpa [Frame.isForeign] using handsIn_of_chores hinner
    | forget | slept | give | body | during => rfl
    | _ => cases hinner
  · have hinner := h f (List.mem_of_getLast? hf)
    cases f with
    | begin work =>
        cases work with
        | process => cases hinner
        | _ => rfl
    | _ => rfl

/-- What a command calls in the first phase waits in it. -/
theorem Commands.isInner {c : Command} {frames : List Frame} (h : Commands .prepare c frames) :
    ∀ f ∈ frames, f.isInner = true := by
  cases h <;> simp [Frame.isInner]

/-! ## Machines -/

/-- Where the first phase stands before the environment is asked to start anew. -/
inductive Machine.Preparatory (r : Registry) (m : Machine) : Talk → Prop
  | begins (h : m.current = some (0, .work .script [])) :
      m.Preparatory r (.due .prepare (.ok .nothing))
  | due {reply : Reply} (h : m.current = some (0, .work
      (.resume (.phase .prepare) scriptNumber reply) [.prepared])) :
      m.Preparatory r (.due .prepare reply)
  | asked {y : Yielded} (h : m.current = some (0, .work (.process (.phase .prepare) y)
      [.answer (.phase .prepare) scriptNumber, .prepared])) :
      m.Preparatory r (.asked .prepare y)
  | refused {y : Yielded} {cause : UsageCause} (h : m.current = some (0, .outcome (.fault (.usage cause))
      [.answer (.phase .prepare) scriptNumber, .prepared]))
      (hy : r.resolve .prepare y = (.prepare, .error (.usage cause))) :
      m.Preparatory r (.asked .prepare y)
  | busy {above : List Frame}
      (h : m.frames 0 = some (above ++ [.answer (.phase .prepare) scriptNumber, .prepared]))
      (habove : ∀ f ∈ above, f.isInner = true) : m.Preparatory r (.busy .prepare)
  | starts {first : Option Command} {rest : List Frame} {talk : Talk}
      (h : m.current = some (0, .work (.start first) rest)) (hs : Starting r first rest talk) :
      m.Preparatory r talk
  | prepared {reply : Reply} (h : m.current = some (0, .outcome (.ofReply reply) [.prepared])) :
      m.Preparatory r (.gone reply)

/-- Whether an outcome tells of the fault that a script has ended with, if it has. -/
def Outcome.Reports (o : Outcome) (reply : Reply) : Prop :=
  ∀ fault, reply = .error fault → o = .fault fault

/-- Where a test stands whose first task is done, for the reply that its script has ended with. -/
inductive Machine.Closes (m : Machine) (reply : Reply) : Prop
  | ends {o : Outcome} (h : m.current = some (0, .outcome o []))
      (hopen : m.world.scheduler.outcome? 0 = none) (ho : o.Reports reply)
  | ended {o : Outcome} (h : m.frames 0 = some []) (houtcome : m.world.scheduler.outcome? 0 = some o)
      (ho : o.Reports reply)

/-- Where the first phase stands. -/
inductive Machine.Prepares (r : Registry) (m : Machine) : Talk → Prop
  | before {talk : Talk} (h : m.Preparatory r talk) (hnot : m.world.session.started = false) :
      m.Prepares r talk
  | resets {above : List Frame} {first : Option Command} {rest : List Frame} {talk : Talk}
      (h : m.frames 0 = some (above ++ .reset first :: rest))
      (habove : ∀ f ∈ above, f.isInner = true) (hs : Starting r first rest talk) : m.Prepares r talk
  | closes {reply : Reply} (h : m.Closes reply) : m.Prepares r (.gone reply)

/-- The second phase starts only once. -/
theorem run_start (first : Option Command) {w : World} (h : w.session.started = false) :
    (Move.start first).run w = (.call (.deeds (w.environment.resetDeeds w.session.inits))
      [.during .reset w.session.inits.keys, .reset first], w.starting) := by
  have hrun : (Move.start first).run w = StateT.run (ite (w.session.started = true) _ _) w := rfl
  rw [hrun, if_neg (by simp [h])]
  rfl

/-- A script that is over leads to the second phase, unless that has started, or to the end of the
test. -/
theorem run_prepared (v : Value) (w : World) :
    w.session.started = false ∧
        ((Move.prepared (.value v)).run w).1 = .call (.start none) [.forget] ∨
      ((Move.prepared (.value v)).run w).1 = .done := by
  have hrun : (Move.prepared (.value v)).run w =
      StateT.run (ite ((!w.session.started && !w.session.expects.isEmpty) = true) _ _) w := rfl
  rw [hrun]
  split
  · next h =>
      simp only [Bool.and_eq_true, Bool.not_eq_true'] at h
      exact .inl ⟨h.1, rfl⟩
  · exact .inr rfl

namespace Machine

/-- A task that is done makes no step. -/
theorem Closes.frames {reply : Reply} (h : m.Closes reply) : m.frames 0 = some [] := by
  cases h with
  | ends h => exact frames_current h
  | ended h => exact h

/-- A step that leaves all frames may end the first task. -/
theorem Closes.rests {reply : Reply} (h : m.Closes reply) (hrests : m.Rests m')
    (hkind : m.world.scheduler.kind 0 = .task 0) : m'.Closes reply := by
  cases h with
  | ends hcurrent hopen ho =>
      exact .ended ((hrests.frames 0).trans (frames_current hcurrent))
        (hrests.finished 0 0 _ hkind hopen hcurrent) ho
  | ended hfs houtcome ho =>
      exact .ended ((hrests.frames 0).trans hfs) (hrests.grows.settled 0 _ houtcome) ho

/-- While the first task is the only one, what serves a frame of it goes on by itself, until the frame is
given an outcome. -/
theorem Sound.inner_step (hm : m.Sound) (hone : ∀ t c, m.current = some (t, c) → t = 0)
    {above rest : List Frame} {f : Frame} (hfs : m.frames 0 = some (above ++ f :: rest))
    (habove : ∀ f ∈ above, f.isInner = true) (hf : ∀ work, f ≠ .begin work)
    (hstep : m.step = some m') :
    (m.words = [] ∧ ∃ above', m'.frames 0 = some (above' ++ f :: rest) ∧
      ∀ f ∈ above', f.isInner = true) ∨ ∃ o, m.current = some (0, .outcome o (f :: rest)) := by
  rcases hm.moves_or_rests hstep with ⟨t, head, stack, turn, new, w', hmoves⟩ | hrests
  · obtain rfl := hone _ _ hmoves.current
    cases above with
    | nil =>
        obtain ⟨o, rfl, rfl⟩ := hmoves.frame_eq hfs hf
        exact .inr ⟨o, hmoves.current⟩
    | cons f' above =>
        have heq := Option.some.inj (hmoves.before.symm.trans hfs)
        obtain ⟨above', hfs', habove'⟩ := hmoves.rule.inner_above heq habove
        refine .inl ⟨?_, above', hfs' ▸ hmoves.frames_self, habove'⟩
        exact (foreign_of_inner habove).words hmoves.current ((Head.frames_control ..).trans heq)
  · exact .inl ⟨hrests.words, above, (hrests.frames 0).trans hfs, habove⟩

/-- A step of the first phase before the environment is asked to start anew. -/
theorem Preparatory.step (h : m.Preparatory r talk) (hm : m.Sound) (hone : ∀ t c,
    m.current = some (t, c) → t = 0) (hr : m.world.session.registry = r)
    (hunstopped : ∀ o fs, m.current = some (0, .outcome o fs) → o ≠ .stopped)
    (hrunning : m.world.scheduler.kind 0 = .task 0 ∧
      ∀ f fs, m.frames 0 = some (f :: fs) → m.world.scheduler.outcome? 0 = none)
    (hnot : m.world.session.started = false) (hstep : m.step = some m') :
    ∃ talk', Talk.Run r talk m.words talk' ∧ m'.Prepares r talk' := by
  have hbefore {talk' : Talk} (h' : m'.Preparatory r talk')
      (hstart : ∀ t first rest, m.current ≠ some (t, .work (.start first) rest)) :
      m'.Prepares r talk' := .before h' ((hm.started hstep hstart).trans hnot)
  cases h with
  | begins hcurrent =>
      obtain ⟨new, hmoves⟩ := hm.moves_of_work hstep hcurrent
      rw [words_of_silent hmoves.current rfl]
      exact ⟨_, .nil, hbefore (.due hmoves.next) (by simp [hcurrent])⟩
  | due hcurrent =>
      have hstart : ∀ t first rest, m.current ≠ some (t, .work (.start first) rest) := by
        simp [hcurrent]
      rcases resume_cases hstep hcurrent with ⟨reply, hrun, hnext⟩ | ⟨hrun, hnext⟩ | ⟨y, hrun, hnext⟩
      · exact ⟨_, hrun, hbefore (.prepared hnext) hstart⟩
      · exact ⟨_, hrun, hbefore (.due hnext) hstart⟩
      · exact ⟨_, hrun, hbefore (.asked hnext) hstart⟩
  | asked hcurrent =>
      have hstart : ∀ t first rest, m.current ≠ some (t, .work (.start first) rest) := by
        simp [hcurrent]
      rcases process_step hm hstep hcurrent rfl hr with ⟨cause, hy, hwords, hnext⟩ |
        ⟨c, above, hy, hwords, hnext, habove⟩ | ⟨c, -, hy, hc, hwords, hnext⟩
      · rw [hwords]
        exact ⟨_, .nil, hbefore (.refused hnext hy) hstart⟩
      · rw [hwords]
        refine ⟨_, .single (.handled hy), hbefore (.busy hnext ?_) hstart⟩
        rcases habove with rfl | hcommand
        · simp
        · exact hcommand.isInner
      · rw [hwords]
        exact ⟨_, .nil, hbefore (.starts hnext (.asked hy hc)) hstart⟩
  | @refused y cause hcurrent hy =>
      have hreply : m.current = some (0, .outcome (.ofReply (.error (.usage cause)))
          [.answer (.phase .prepare) scriptNumber, .prepared]) := hcurrent
      obtain ⟨hwords, hnext⟩ := answer_step hstep hreply
      rw [hwords]
      exact ⟨_, .single (.refused hy), hbefore (.due hnext) (by simp [hcurrent])⟩
  | @busy above hfs habove =>
      have hstart : ∀ t first rest, m.current ≠ some (t, .work (.start first) rest) := by
        intro t first rest hcurrent
        obtain rfl := hone _ _ hcurrent
        have heq := Option.some.inj ((frames_current hcurrent).symm.trans hfs)
        cases above with
        | nil => cases heq
        | cons f above =>
            obtain ⟨rfl, -⟩ := List.cons.inj heq
            cases habove _ (List.mem_cons_self ..)
      rcases hm.inner_step hone hfs habove (by simp) hstep with
        ⟨hwords, above', hfs', habove'⟩ | ⟨o, hcurrent⟩
      · rw [hwords]
        exact ⟨_, .nil, hbefore (.busy hfs' habove') hstart⟩
      · obtain ⟨reply, rfl⟩ := Outcome.exists_reply (hunstopped _ _ hcurrent)
        obtain ⟨hwords, hnext⟩ := answer_step hstep hcurrent
        rw [hwords]
        exact ⟨_, .single .settled, hbefore (.due hnext) hstart⟩
  | @starts first rest _ hcurrent hs =>
      obtain ⟨new, hmoves⟩ := hm.moves_of_work hstep hcurrent
      rw [words_of_silent hmoves.current rfl]
      let inits := m.world.session.inits
      let above : List Frame :=
        [.begin (.deeds (m.world.environment.resetDeeds inits)), .during .reset inits.keys]
      have hframes : m'.frames 0 = some (above ++ .reset first :: rest) := by
        rw [hmoves.frames_self]
        change some (((Move.start first).run m.world).1.frames ++ rest) = _
        rw [run_start first hnot]
        rfl
      refine ⟨_, .nil, .resets hframes ?_ hs⟩
      simp [above, Frame.isInner, Environment.resetDeeds, Deed.isChore]
  | @prepared reply hcurrent =>
      obtain ⟨new, hmoves⟩ := hm.moves_of_frame hstep hcurrent
      have hstart : ∀ t first rest, m.current ≠ some (t, .work (.start first) rest) := by
        simp [hcurrent]
      rw [words_of_silent hmoves.current rfl]
      refine ⟨_, .nil, ?_⟩
      have hopen : m'.world.scheduler.outcome? 0 = none := by
        rw [hmoves.ended 0 0 hrunning.1]
        exact hrunning.2 _ _ hmoves.before
      cases reply with
      | error fault => exact .closes (.ends hmoves.next hopen (by rintro _ ⟨⟩; rfl))
      | ok v =>
          have hnext : m'.current =
              (((Move.prepared (.value v)).run m.world).1.control []).map (Prod.mk 0) := hmoves.next
          rcases run_prepared v m.world with ⟨-, heq⟩ | heq
          · rw [heq] at hnext
            exact hbefore (.starts hnext .gone) hstart
          · rw [heq] at hnext
            exact .closes (.ends hnext hopen (by rintro _ ⟨⟩))

/-- Where the environment has started anew, the page begins as it was asked for. -/
theorem Prepares.starting (h : m.Prepares r talk) (hstarted : m.world.session.started = true)
    {first : Option Command} {rest : List Frame} (hfs : m.frames 0 = some (.reset first :: rest)) :
    Starting r first rest talk := by
  cases h with
  | before h hnot => cases hstarted.symm.trans hnot
  | @resets above first' rest' _ hfs' habove hs =>
      cases above with
      | nil =>
          cases hfs.symm.trans hfs'
          exact hs
      | cons f above =>
          cases hfs.symm.trans hfs'
          cases habove _ (List.mem_cons_self ..)
  | closes h => cases hfs.symm.trans h.frames

/-- Every step of the first phase goes on with the talk, until the environment has started anew. -/
theorem Prepares.step (h : m.Prepares r talk) (hm : m.Sound) (hone : ∀ t c,
    m.current = some (t, c) → t = 0) (hr : m.world.session.registry = r)
    (hunstopped : ∀ o fs, m.current = some (0, .outcome o fs) → o ≠ .stopped)
    (hrunning : m.world.scheduler.kind 0 = .task 0 ∧
      ∀ f fs, m.frames 0 = some (f :: fs) → m.world.scheduler.outcome? 0 = none)
    (hreset : ∀ o first rest, m.current ≠ some (0, .outcome o (.reset first :: rest)))
    (hstep : m.step = some m') : ∃ talk', Talk.Run r talk m.words talk' ∧ m'.Prepares r talk' := by
  cases h with
  | before h hnot => exact h.step hm hone hr hunstopped hrunning hnot hstep
  | @resets above first rest _ hfs habove hs =>
      rcases hm.inner_step hone hfs habove (by simp) hstep with
        ⟨hwords, above', hfs', habove'⟩ | ⟨o, hcurrent⟩
      · rw [hwords]
        exact ⟨_, .nil, .resets hfs' habove' hs⟩
      · exact absurd hcurrent (hreset _ _ _)
  | closes h =>
      rcases hm.moves_or_rests hstep with ⟨t, head, stack, turn, new, w', hmoves⟩ | hrests
      · cases hmoves.before.symm.trans (hone _ _ hmoves.current ▸ h.frames)
      · rw [hrests.words]
        exact ⟨_, .nil, .closes (h.rests hrests hrunning.1)⟩

end Machine

end HotSpec
