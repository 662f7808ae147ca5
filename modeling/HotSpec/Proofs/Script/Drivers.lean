import HotSpec.Proofs.Script.Foreign

/-!
# What the drivers of a script do

Each phase drives the script in the same way: it resumes it with the reply that is due, and resolves
what it says.  What is said in a step tells how the talk goes on.

Main results:

- Theorem `words_of_silent`: most frames say nothing.
- Theorem `resume_cases`: what becomes of a script that is resumed with what it is to hear.
- Theorem `process_step`: what becomes of something that it has said.
- Theorem `ended_of_run`: where a talk is over, the script is.
-/

namespace HotSpec

/-! ## Words -/

/-- Whether nothing is said where a frame has its turn. -/
def Frame.isSilent : Frame → Bool
  | .begin (.resume _ g _) => g != scriptNumber
  | .begin (.process ..) => false
  | f => !f.answers

namespace Machine

variable {m m' : Machine} {t : TaskId} {head : Head} {stack : List Frame}

theorem words_of_silent (hcurrent : m.current = some (t, head.control stack))
    (h : head.first.isSilent = true) : m.words = [] := by
  unfold words
  rw [hcurrent]
  cases head with
  | work work =>
      cases work with
      | resume p g reply =>
          have hg : g ≠ scriptNumber := by simpa [Head.first, Frame.isSilent] using h
          simp [Head.control, hg]
      | process => cases h
      | _ => rfl
  | frame f o =>
      cases f with
      | begin work => rfl
      | firstDone => cases h
      | answer p g =>
          have hg : (g == scriptNumber) = false := by
            simpa [Head.first, Frame.isSilent, Frame.answers] using h
          simp [Head.control, Frame.answers, hg]
      | _ => rfl

theorem words_idle (h : m.current = none) : m.words = [] := by
  unfold words
  rw [h]

/-- Nothing is said in a step that leaves all frames. -/
theorem Rests.words (h : m.Rests m') : m.words = [] := by
  rcases h.before with hidle | ⟨t, o, hcurrent⟩
  · exact words_idle hidle
  · unfold Machine.words
    rw [hcurrent]

/-- A script says that it ends where it is resumed. -/
theorem resume_of_ends {reply : Reply} (h : .ends reply ∈ m.words) :
    ∃ t p reply' stack, m.current = some (t, .work (.resume p scriptNumber reply') stack) := by
  unfold words at h
  split at h
  · next t p g reply' stack hcurrent =>
      split at h
      · next hg =>
          subst hg
          exact ⟨t, p, reply', stack, hcurrent⟩
      · cases h
  · split at h
    · unfold World.handled at h
      obtain ⟨e, -, he⟩ := List.mem_filterMap.mp h
      cases e <;> cases he
    · cases h
  · split at h
    · cases List.mem_singleton.mp h
    · cases h
  · cases h

end Machine

/-! ## Ends of talks -/

variable {r : Registry} {talk talk' : Talk} {words : List Word}

/-- A talk comes to its end only where the script says so. -/
theorem Talk.Run.gone_of_not_ends {reply : Reply} (h : Talk.Run r talk words (.gone reply))
    (hnot : ∀ reply, .ends reply ∉ words) : talk = .gone reply := by
  generalize hend : Talk.gone reply = talk' at h
  induction h with
  | nil => rfl
  | cons hstep _ ih =>
      obtain rfl := ih (fun reply hmem => hnot reply (List.mem_cons_of_mem _ hmem)) hend
      subst hend
      cases hstep with
      | ends => exact absurd (List.mem_cons_self ..) (hnot _)
      | gone => rfl

/-- Where a talk is over, the script is. -/
theorem Machine.ended_of_run {m m' : Machine} (hstep : m.step = some m')
    (hlt : scriptNumber < m.world.generators.length) (h : Talk.Run r talk m.words talk')
    (hended : ∀ reply, talk = .gone reply → m.world.Ended) {reply : Reply}
    (hover : talk' = .gone reply) : m'.world.Ended := by
  subst hover
  by_cases hresume : ∃ t p reply' stack,
      m.current = some (t, .work (.resume p scriptNumber reply') stack)
  · obtain ⟨t, p, reply', stack, hcurrent⟩ := hresume
    obtain ⟨w, current⟩ := m
    cases hcurrent
    rw [step_resume] at hstep
    cases hstep
    rcases hadv : w.advance scriptNumber reply' with ⟨adv, w'⟩
    have hwords : words ⟨w, some (t, .work (.resume p scriptNumber reply') stack)⟩ =
        [.hears reply', adv.word] := by
      simp [words, hadv]
    have hworld : (follow t stack (resumed p scriptNumber adv) w').world.generators =
        w'.generators := by
      rw [world_follow]
    unfold World.Ended
    rw [hworld]
    change w'.Ended
    rw [hwords] at h
    cases h with
    | cons h₁ rest =>
        cases rest with
        | cons h₂ rest =>
            cases rest
            cases h₁ with
            | hears =>
                cases adv with
                | ends reply'' => exact World.ended_of_advance hadv hlt
                | yields y => cases h₂
            | gone hreport =>
                cases h₂
                have hbefore := hended _ rfl
                obtain ⟨reply'', hsame, -⟩ := World.advance_of_ended hbefore reply'
                cases hadv.symm.trans hsame
                exact hbefore
  · have hnot (t : TaskId) (p : Processor) (reply' : Reply) (stack : List Frame) :
        m.current ≠ some (t, .work (.resume p scriptNumber reply') stack) :=
      fun hcurrent => hresume ⟨t, p, reply', stack, hcurrent⟩
    have hbefore := h.gone_of_not_ends fun reply'' hmem => by
      obtain ⟨t, p, reply', stack, hcurrent⟩ := resume_of_ends hmem
      exact hnot t p reply' stack hcurrent
    obtain ⟨s, hs, hprogress⟩ := hended _ hbefore
    exact ⟨s, (script_of_step hstep).1 hnot hs, hprogress⟩

/-! ## Steps of a driver -/

/-- What is not stopped comes to a reply. -/
theorem Outcome.exists_reply {o : Outcome} (h : o ≠ .stopped) : ∃ reply, o = .ofReply reply := by
  cases o with
  | value v => exact ⟨.ok v, rfl⟩
  | fault fault => exact ⟨.error fault, rfl⟩
  | stopped => exact absurd rfl h

/-- A handler that does not come to an outcome at once calls what its command calls. -/
theorem handle_frames (phase : Phase) (c : Command) (w : World) :
    ((Move.handle phase c).run w).1.frames = [] ∨
      Commands phase c ((Move.handle phase c).run w).1.frames := by
  have hrule : Rule (.work (.process (.handlers phase) (.command c))) w
      ((Move.handle phase c).run w).1 ((Move.handle phase c).run w).2 := follows_handle rfl rfl
  generalize ((Move.handle phase c).run w).1 = turn at hrule
  generalize ((Move.handle phase c).run w).2 = w' at hrule
  cases hrule with
  | asks h => cases h
  | call hcall h => cases hcall
  | commanded hp hy hcall h =>
      cases hp
      cases hy
      exact .inr hcall
  | _ => exact .inl rfl

namespace Machine

variable {m m' : Machine} {t : TaskId} {stack : List Frame} {phase : Phase}

/-- A task that has its turn at a piece of work does it. -/
theorem Sound.moves_of_work {work : Work} (hm : m.Sound) (hstep : m.step = some m')
    (hcurrent : m.current = some (t, .work work stack)) :
    ∃ new, m.Moves t (.work work) stack (work.run.run m.world).1 new (work.run.run m.world).2 m' := by
  have hhead : m.current = some (t, (Head.work work).control stack) := hcurrent
  exact hm.moves_of_head hstep hhead

/-- A task that has its turn at an outcome gives it to its first frame. -/
theorem Sound.moves_of_frame {f : Frame} {o : Outcome} (hm : m.Sound) (hstep : m.step = some m')
    (hcurrent : m.current = some (t, .outcome o (f :: stack))) :
    ∃ new, m.Moves t (.frame f o) stack ((f.take o).run m.world).1 new ((f.take o).run m.world).2 m' := by
  have hhead : m.current = some (t, (Head.frame f o).control stack) := hcurrent
  exact hm.moves_of_head hstep hhead

/-- A script that is resumed with what it is to hear says something, or nothing, or comes to its
end. -/
theorem resume_cases {p : Processor} {reply : Reply} (hstep : m.step = some m')
    (hcurrent : m.current = some (t, .work (.resume p scriptNumber reply) stack)) :
    (∃ reply', Talk.Run r (.due phase reply) m.words (.gone reply') ∧
      m'.current = some (t, .outcome (.ofReply reply') stack)) ∨
    (Talk.Run r (.due phase reply) m.words (.due phase (.ok .nothing)) ∧
      m'.current = some (t, .work (.resume p scriptNumber (.ok .nothing)) stack)) ∨
    (∃ y, Talk.Run r (.due phase reply) m.words (.asked phase y) ∧
      m'.current = some (t, .work (.process p y) (.answer p scriptNumber :: stack))) := by
  obtain ⟨w, current⟩ := m
  cases hcurrent
  rw [step_resume] at hstep
  cases hstep
  have hwords : words ⟨w, some (t, .work (.resume p scriptNumber reply) stack)⟩ =
      [.hears reply, (w.advance scriptNumber reply).1.word] := by
    simp [words]
  rw [hwords]
  cases (w.advance scriptNumber reply).1 with
  | ends reply' => exact .inl ⟨reply', .cons .hears (.single .ends), rfl⟩
  | yields y =>
      by_cases hy : y = .value .nothing
      · subst hy
        exact .inr (.inl ⟨.cons .hears (.single .nothing), rfl⟩)
      · refine .inr (.inr ⟨y, .cons .hears (.single (.yields hy)), ?_⟩)
        unfold resumed
        split
        · next heq => cases heq
        · next heq => exact absurd (Advance.yields.inj heq) hy
        · next heq =>
            cases heq
            rfl

/-- A driver resolves what the script has said: it refuses it, or gives it to a handler, or the first
phase leads to the second. -/
theorem process_step {y : Yielded} {f : Frame} (hm : m.Sound) (hstep : m.step = some m')
    (hcurrent : m.current = some (t, .work (.process (.phase phase) y) (f :: stack)))
    (hf : f.answers = true) (hr : m.world.session.registry = r) :
    (∃ cause, r.resolve phase y = (phase, .error (.usage cause)) ∧ m.words = [] ∧
      m'.current = some (t, .outcome (.fault (.usage cause)) (f :: stack))) ∨
    (∃ c above, r.resolve phase y = (phase, .ok c) ∧ m.words = [.handled phase c] ∧
      m'.frames t = some (above ++ f :: stack) ∧ (above = [] ∨ Commands phase c above)) ∨
    (∃ c, phase = .prepare ∧ y.toCommand = .ok c ∧ r.Moves c ∧ m.words = [] ∧
      m'.current = some (t, .work (.start (some c)) (f :: stack))) := by
  subst hr
  have hwords : m.words =
      m.world.handled ((Move.process (.phase phase) y).run m.world).2 := by
    simp [words, hcurrent, hf]
  have hsame : m.world.handled m.world = [] := by
    simp [World.handled]
  obtain ⟨new, hmoves⟩ :=
    hm.moves_of_work hstep hcurrent
  have hrun : (Work.process (.phase phase) y).run.run m.world =
      (Move.process (.phase phase) y).run m.world := rfl
  rcases process_cases phase y m.world with ⟨cause, hy, heq⟩ | ⟨c, hy, heq⟩ | ⟨c, hp, hy, hc, heq⟩
  · refine .inl ⟨cause, hy, by rw [hwords, heq, hsame], ?_⟩
    rw [hmoves.next, hrun, heq]
    rfl
  · refine .inr (.inl ⟨c, _, hy, ?_, ?_, handle_frames phase c m.world⟩)
    · rw [hwords, heq, handled_handle]
    · rw [hmoves.frames_self, hrun, heq]
  · refine .inr (.inr ⟨c, hp, hy, hc, by rw [hwords, heq, hsame], ?_⟩)
    rw [hmoves.next, hrun, heq]
    rfl

/-- What the script has said has come to an outcome, which it is to hear. -/
theorem answer_step {p : Processor} {reply : Reply} (hstep : m.step = some m')
    (hcurrent : m.current =
      some (t, .outcome (.ofReply reply) (.answer p scriptNumber :: stack))) :
    m.words = [.settled (.ofReply reply)] ∧
      m'.current = some (t, .work (.resume p scriptNumber reply) stack) := by
  obtain ⟨w, current⟩ := m
  cases hcurrent
  rw [step_outcome] at hstep
  cases hstep
  refine ⟨by simp [words, Frame.answers], ?_⟩
  cases reply <;> rfl

end Machine

end HotSpec
