import HotSpec.Proofs.Expectation.Flush
import HotSpec.Proofs.Script.Progress
import HotSpec.Proofs.Script.Talk

/-!
# What leaves the script alone

Hooks, steps of expectations and the environment run scripts of their own, and resolve what these
say.  None of this resumes the script of the test, or takes the outcome of what it has said.

Main definitions:

- `Frame.isForeign`, `Foreign`: frames that leave the script of the test alone.

Main results:

- Theorem `Foreign.above`: frames that leave the script alone are followed by such frames.
- Theorem `Foreign.words`: nothing is said where they have their turn.
-/

namespace HotSpec

/-! ## Frames -/

/-- Whether a frame leaves the script of the test alone. -/
def Frame.isForeign : Frame → Bool
  | .begin .script | .begin (.load _) | .begin (.inPage _) => false
  | .begin (.resume _ g _) | .answer _ g => g != scriptNumber
  | .begin (.deeds ds) | .deeds ds => handsIn ds == 0
  | .prepared | .reset _ | .raced | .opened _ | .firstDone | .scriptDone => false
  | _ => true

/-- Whether a frame is about to resolve something that a script has said. -/
def Frame.isProcess : Frame → Bool
  | .begin (.process ..) => true
  | _ => false

/-- Whether frames leave the script of the test alone: whoever resolves something among them also
takes its outcome. -/
structure Foreign (fs : List Frame) : Prop where
  frames : ∀ f ∈ fs, f.isForeign = true
  last : ∀ f, fs.getLast? = some f → f.isProcess = false

theorem foreign_nil : Foreign [] := ⟨by simp, by simp⟩

theorem foreign_single {f : Frame} (hf : f.isForeign = true) (hprocess : f.isProcess = false) :
    Foreign [f] := ⟨by simpa using hf, by simpa using hprocess⟩

theorem Foreign.append {fs fs' : List Frame} (h : Foreign fs) (h' : Foreign fs') :
    Foreign (fs ++ fs') where
  frames f hf := (List.mem_append.mp hf).elim (h.frames f) (h'.frames f)
  last f hf := by
    rw [List.getLast?_append] at hf
    cases hlast : fs'.getLast? with
    | none =>
        rw [hlast] at hf
        exact h.last f hf
    | some f' =>
        rw [hlast] at hf
        cases hf
        exact h'.last _ hlast

theorem Foreign.tail {f : Frame} {fs : List Frame} (h : Foreign (f :: fs)) : Foreign fs where
  frames f' hf' := h.frames f' (List.mem_cons_of_mem _ hf')
  last f' hf' := by
    cases fs with
    | nil => cases hf'
    | cons f₁ fs => exact h.last f' (by rwa [List.getLast?_cons_cons])

/-- What leaves the script alone does not take the outcome of what it has said. -/
theorem Frame.answers_of_foreign {f : Frame} (h : f.isForeign = true) : f.answers = false := by
  cases f with
  | firstDone => cases h
  | answer p g => simpa [isForeign, answers] using h
  | _ => rfl

/-! ## Rules -/

variable {head : Head} {w w' : World} {turn : Turn}

theorem Calls.foreign {frames : List Frame} (h : Calls head frames)
    (hfirst : head.first.isForeign = true) (hsub : ∀ p v, head ≠ .work (.sub p v)) :
    ∀ f ∈ frames, f.isForeign = true := by
  cases h with
  | generator | list | call => exact absurd rfl (hsub _ _)
  | handOver => simp [Head.first, Frame.isForeign] at hfirst
  | _ => simp_all [Head.first, Frame.isForeign]

theorem Commands.foreign {phase : Phase} {c : Command} {frames : List Frame}
    (h : Commands phase c frames) : ∀ f ∈ frames, f.isForeign = true := by
  cases h <;> simp [Frame.isForeign]

/-- What leaves the script alone is followed by what leaves it alone, unless a sub is run. -/
theorem Rule.foreign (h : Rule head w turn w') (hfirst : head.first.isForeign = true)
    (hsub : ∀ p v, head ≠ .work (.sub p v)) (hstarted : w.session.started = true) :
    ∀ f ∈ turn.frames, f.isForeign = true := by
  cases h with
  | asks h =>
      cases h with
      | start hnot =>
          rw [hstarted] at hnot
          cases hnot
      | opened => cases hfirst
      | _ => simp [Turn.frames, Frame.isForeign]
  | call hcall h => exact hcall.foreign hfirst hsub
  | @resume p g reply adv _ _ h =>
      have hg : g ≠ scriptNumber := by simpa [Head.first, Frame.isForeign] using hfirst
      unfold resumed
      split <;> simp [Turn.reply, Turn.frames, Frame.isForeign, hg]
  | commanded hp hy hcall h => exact hcall.foreign
  | load => cases hfirst
  | ready => cases hfirst
  | checked => cases hfirst
  | _ => simp [Turn.frames, Turn.done, Move.lastLabel, Frame.isForeign]

/-- What can be called comes to an answer, or is awaited. -/
theorem run_callAndAwait (v : Value) (args : List Value) (w : World) :
    ((Move.callAndAwait v args).run w).1 = match (Engine.call v args).exec w with
      | (.ok called, _) => Move.called called
      | (.error fault, _) => .fail fault := by
  simp only [Move.callAndAwait, Move.ofEngine, StateT.run, bind, StateT.bind, Engine.exec,
    ExceptT.run, ExceptT.bind, ExceptT.mk]
  rcases Engine.call v args w with ⟨r | r, w'⟩ <;> rfl

/-- A sub that is not a run of the script of the test leaves that alone. -/
theorem foreign_sub {p : Processor} {v : Value} (hv : ∀ name, v ≠ .generator scriptNumber name)
    (hlt : scriptNumber < w.generators.length) :
    ∀ f ∈ ((Move.sub p v).run w).1.frames, f.isForeign = true := by
  have hresume {g : Nat} (hg : g ≠ scriptNumber) :
      ∀ f ∈ (Turn.call (.resume p g (.ok .nothing)) []).frames, f.isForeign = true := by
    simpa [Turn.frames, Frame.isForeign] using hg
  have htogether (subs : List Value) :
      ∀ f ∈ (Turn.call (.together p subs) []).frames, f.isForeign = true := by
    simp [Turn.frames, Frame.isForeign]
  unfold Move.sub
  split
  · exact htogether _
  · exact htogether _
  · exact htogether _
  · exact hresume (Nat.ne_of_gt hlt)
  · next g name =>
      refine hresume ?_
      rintro rfl
      exact hv name rfl
  · split
    · rw [run_callAndAwait]
      split
      · next called w' _ =>
          cases called with
          | value v => simp [Move.called, Turn.frames]
          | awaitable a => simp [Move.called, Turn.frames, Frame.isForeign]
      · simp [Turn.fail, Turn.frames]
    · intro f hf
      cases hf

/-- Who is not about to resolve something leaves that to no one who would not take its outcome. -/
theorem Rule.last_process (h : Rule head w turn w') (hfirst : head.first.isProcess = false) :
    ∀ f, turn.frames.getLast? = some f → f.isProcess = false := by
  cases h with
  | asks h => cases h <;> simp [Turn.frames, Frame.isProcess]
  | call hcall h =>
      cases hcall with
      | opened h => cases h <;> simp [Turn.frames, Frame.isProcess]
      | begin => simpa [Turn.frames, Head.first] using hfirst
      | _ => simp [Turn.frames, Frame.isProcess]
  | @resume p g reply adv _ _ h =>
      unfold resumed
      split <;> simp [Turn.reply, Turn.frames, Frame.isProcess]
  | commanded hp hy hcall h => cases hcall <;> simp [Turn.frames, Frame.isProcess]
  | ready hlabel h => cases h <;> simp [Turn.frames, Frame.isProcess]
  | _ => simp [Turn.frames, Turn.done, Move.lastLabel, Frame.isProcess]

/-! ## Machines -/

/-- Whether a task runs the script of the test as a sub. -/
def Head.runsScript : Head → Prop
  | .work (.sub _ (.generator g _)) => g = scriptNumber
  | _ => False

/-- Frames that leave the script alone are followed by such frames, above what is below them. -/
theorem Foreign.above {f : Frame} {above below stack : List Frame} (h : Foreign (f :: above))
    (hstack : head.first :: stack = f :: above ++ below) (hrun : ¬head.runsScript)
    (hstarted : w.session.started = true) (hlt : scriptNumber < w.generators.length) :
    ∃ above', (head.run.run w).1.frames ++ stack = above' ++ below ∧ Foreign above' := by
  obtain ⟨hfirst, hrest⟩ := List.cons.inj hstack
  have hrest : stack = above ++ below := hrest
  have hforeign : head.first.isForeign = true := hfirst ▸ h.frames f (List.mem_cons_self ..)
  refine ⟨(head.run.run w).1.frames ++ above, by rw [hrest, List.append_assoc], ?_⟩
  have hframes : ∀ f' ∈ (head.run.run w).1.frames, f'.isForeign = true := by
    by_cases hsub : ∃ p v, head = .work (.sub p v)
    · obtain ⟨p, v, rfl⟩ := hsub
      refine foreign_sub ?_ hlt
      rintro name rfl
      exact hrun rfl
    · exact (rule_run head w).foreign hforeign (fun p v heq => hsub ⟨p, v, heq⟩) hstarted
  cases above with
  | nil =>
      rw [List.append_nil]
      exact ⟨hframes, (rule_run head w).last_process (hfirst ▸ h.last f rfl)⟩
  | cons f₁ above =>
      refine ⟨fun f' hf' => (List.mem_append.mp hf').elim (hframes f') (h.tail.frames f'), ?_⟩
      intro f' hf'
      rw [List.getLast?_append, List.getLast?_cons] at hf'
      exact h.tail.last f' (by rw [List.getLast?_cons]; exact hf')

/-- Nothing is said where frames that leave the script alone have their turn. -/
theorem Foreign.words {m : Machine} {t : TaskId} {c : Control} {f : Frame} {above below : List Frame}
    (h : Foreign (f :: above)) (hcurrent : m.current = some (t, c))
    (hframes : c.frames = f :: above ++ below) : m.words = [] := by
  unfold Machine.words
  rw [hcurrent]
  cases c with
  | outcome o stack =>
      cases hframes
      simp [Frame.answers_of_foreign (h.frames f (List.mem_cons_self ..))]
  | work work stack =>
      obtain ⟨rfl, rfl⟩ := List.cons.inj hframes
      have hfirst := h.frames _ (List.mem_cons_self ..)
      cases work with
      | resume p g reply =>
          have hg : g ≠ scriptNumber := by simpa [Frame.isForeign] using hfirst
          simp [hg]
      | process p y =>
          cases above with
          | nil => cases h.last _ rfl
          | cons f₁ above =>
              have hf := Frame.answers_of_foreign (h.tail.frames f₁ (List.mem_cons_self ..))
              simp [hf]
      | _ => rfl

/-- Frames that leave the script alone make a step. -/
theorem Foreign.step {m m' : Machine} {t : TaskId} {f : Frame}
    {above below stack : List Frame} (h : Foreign (f :: above)) (hm : m.Sound)
    (hstep : m.step = some m') (hcurrent : m.current = some (t, head.control stack))
    (hfs : head.first :: stack = f :: above ++ below) (halone : ¬head.runsScript)
    (hstarted : m.world.session.started = true)
    (hlt : scriptNumber < m.world.generators.length) :
    m.words = [] ∧ ∃ above', m'.frames t = some (above' ++ below) ∧ Foreign above' := by
  obtain ⟨new, hmoves⟩ := hm.moves_of_head hstep hcurrent
  obtain ⟨above', hframes, habove'⟩ := h.above hfs halone hstarted hlt
  refine ⟨h.words hcurrent ((Head.frames_control ..).trans hfs), above', ?_, habove'⟩
  rw [hmoves.frames_self, hframes]

end HotSpec
