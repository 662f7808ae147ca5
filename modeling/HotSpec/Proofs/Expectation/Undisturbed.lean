import HotSpec.Proofs.Engine.Registering
import HotSpec.Proofs.Engine.Returns
import HotSpec.Proofs.Expectation.Written

/-!
# Undisturbed runs

A write lets the environment do its chores, and an assertion runs subs and compares HTML.  As long as
the task resolves no command meanwhile, this neither writes nor asserts anything else, and leaves what
is pending and the files of all labels.

Main definitions:

- `Operation`: a write that the environment is asked for, or an assertion that begins.
- `World.Stays`: what is pending and the files of all labels stay.
- `Frame.serves`: whether a frame is part of a write or of an assertion.
- `Machine.Alone`: the operations of a task that nobody disturbs, until it hands back to some frames.

Main results:

- Theorem `Rule.stays`: only a drain, a command and the page that opens touch what is pending.
- Theorem `Undisturbed.serves`: a write and an assertion go on without any further operation.
-/

namespace HotSpec

/-! ## Operations -/

/-- What a run is there for: the environment is asked to write files, and an expectation is
asserted. -/
inductive Operation
  | write (files : Table Value)
  | assertion (label : String) (e : Expectation)

/-- The operation that a piece of work is. -/
def Work.operation? : Work → Option Operation
  | .write files => some (.write files)
  | .verify label e .before => some (.assertion label e)
  | _ => none

/-- The operation that a step calls. -/
def Turn.operation? : Turn → Option Operation
  | .call work _ => work.operation?
  | _ => none

/-- The operation that a machine is at. -/
def Machine.operation? (m : Machine) : Option Operation :=
  match m.current with
  | some (_, .work work _) => work.operation?
  | _ => none

theorem Machine.operation?_work {m : Machine} {t : TaskId} {work : Work} {stack : List Frame}
    (h : m.current = some (t, .work work stack)) : m.operation? = work.operation? := by
  unfold Machine.operation?
  rw [h]

theorem Machine.operation?_outcome {m : Machine} {t : TaskId} {o : Outcome} {stack : List Frame}
    (h : m.current = some (t, .outcome o stack)) : m.operation? = none := by
  unfold Machine.operation?
  rw [h]

theorem Machine.Moves.operation? {m m' : Machine} {t : TaskId} {head : Head} {stack : List Frame}
    {turn : Turn} {new : List (List Frame)} {w' : World} (h : m.Moves t head stack turn new w' m') :
    m'.operation? = turn.operation? := by
  unfold Machine.operation?
  rw [h.next]
  cases turn <;> rfl

theorem operation?_verify {label : String} {e : Expectation} {stage stage' : Stage}
    (h : Move.nextStage e stage = some stage') : (Work.verify label e stage').operation? = none := by
  cases stage' with
  | before => exact absurd rfl (ne_before_of_nextStage h)
  | step | after => rfl

/-! ## What stays -/

/-- Whether what is pending and the files of all labels stay. -/
structure World.Stays (w w' : World) : Prop where
  pending : w'.session.pending = w.session.pending
  specs : w'.session.specs = w.session.specs

/-- The expectations that are pending, whether or not there are any. -/
def World.queue (w : World) : List (String × Expectation) := w.session.pending.getD []

namespace World

variable {w w' w₁ w₂ w₃ : World}

theorem Stays.queue (h : w.Stays w') : w'.queue = w.queue := congrArg (·.getD []) h.pending

theorem labelFiles_congr (h : w'.session.specs = w.session.specs) (label : String) :
    w'.labelFiles label = w.labelFiles label := by
  unfold labelFiles Session.variantFiles
  rw [h]

end World

/-- Whether a head may leave what is pending only as it is. -/
def Head.leavesQueue : Head → Bool
  | .work (.drain ..) | .work (.process ..) | .work (.inPage _) | .frame (.reset _) _ => false
  | _ => true

variable {head : Head} {w w' : World} {turn : Turn}

/-- No rule changes the files of labels, unless a command is resolved. -/
theorem Rule.specs (h : Rule head w turn w') (hhead : ∀ p y, head ≠ .work (.process p y)) :
    w'.session.specs = w.session.specs := by
  rcases h.registers with hidles | ⟨c, hgets, -⟩
  · exact hidles.specs
  · cases hgets
    exact absurd rfl (hhead _ _)

/-- Only a drain, a command and the page that opens touch what is pending. -/
theorem Rule.stays (h : Rule head w turn w') (hhead : head.leavesQueue = true) : w.Stays w' := by
  refine ⟨?_, h.specs ?_⟩
  · cases h with
    | asks h =>
        cases h with
        | opened => cases hhead
        | together hsubs hrun =>
            rw [World.spawnAll_world hrun]
            rfl
        | _ => rfl
    | reply r _ h => exact h.steady.session.pending
    | pass hf h => exact h.steady.session.pending
    | call hcall h => exact h.steady.session.pending
    | resume h => exact h.steady.session.pending
    | load h => exact h.steady.session.pending
    | @raced o => cases o <;> rfl
    | answered | commanded | discarded | ready | checked | unchecked | drained | popped
    | writing => cases hhead
    | _ => rfl
  · rintro p y rfl
    cases hhead

/-! ## Parts of a write and of an assertion -/

/-- Whether a frame is part of a write or of an assertion. -/
def Frame.serves : Frame → Bool
  | .begin (.write _) | .begin (.verify ..) | .begin (.sub ..) | .begin (.together ..)
  | .begin (.resume ..) | .begin (.process ..) | .begin (.sleep _) | .begin (.await _) => true
  | .begin (.deeds ds) | .deeds ds => ds.all Deed.isChore
  | .answer .. | .verified .. | .during .. | .joined .. | .collected .. | .slept _ | .give _
  | .body _ => true
  | _ => false

/-- Whether a head is neither a command nor work that was put off. -/
def Head.isPlain : Head → Bool
  | .work (.process ..) | .frame (.begin _) _ => false
  | _ => true

theorem Calls.serves {frames : List Frame} (h : Calls head frames)
    (hserves : head.first.serves = true) (hplain : head.isPlain = true) :
    ∀ f ∈ frames, f.serves = true := by
  cases h with
  | double | start | begin => cases hplain
  | write => simp [Frame.serves, Deed.isChore]
  | _ => simp_all [Head.first, Frame.serves, Deed.isChore]

theorem Calls.operation? {work : Work} {frames : List Frame} (h : Calls head (.begin work :: frames))
    (hserves : head.first.serves = true) (hplain : head.isPlain = true) : work.operation? = none := by
  cases h with
  | begin => cases hplain
  | verifyNext hstage hnext | verified hnext => exact operation?_verify hnext
  | opened => cases hserves
  | _ => rfl

/-- A write and an assertion go on by their parts, and without any further operation. -/
theorem Rule.serves (h : Rule head w turn w') (hserves : head.first.serves = true)
    (hplain : head.isPlain = true) :
    (∀ f ∈ turn.frames, f.serves = true) ∧ turn.operation? = none := by
  have hgive (o : Outcome) : (∀ f ∈ (Turn.give o).frames, f.serves = true) ∧
      (Turn.give o).operation? = none := ⟨by simp [Turn.frames], rfl⟩
  cases h with
  | asks h =>
      cases h with
      | sleep | together | cancelled => exact ⟨by simp [Turn.frames, Frame.serves], rfl⟩
      | _ => cases hserves
  | reply r hhead h => exact hgive _
  | pass hf h => exact hgive _
  | call hcall h => exact ⟨hcall.serves hserves hplain, hcall.operation? hserves hplain⟩
  | @resume p g reply adv _ _ h =>
      rcases resumed_cases p g adv with ⟨reply, heq⟩ | heq | ⟨y, heq⟩ <;>
      · rw [heq]
        exact ⟨by simp [Turn.reply, Turn.frames, Frame.serves], rfl⟩
  | answered | commanded | discarded => cases hplain
  | pause => exact ⟨by simp [Turn.frames], rfl⟩
  | joined | collected => exact hgive _
  | verifyHook => exact ⟨by simp [Turn.frames, Frame.serves], rfl⟩
  | verify hnext => exact ⟨by simp [Turn.frames, Frame.serves], operation?_verify hnext⟩
  | _ => cases hserves

theorem Head.leavesQueue_of_serves (hserves : head.first.serves = true)
    (hplain : head.isPlain = true) : head.leavesQueue = true := by
  cases head with
  | frame f o => cases f <;> first | rfl | cases hserves
  | work work => cases work <;> first | cases hserves; done | cases hplain; done | rfl

/-! ## Runs that nobody disturbs -/

namespace Machine

/-- A step that does not disturb a task: it resolves no command for it, and where another task makes
the step, this leaves what is pending and the files of all labels, and neither writes nor asserts. -/
structure Undisturbed (t : TaskId) (m m' : Machine) : Prop where
  step : m.step = some m'
  commands : ∀ p y stack, m.current ≠ some (t, .work (.process p y) stack)
  others : ∀ u c, m.current = some (u, c) → u ≠ t → m.world.Stays m'.world ∧ m'.operation? = none

/-- The operations of a task that nobody disturbs, until it has its turn with some frames and nothing in
front of them. -/
inductive Alone (t : TaskId) (stack : List Frame) (m : Machine) : List Operation → Machine → Prop
  | refl : Alone t stack m [] m
  | step {operations : List Operation} {m₁ m₂ : Machine} (h : Alone t stack m operations m₁)
      (hnot : ¬m₁.Resumes t stack) (hstep : Undisturbed t m₁ m₂) :
      Alone t stack m (operations ++ m₂.operation?.toList) m₂

variable {m m' m₁ m₂ : Machine} {t : TaskId} {stack : List Frame}
  {operations operations₁ operations₂ : List Operation}

theorem Alone.steps (h : m.Alone t stack operations m') : m.Steps m' := by
  induction h with
  | refl => exact .refl m
  | step _ _ hstep ih => exact ih.trans (.single hstep.step)

/-- What the task does by itself does not disturb it, unless it resolves a command. -/
theorem undisturbed_of_current {c : Control} (hcurrent : m.current = some (t, c))
    (hc : ∀ p y stack, c ≠ .work (.process p y) stack) (hstep : m.step = some m') :
    Undisturbed t m m' where
  step := hstep
  commands p y stack h := hc p y stack (congrArg Prod.snd (Option.some.inj (hcurrent.symm.trans h)))
  others _ _ h hne := absurd (congrArg Prod.fst (Option.some.inj (h.symm.trans hcurrent))) hne

theorem Alone.sound (h : m.Alone t stack operations m') (hm : m.Sound) : m'.Sound :=
  h.steps.invariant hm fun _ _ hstep hm => hm.step hstep

/-- Frames stay on a task that has not come down to them. -/
theorem Alone.frames (above : List Frame) (h : m.Alone t stack operations m') (hm : m.Sound)
    (hframes : m.frames t = some (above ++ stack)) :
    ∃ above', m'.frames t = some (above' ++ stack) := by
  induction h with
  | refl => exact ⟨above, hframes⟩
  | step h hnot hstep ih =>
      obtain ⟨above', hframes'⟩ := ih
      exact (h.sound hm).keeps_stack hframes' hnot hstep.step

/-- A run in front of more frames is part of one in front of fewer. -/
theorem Alone.trans {front above : List Frame} (h₁ : m.Alone t stack operations₁ m₁)
    (h₂ : m₁.Alone t (front ++ stack) operations₂ m₂) (hm : m₁.Sound)
    (hframes : m₁.frames t = some (above ++ (front ++ stack))) :
    m.Alone t stack (operations₁ ++ operations₂) m₂ := by
  induction h₂ with
  | refl => rwa [List.append_nil]
  | @step operations m' m'' h₂ hnot hstep ih =>
      rw [← List.append_assoc]
      refine ih.step ?_ hstep
      rintro ⟨c, hcurrent, hc⟩
      -- The frames in front are still there, so that the task has not come down to fewer.
      obtain ⟨above', hframes'⟩ := h₂.frames above hm hframes
      have heq := Option.some.inj ((frames_current hcurrent).symm.trans hframes')
      rw [hc] at heq
      have hlength := congrArg List.length heq
      simp only [List.length_append] at hlength
      have hfront : front = [] := List.length_eq_zero_iff.mp (by omega)
      exact hnot ⟨c, hcurrent, by rw [hc, hfront, List.nil_append]⟩

/-- Whether a machine is idle, or at a task that resolves no command and has not come down to as many
frames as it was in front of. -/
def isAlone (m : Machine) (t : TaskId) (depth : Nat) : Bool :=
  match m.current with
  | none => true
  | some (_, .work (.process ..) _) => false
  | some (u, c) => u = t && c.frames.length ≠ depth

theorem not_resumes_of_isAlone (h : m.isAlone t stack.length = true) : ¬m.Resumes t stack := by
  rintro ⟨c, hcurrent, rfl⟩
  unfold isAlone at h
  rw [hcurrent] at h
  split at h
  · next hnone => cases hnone
  · cases h
  · next hsome =>
      cases hsome
      simp at h

theorem undisturbed_of_isAlone {depth : Nat} (h : m.isAlone t depth = true)
    (hstep : m.step = some m') : Undisturbed t m m' := by
  refine ⟨hstep, ?_, ?_⟩
  · intro p y fs hcurrent
    unfold isAlone at h
    rw [hcurrent] at h
    cases h
  · intro u c hcurrent hne
    unfold isAlone at h
    rw [hcurrent] at h
    split at h
    · next hnone => cases hnone
    · cases h
    · next hsome =>
        cases hsome
        exact absurd (by simpa using (Bool.and_eq_true_iff.mp h).1) hne

/-- Whether a task is alone can be seen by running the machine. -/
theorem alone_after (n : Nat) (h : ∀ k < n, (after k m).isAlone t stack.length = true) :
    ∃ operations, m.Alone t stack operations (after n m) := by
  induction n with
  | zero => exact ⟨[], .refl⟩
  | succ n ih =>
      obtain ⟨operations, halone⟩ := ih fun k hk => h k (Nat.lt_succ_of_lt hk)
      have hlast := h n (Nat.lt_succ_self n)
      rw [after_add n 1, after]
      cases hstep : (after n m).step with
      | none => exact ⟨operations, halone⟩
      | some m' =>
          exact ⟨_, halone.step (not_resumes_of_isAlone hlast) (undisturbed_of_isAlone hlast hstep)⟩

variable {setup : TestSetup} {g : Generator} {above below : List Frame}

/-- A write and an assertion go on without any further operation, and leave what is pending and the files
of all labels. -/
theorem Undisturbed.serves (h : Undisturbed t m m') (hreach : setup.Reaches g m)
    (hframes : m.frames t = some (above ++ below)) (habove : ∀ f ∈ above, f.serves = true)
    (hbelow : below ≠ []) (hnot : ¬m.Resumes t below) :
    (∃ above', m'.frames t = some (above' ++ below) ∧ ∀ f ∈ above', f.serves = true) ∧
      m'.operation? = none ∧ m.world.Stays m'.world := by
  have hm := hreach.sound
  rcases hm.moves_or_rests h.step with ⟨u, head, under, turn, new, w', hmoves⟩ | hrests
  · have hworld (hstays : m.world.Stays w') : m.world.Stays m'.world :=
      ⟨by rw [hmoves.session]; exact hstays.pending, by rw [hmoves.session]; exact hstays.specs⟩
    by_cases hut : u = t
    · subst hut
      have heq := Option.some.inj (hmoves.before.symm.trans hframes)
      cases above with
      | nil =>
          exact absurd ⟨_, hmoves.current, (Head.frames_control head under).trans heq⟩ hnot
      | cons f above =>
          obtain ⟨hfirst, hunder⟩ := List.cons.inj heq
          obtain ⟨hf, hrest⟩ := List.forall_mem_cons.mp habove
          have hserves : head.first.serves = true := hfirst ▸ hf
          have hplain : head.isPlain = true := by
            cases head with
            | work work =>
                cases work <;> first | rfl | exact absurd hmoves.current (h.commands _ _ _)
            | frame f o =>
                cases f <;> try rfl
                -- Work that was put off has nothing under it.
                have hnil := (hreach.begun hmoves.current).1
                rw [hunder] at hnil
                exact absurd (List.append_eq_nil_iff.mp hnil).2 hbelow
          obtain ⟨hturn, hoperation⟩ := hmoves.rule.serves hserves hplain
          refine ⟨⟨turn.frames ++ above, ?_, ?_⟩, hmoves.operation?.trans hoperation,
            hworld (hmoves.rule.stays (Head.leavesQueue_of_serves hserves hplain))⟩
          · rw [hmoves.frames_self, hunder, List.append_assoc]
            rfl
          · intro f hf
            exact (List.mem_append.mp hf).elim (hturn f) (hrest f)
    · obtain ⟨hstays, hoperation⟩ := h.others u _ hmoves.current hut
      refine ⟨⟨above, ?_, habove⟩, hoperation, hstays⟩
      rw [hmoves.frames_of_ne (Ne.symm hut) (hm.lt_of_frames hframes)]
      exact hframes
  · refine ⟨⟨above, (hrests.frames t).trans hframes, habove⟩, ?_, hrests.session.pending, ?_⟩
    · cases hcurrent : m'.current with
      | none => simp [Machine.operation?, hcurrent]
      | some current =>
          obtain ⟨u, c⟩ := current
          obtain ⟨-, o, fs, rfl⟩ := hrests.current u c hcurrent
          exact operation?_outcome hcurrent
    · rcases registers_of_step h.step with hidles | ⟨u, head, under, c, hcurrent, hgets, -⟩
      · exact hidles.specs
      · cases hgets
        rcases hrests.before with hnone | ⟨v, o, hsome⟩
        · cases hnone.symm.trans hcurrent
        · cases hsome.symm.trans hcurrent

end Machine

end HotSpec
