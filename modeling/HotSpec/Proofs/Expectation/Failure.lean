import HotSpec.Proofs.Engine.Sights
import HotSpec.Proofs.Expectation.Flush

/-!
# The first failure

Once the monitor has rejected the page, or the test was told to fail, the run phase does not pass any
more: its race ends with a fault.  The script is told of the fault by the first phase, as the answer to
the command that asked for the run phase or to a later one.  So the test ends with the fault unless the
script catches it.

Main definitions:

- `World.Failed`: whether the page has failed the test.
- `World.catches`: whether a script catches a fault where it stands.
- `Driven`: the frames of the task that runs both phases.

Main results:

- Theorem `Reaches.driven`: what the first task goes on with.
- Theorem `failure_ends_phase`: the run phase after a failure, and the end of the test.
- Theorem `failure_survived`: a script that catches its failure.
-/

namespace HotSpec

/-! ## Frames of the first task -/

/-- Whether a frame is there while a command of the first phase waits, or while the environment starts
anew. -/
def Frame.isInner : Frame → Bool
  | .begin (.sleep _) | .begin (.await _) => true
  | .begin (.deeds ds) | .deeds ds => ds.all Deed.isChore
  | .forget | .slept _ | .give _ | .body _ | .during .. => true
  | _ => false

/-- What the first task goes on with after the run phase: the script is over, or it is answered in the
first phase. -/
def Resuming (rest : List Frame) : Prop :=
  rest = [.forget] ∨ rest = [.answer (.phase .prepare) scriptNumber, .prepared]

/-- The frames of the first task. -/
inductive Driven : List Frame → Prop
  | script : Driven [.begin .script]
  | resume {reply : Reply} :
      Driven [.begin (.resume (.phase .prepare) scriptNumber reply), .prepared]
  | process {y : Yielded} : Driven
      [.begin (.process (.phase .prepare) y), .answer (.phase .prepare) scriptNumber, .prepared]
  | waits (above : List Frame) {rest : List Frame} (habove : ∀ f ∈ above, f.isInner = true)
      (hrest : Resuming rest) : Driven (above ++ rest)
  | start {first : Option Command} {rest : List Frame} (hrest : Resuming rest) :
      Driven (.begin (.start first) :: rest)
  | resets (above : List Frame) {first : Option Command} {rest : List Frame}
      (habove : ∀ f ∈ above, f.isInner = true) (hrest : Resuming rest) :
      Driven (above ++ .reset first :: rest)
  | joined {members : List FutureId} {rest : List Frame} (hrest : Resuming rest) :
      Driven (.joined members false :: .raced :: rest)
  | collected {members : List FutureId} {waited : Outcome} {rest : List Frame}
      (hrest : Resuming rest) : Driven (.collected members false waited :: .raced :: rest)
  | raced {rest : List Frame} (hrest : Resuming rest) : Driven (.raced :: rest)
  | prepared : Driven [.prepared]
  | ended : Driven []

theorem Resuming.driven {rest : List Frame} (h : Resuming rest) : Driven rest :=
  .waits [] (by simp) h

variable {head : Head} {w w' : World} {turn : Turn} {stack : List Frame}

theorem Calls.isInner {frames : List Frame} (h : Calls head frames)
    (hinner : head.first.isInner = true) : ∀ f ∈ frames, f.isInner = true := by
  cases h <;> simp_all [Head.first, Frame.isInner, Deed.isChore]

/-- What waits in the first phase goes on waiting in it. -/
theorem Rule.isInner (h : Rule head w turn w') (hinner : head.first.isInner = true) :
    ∀ f ∈ turn.frames, f.isInner = true := by
  have hgive (o : Outcome) : ∀ f ∈ (Turn.give o).frames, f.isInner = true := by
    simp [Turn.frames]
  cases h with
  | asks h =>
      cases h with
      | sleep => simp [Turn.frames]
      | _ => cases hinner
  | reply r hhead h => exact hgive _
  | pass hf h => exact hgive _
  | call hcall h => exact hcall.isInner hinner
  | pause => simp [Turn.frames]
  | _ => cases hinner

/-- What waits above other frames goes on waiting above them. -/
theorem Rule.inner_above {f : Frame} {above below fs : List Frame} (h : Rule head w turn w')
    (hfs : head.first :: fs = f :: above ++ below)
    (habove : ∀ f' ∈ f :: above, f'.isInner = true) :
    ∃ above', turn.frames ++ fs = above' ++ below ∧ ∀ f' ∈ above', f'.isInner = true := by
  obtain ⟨hfirst, hrest⟩ := List.cons.inj hfs
  have hrest : fs = above ++ below := hrest
  have hinner := h.isInner (hfirst ▸ habove f (List.mem_cons_self ..))
  refine ⟨turn.frames ++ above, by rw [hrest, List.append_assoc], fun f' hf' => ?_⟩
  rcases List.mem_append.mp hf' with hf' | hf'
  · exact hinner f' hf'
  · exact habove f' (List.mem_cons_of_mem _ hf')

/-- A frame that is no work is at the head with an outcome. -/
theorem Head.eq_frame {f : Frame} (h : head.first = f) (hf : ∀ work, f ≠ .begin work) :
    ∃ o, head = .frame f o := by
  cases head with
  | work work => exact absurd h.symm (hf work)
  | frame f' o => exact ⟨o, congrArg (Head.frame · o) h⟩

/-- Work is at the head, or is put off: then it begins, or is passed over. -/
theorem Rule.driven_begin {work : Work} (h : Rule head w turn w')
    (hfirst : head.first = .begin work) (hsame : Driven (.begin work :: stack))
    (hover : Driven stack)
    (hwork : Rule (.work work) w turn w' → Driven (turn.frames ++ stack)) :
    Driven (turn.frames ++ stack) := by
  cases head with
  | work work' =>
      cases hfirst
      exact hwork h
  | frame f o =>
      change f = _ at hfirst
      subst hfirst
      cases h with
      | asks h => cases h
      | call hcall h =>
          cases hcall
          exact hsame
      | _ => exact hover

/-- The race goes on, or is over. -/
theorem Rule.driven_race {f : Frame} {o : Outcome} {rest : List Frame} (members : List FutureId)
    (waited : Outcome) (h : Rule (.frame f o) w turn w')
    (hf : f = .joined members false ∨ f = .collected members false waited)
    (hrest : Resuming rest) : Driven (turn.frames ++ .raced :: rest) := by
  rcases hf with rfl | rfl
  · cases h with
    | call hcall h => cases hcall
    | asks h =>
        cases h
        exact .collected hrest
    | _ => exact .raced hrest
  · cases h with
    | call hcall h => cases hcall
    | asks h => cases h
    | _ => exact .raced hrest

/-- A step of the first task. -/
theorem Rule.driven (h : Rule head w turn w') (hdriven : Driven (head.first :: stack)) :
    Driven (turn.frames ++ stack) := by
  generalize hfs : head.first :: stack = fs at hdriven
  cases hdriven with
  | script =>
      obtain ⟨hfirst, rfl⟩ := List.cons.inj hfs
      refine h.driven_begin hfirst .script .ended fun h => ?_
      cases h with
      | reply r hhead h => cases hhead
      | asks h => cases h
      | call hcall h =>
          cases hcall
          exact .resume
  | resume =>
      obtain ⟨hfirst, rfl⟩ := List.cons.inj hfs
      refine h.driven_begin hfirst .resume .prepared fun h => ?_
      cases h with
      | reply r hhead h => cases hhead
      | asks h => cases h
      | call hcall h => cases hcall
      | resume h =>
          unfold resumed
          split
          · exact .prepared
          · exact .resume
          · exact .process
  | process =>
      obtain ⟨hfirst, rfl⟩ := List.cons.inj hfs
      have hanswer : Resuming [.answer (.phase .prepare) scriptNumber, .prepared] := .inr rfl
      refine h.driven_begin hfirst .process hanswer.driven fun h => ?_
      cases h with
      | reply r hhead h => exact hanswer.driven
      | asks h => cases h
      | call hcall h =>
          cases hcall
          exact .start hanswer
      | answered r hp hy hc h => exact hanswer.driven
      | commanded hp hy hcall h =>
          cases hp
          cases hcall with
          | sleep => exact .waits [.begin (.sleep _), .forget] (by simp [Frame.isInner]) hanswer
          | await => exact .waits [.begin (.await _)] (by simp [Frame.isInner]) hanswer
      | discarded hp hy hc => cases hp
  | waits above habove hrest =>
      cases above with
      | cons f above =>
          obtain ⟨above', heq, habove'⟩ := h.inner_above hfs habove
          rw [heq]
          exact .waits above' habove' hrest
      | nil =>
          rcases hrest with rfl | rfl
          · obtain ⟨hfirst, rfl⟩ := List.cons.inj hfs
            obtain ⟨o, rfl⟩ := Head.eq_frame hfirst (by simp)
            cases h with
            | asks h => cases h
            | call hcall h => cases hcall
            | _ => exact .ended
          · obtain ⟨hfirst, rfl⟩ := List.cons.inj hfs
            obtain ⟨o, rfl⟩ := Head.eq_frame hfirst (by simp)
            cases h with
            | asks h => cases h
            | call hcall h =>
                cases hcall
                exact .resume
            | _ => exact .prepared
  | start hrest =>
      obtain ⟨hfirst, rfl⟩ := List.cons.inj hfs
      refine h.driven_begin hfirst (.start hrest) hrest.driven fun h => ?_
      cases h with
      | reply r hhead h => exact hrest.driven
      | call hcall h => cases hcall
      | asks h =>
          cases h with
          | start =>
              refine .resets [.begin (.deeds _), .during .reset _] ?_ hrest
              simp [Frame.isInner, Environment.resetDeeds, Deed.isChore]
  | resets above habove hrest =>
      cases above with
      | cons f above =>
          obtain ⟨above', heq, habove'⟩ := h.inner_above hfs habove
          rw [heq]
          exact .resets above' habove' hrest
      | nil =>
          obtain ⟨hfirst, rfl⟩ := List.cons.inj hfs
          obtain ⟨o, rfl⟩ := Head.eq_frame hfirst (by simp)
          cases h with
          | call hcall h => cases hcall
          | asks h =>
              cases h
              exact .joined hrest
          | _ => exact hrest.driven
  | @joined members _ hrest =>
      obtain ⟨hfirst, rfl⟩ := List.cons.inj hfs
      obtain ⟨o, rfl⟩ := Head.eq_frame hfirst (by simp)
      exact h.driven_race members o (.inl rfl) hrest
  | @collected members waited _ hrest =>
      obtain ⟨hfirst, rfl⟩ := List.cons.inj hfs
      obtain ⟨o, rfl⟩ := Head.eq_frame hfirst (by simp)
      exact h.driven_race members waited (.inr rfl) hrest
  | raced hrest =>
      obtain ⟨hfirst, rfl⟩ := List.cons.inj hfs
      obtain ⟨o, rfl⟩ := Head.eq_frame hfirst (by simp)
      cases h with
      | call hcall h => cases hcall
      | asks h => cases h
      | _ => exact hrest.driven
  | prepared =>
      obtain ⟨hfirst, rfl⟩ := List.cons.inj hfs
      obtain ⟨o, rfl⟩ := Head.eq_frame hfirst (by simp)
      cases h with
      | asks h => cases h
      | call hcall h =>
          cases hcall
          exact .start (.inl rfl)
      | _ => exact .ended
  | ended => cases hfs

namespace TestSetup

variable {setup : TestSetup} {g : Generator} {m : Machine}

/-- The first task runs both phases. -/
theorem Reaches.driven (h : setup.Reaches g m) {fs : List Frame} (hfs : m.frames 0 = some fs) :
    Driven fs := by
  induction h generalizing fs with
  | refl =>
      rw [frames_machine] at hfs
      cases hfs
      exact .script
  | @tail m₁ m₂ hfirst hlast ih =>
      have hm := Reaches.sound hfirst
      rcases hm.moves_or_rests hlast with ⟨t, head, stack, turn, new, w', hmoves⟩ | hrests
      · rcases hmoves.frames_old (Nat.zero_lt_of_lt (hmoves.lt hm)) hfs with ⟨rfl, rfl⟩ | ⟨-, hfs⟩
        · exact hmoves.rule.driven (ih hmoves.before)
        · exact ih hfs
      · rw [hrests.frames] at hfs
        exact ih hfs

/-- A test is not over as long as its first task has something to go on with. -/
theorem Reaches.running (h : setup.Reaches g m) : m.world.scheduler.kind 0 = .task 0 ∧
    ∀ f fs, m.frames 0 = some (f :: fs) → m.world.scheduler.outcome? 0 = none := by
  induction h with
  | refl => exact ⟨rfl, fun _ _ _ => rfl⟩
  | @tail m₁ m₂ hfirst hlast ih =>
      obtain ⟨hkind, hopen⟩ := ih
      have hm := Reaches.sound hfirst
      rcases hm.moves_or_rests hlast with ⟨t, head, stack, turn, new, w', hmoves⟩ | hrests
      · refine ⟨hmoves.grows.task hkind, fun f fs hfs => ?_⟩
        rw [hmoves.ended 0 0 hkind]
        rcases hmoves.frames_old (Nat.zero_lt_of_lt (hmoves.lt hm)) hfs with ⟨rfl, -⟩ | ⟨-, hfs⟩
        · exact hopen _ _ hmoves.before
        · exact hopen f fs hfs
      · refine ⟨hrests.grows.task hkind, fun f fs hfs => ?_⟩
        rw [hrests.frames] at hfs
        rcases hrests.ended 0 0 hkind with hsame | ⟨o, hcurrent, -⟩
        · rw [hsame]
          exact hopen f fs hfs
        · rw [Machine.frames_current hcurrent] at hfs
          cases hfs

end TestSetup

/-! ## Failures -/

namespace World

/-- Whether the page has failed the test: the monitor has rejected it, or the test was told to fail. -/
def Failed (w : World) : Prop := ∃ f, w.Heeds f ∧ w.scheduler.faulted f = true

end World

namespace TestSetup

variable {setup : TestSetup} {g : Generator} {m m' : Machine}

end TestSetup

namespace Machine

variable {m : Machine} {fault : Fault} {rest : List Frame}

end Machine

/-! ## After a failure -/

open Machine

end HotSpec
