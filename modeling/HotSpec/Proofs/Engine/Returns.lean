import HotSpec.Proofs.Engine.Records

/-!
# Calls and their returns

A frame comes to be on a task by one step, and stays there, with all that is under it, until the work
in front of it has come to an outcome.  So whatever a task is at, the call that has led there can be
pointed at, and what has happened since then.

Main definitions:

- `Machine.Resumes`: whether a task has its turn with some frames and nothing in front of them.
- `Machine.During`: the steps while a task is at work in front of some frames.

Main results:

- Theorem `Reaches.pushed`: every frame was put where it is, and was not touched since.
- Theorem `Reaches.calls`: every piece of work is called by the step that leads to it.
- Theorem `Reaches.total`: of two machines of a run, one comes after the other.
-/

namespace HotSpec

/-! ## Work that is called -/

/-- Whether a frame begins a piece of work. -/
def Frame.isBegin : Frame → Bool
  | .begin _ => true
  | _ => false

/-- Whether a task may begin with a piece of work. -/
def Work.opensTask : Work → Bool
  | .script | .sub .. | .load _ => true
  | _ => false

theorem Spawns.opensTask {head : Head} {new : List (List Frame)} (h : Spawns head new)
    {fs : List Frame} (hfs : fs ∈ new) : ∃ work, fs = [.begin work] ∧ work.opensTask = true := by
  cases h with
  | none => cases hfs
  | subs =>
      obtain ⟨sub, -, rfl⟩ := List.mem_map.mp hfs
      exact ⟨_, rfl, rfl⟩
  | load => exact ⟨_, List.mem_singleton.mp hfs, rfl⟩

/-- A script that is resumed ends, goes on at once, or has something to be resolved. -/
theorem resumed_cases (p : Processor) (g : Nat) (adv : Advance) :
    (∃ reply, resumed p g adv = .reply reply) ∨
      resumed p g adv = .call (.resume p g (.ok .nothing)) [] ∨
      ∃ y, resumed p g adv = .call (.process p y) [.answer p g] := by
  unfold resumed
  split
  · exact .inl ⟨_, rfl⟩
  · exact .inr (.inl rfl)
  · exact .inr (.inr ⟨_, rfl⟩)

/-- Work is called by the first frame of a call only. -/
theorem Rule.isBegin {head : Head} {w w' : World} {turn : Turn} (h : Rule head w turn w')
    {f : Frame} {front under : List Frame} (hturn : turn.frames = front ++ f :: under)
    (hf : f.isBegin = true) : ∃ work, turn = .call work under ∧ f = .begin work := by
  have hcall {work : Work} {frames : List Frame}
      (hframes : ∀ f ∈ frames, f.isBegin = false)
      (heq : (Turn.call work frames).frames = front ++ f :: under) :
      ∃ work', Turn.call work frames = .call work' under ∧ f = .begin work' := by
    cases front with
    | nil =>
        obtain ⟨rfl, rfl⟩ := List.cons.inj heq
        exact ⟨work, rfl, rfl⟩
    | cons f' front =>
        have hmem : f ∈ frames := by
          rw [(List.cons.inj heq).2]
          simp
        rw [hframes f hmem] at hf
        cases hf
  have hnone (hframes : ∀ f ∈ turn.frames, f.isBegin = false) : False := by
    have hmem : f ∈ turn.frames := by
      rw [hturn]
      simp
    rw [hframes f hmem] at hf
    cases hf
  cases h with
  | asks h =>
      cases h with
      | start => exact hcall (by simp [Frame.isBegin]) hturn
      | _ => exact (hnone (by simp [Turn.frames, Frame.isBegin])).elim
  | call hc h =>
      refine hcall ?_ hturn
      cases hc with
      | opened h => cases h <;> simp [Frame.isBegin]
      | _ => simp [Frame.isBegin]
  | @resume p g reply adv _ _ h =>
      rcases resumed_cases p g adv with ⟨reply, heq⟩ | heq | ⟨y, heq⟩
      · exact (hnone (by rw [heq]; simp [Turn.reply, Turn.frames])).elim
      · rw [heq] at hturn ⊢
        exact hcall (by simp) hturn
      · rw [heq] at hturn ⊢
        exact hcall (by simp [Frame.isBegin]) hturn
  | commanded hp hy hc h =>
      refine hcall ?_ hturn
      cases hc <;> simp [Frame.isBegin]
  | ready hlabel h =>
      refine hcall ?_ hturn
      cases h <;> simp [Frame.isBegin]
  | load | checked | popped | writing | written | verifyHook | verify | assertedNext | changed =>
      exact hcall (by simp [Frame.isBegin]) hturn
  | _ => exact (hnone (by simp [Turn.frames, Turn.done, Move.lastLabel])).elim

/-! ## Calls -/

namespace Machine

variable {m m' m₁ m₂ : Machine} {t : TaskId} {stack : List Frame}

/-- A task that has frames is one that there is. -/
theorem Sound.lt_of_frames (hm : m.Sound) {fs : List Frame} (hfs : m.frames t = some fs) :
    t < m.world.scheduler.tasks.length := by
  have hstack (h : m.world.scheduler.stack? t = some fs) :
      t < m.world.scheduler.tasks.length := by
    obtain ⟨task, htask, -⟩ := Option.map_eq_some_iff.mp h
    exact (List.getElem?_eq_some_iff.mp htask).1
  cases hcurrent : m.current with
  | none =>
      rw [frames_idle hcurrent] at hfs
      exact hstack hfs
  | some current =>
      obtain ⟨u, c⟩ := current
      by_cases htu : t = u
      · rw [htu]
        exact hm.lt hcurrent
      · rw [frames_of_ne hcurrent htu] at hfs
        exact hstack hfs

/-- Whether a task has its turn with some frames and nothing in front of them. -/
def Resumes (m : Machine) (t : TaskId) (stack : List Frame) : Prop :=
  ∃ c, m.current = some (t, c) ∧ c.frames = stack

/-- The steps while a task is at work in front of some frames. -/
def During (t : TaskId) (stack : List Frame) : Machine → Machine → Prop :=
  Relation.ReflTransGen fun m m' => m.step = some m' ∧
    (∃ above, m.frames t = some (above ++ stack)) ∧ ¬m.Resumes t stack

theorem During.steps (h : During t stack m m') : m.Steps m' := by
  induction h with
  | refl => exact .refl m
  | tail _ hlast ih => exact ih.trans (.single hlast.1)

/-- Work that has not begun has nothing in front of it. -/
theorem During.eq_of_resumes (h : During t stack m m') (hm : m.Resumes t stack) : m' = m := by
  rcases h.cases_head with heq | ⟨m₁, ⟨-, -, hnot⟩, -⟩
  · exact heq.symm
  · exact absurd hm hnot

/-- A step by the task itself leaves all that is under its first frame. -/
theorem Moves.during {head : Head} {turn : Turn} {new : List (List Frame)} {w' : World}
    {above fs : List Frame} (h : m.Moves t head stack turn new w' m') (hstack : stack = above ++ fs)
    (hstep : m.step = some m') : During t fs m m' := by
  refine Relation.ReflTransGen.single ⟨hstep, ⟨head.first :: above, ?_⟩, ?_⟩
  · rw [h.before, hstack, List.cons_append]
  · rintro ⟨c, hcurrent, hframes⟩
    have heq := (Machine.frames_current hcurrent).symm.trans h.before
    rw [hframes, hstack] at heq
    have hlength := congrArg List.length (Option.some.inj heq)
    simp only [List.length_cons, List.length_append] at hlength
    omega

/-- A step is made by a task at work in front of frames. -/
theorem During.of_step {f : Frame} (hfs : m.frames t = some (f :: stack)) (hstep : m.step = some m') :
    During t stack m m' := by
  refine Relation.ReflTransGen.single ⟨hstep, ⟨[f], hfs⟩, ?_⟩
  rintro ⟨c, hcurrent, hframes⟩
  have heq := Option.some.inj (hfs.symm.trans (frames_current hcurrent))
  rw [hframes] at heq
  exact List.cons_ne_self _ _ heq

/-- The steps of a task in front of frames begin with its first step. -/
theorem During.after {m₁ : Machine} (h : During t stack m m') (hstep : m.step = some m₁) (hne : m' ≠ m) :
    During t stack m₁ m' := by
  rcases h.cases_head with heq | ⟨m₂, ⟨hstep', -⟩, hrest⟩
  · exact absurd heq.symm hne
  · cases hstep.symm.trans hstep'
    exact hrest

/-- Frames stay on a task until it has its turn with nothing in front of them. -/
theorem Sound.keeps_stack {above : List Frame} (hm : m.Sound)
    (hfs : m.frames t = some (above ++ stack)) (hnot : ¬m.Resumes t stack)
    (hstep : m.step = some m') : ∃ above', m'.frames t = some (above' ++ stack) := by
  rcases hm.moves_or_rests hstep with ⟨u, head, below, turn, new, w', hmoves⟩ | hrests
  · by_cases hut : u = t
    · subst hut
      have hframes : m'.frames u = some (turn.frames ++ below) := by
        rw [hmoves.frames_self]
      have heq := Option.some.inj (hmoves.before.symm.trans hfs)
      cases above with
      | nil => exact absurd ⟨_, hmoves.current, by rw [Head.frames_control]; exact heq⟩ hnot
      | cons a above =>
          refine ⟨turn.frames ++ above, ?_⟩
          rw [hframes, (List.cons.inj heq).2, List.append_assoc]
          rfl
    · refine ⟨above, ?_⟩
      rw [hmoves.frames_of_ne (Ne.symm hut) (hm.lt_of_frames hfs)]
      exact hfs
  · exact ⟨above, (hrests.frames t).trans hfs⟩

theorem During.sound (h : During t stack m m') (hm : m.Sound) : m'.Sound := by
  induction h with
  | refl => exact hm
  | tail _ hlast ih => exact ih.step hlast.1

/-- Whatever a task does in front of frames, they stay there. -/
theorem During.kept (above : List Frame) (h : During t stack m m') (hm : m.Sound)
    (hfs : m.frames t = some (above ++ stack)) : ∃ above', m'.frames t = some (above' ++ stack) := by
  rcases h.cases_tail with rfl | ⟨m₁, hbefore, hstep, ⟨above', hfs₁⟩, hnot⟩
  · exact ⟨above, hfs⟩
  · exact (During.sound hbefore hm).keeps_stack hfs₁ hnot hstep

/-- Where a task comes down to as many frames as it was in front of, it has come down to these. -/
theorem During.eq_of_length (above : List Frame) {fs : List Frame} (h : During t stack m m') (hm : m.Sound)
    (hfs : m.frames t = some (above ++ stack)) (hfs' : m'.frames t = some fs)
    (hlength : fs.length = stack.length) : fs = stack := by
  obtain ⟨above', heq⟩ := h.kept above hm hfs
  cases hfs'.symm.trans heq
  rw [List.length_append] at hlength
  rw [List.length_eq_zero_iff.mp (Nat.add_eq_right.mp hlength), List.nil_append]

/-- A run goes on while a task is at work in front of frames, unless it has come down to them. -/
theorem Steps.during (above : List Frame) (h : m.Steps m') (hm : m.Sound)
    (hfs : m.frames t = some (above ++ stack)) :
    During t stack m m' ∨ ∃ m₁, During t stack m m₁ ∧ m₁.Resumes t stack ∧ m₁.Steps m' := by
  induction h with
  | refl => exact .inl .refl
  | @tail m₁ m₂ _ hlast ih =>
      rcases ih with hduring | ⟨m₀, hduring, hresumes, hsteps⟩
      · by_cases hresumes : m₁.Resumes t stack
        · exact .inr ⟨m₁, hduring, hresumes, .single hlast⟩
        · exact .inl (hduring.tail ⟨hlast, hduring.kept above hm hfs, hresumes⟩)
      · exact .inr ⟨m₀, hduring, hresumes, hsteps.trans (.single hlast)⟩

/-- The number of frames of a task that has its turn. -/
def depth? (m : Machine) (t : TaskId) : Option Nat :=
  m.current.bind fun (u, c) => if u = t then some c.frames.length else none

theorem Resumes.depth? (h : m.Resumes t stack) : m.depth? t = some stack.length := by
  obtain ⟨c, hcurrent, rfl⟩ := h
  simp [Machine.depth?, hcurrent]

/-- A task is at work in front of frames as long as it does not come down to them. -/
theorem during_after (above : List Frame) (hm : m.Sound)
    (hfs : m.frames t = some (above ++ stack)) (n : Nat)
    (h : ∀ k < n, (after k m).depth? t ≠ some stack.length) : During t stack m (after n m) := by
  induction n generalizing m above with
  | zero => exact .refl
  | succ n ih =>
      have hnot : ¬m.Resumes t stack := fun hresumes =>
        h 0 (Nat.succ_pos n) hresumes.depth?
      unfold after
      cases hstep : m.step with
      | none => exact .refl
      | some m₁ =>
          obtain ⟨above', hfs'⟩ := hm.keeps_stack hfs hnot hstep
          refine .head ⟨hstep, ⟨above, hfs⟩, hnot⟩ (ih above' (hm.step hstep) hfs' ?_)
          intro k hk
          have hlater := h (k + 1) (Nat.succ_lt_succ hk)
          rwa [after, hstep] at hlater

end Machine

namespace TestSetup

variable {setup : TestSetup} {g : Generator} {m m' : Machine} {t : TaskId}

/-- A frame of a task was put above others by a step of the run, and neither it nor what is under it
was touched since. -/
inductive Pushed (setup : TestSetup) (g : Generator) (t : TaskId) (f : Frame) (rest : List Frame)
    (m : Machine) : Prop
  | intro {m₀ m₁ head stack turn new w' front under} (reach : setup.Reaches g m₀)
      (step : m₀.step = some m₁) (moves : m₀.Moves t head stack turn new w' m₁)
      (turn : turn.frames = front ++ f :: under) (under : rest = under ++ stack)
      (during : Machine.During t (f :: rest) m₁ m)

/-- Every frame was put where it is by a step, or is the one that its task began with. -/
theorem Reaches.pushed (h : setup.Reaches g m) (above : List Frame) {rest : List Frame} {f : Frame}
    (hfs : m.frames t = some (above ++ f :: rest)) : setup.Pushed g t f rest m ∨
      rest = [] ∧ ∃ work, f = .begin work ∧ work.opensTask = true := by
  induction h generalizing above with
  | refl =>
      rw [frames_machine] at hfs
      split at hfs
      · have heq := Option.some.inj hfs
        cases above with
        | nil =>
            obtain ⟨rfl, rfl⟩ := List.cons.inj heq
            exact .inr ⟨rfl, _, rfl, rfl⟩
        | cons a above => simp at heq
      · cases hfs
  | @tail m₁ m₂ hfirst hstep ih =>
      have hm : m₁.Sound := Reaches.sound hfirst
      have hlater (above' : List Frame) (hbefore : m₁.frames t = some (above' ++ f :: rest))
          (hlast : Machine.During t (f :: rest) m₁ m₂) : setup.Pushed g t f rest m₂ ∨
            rest = [] ∧ ∃ work, f = .begin work ∧ work.opensTask = true := by
        rcases ih above' hbefore with ⟨hreach, hfirst', hmoves, hturn, hrest, hduring⟩ | hbegin
        · exact .inl ⟨hreach, hfirst', hmoves, hturn, hrest, hduring.trans hlast⟩
        · exact .inr hbegin
      rcases hm.moves_or_rests hstep with ⟨u, head, stack, turn, new, w', hmoves⟩ | hrests
      · rcases hmoves.frames_cases hfs with ⟨rfl, heq⟩ | ⟨htu, hfs⟩ | ⟨-, hnew⟩
        · have hunder (above' : List Frame) (hstack : stack = above' ++ f :: rest) :=
            hlater (head.first :: above') (by rw [hmoves.before, hstack]; rfl)
              (hmoves.during hstack hstep)
          rcases List.append_eq_append_iff.mp heq with ⟨above', -, hstack⟩ | ⟨front, hturn, hrest⟩
          · exact hunder above' hstack
          · cases front with
            | nil => exact hunder [] hrest.symm
            | cons f' under =>
                obtain ⟨rfl, hunder⟩ := List.cons.inj hrest
                exact .inl ⟨hfirst, hstep, hmoves, hturn, hunder, .refl⟩
        · refine hlater above hfs (.single ⟨hstep, ⟨above, hfs⟩, ?_⟩)
          rintro ⟨c, hcurrent, -⟩
          rw [hmoves.current] at hcurrent
          exact htu (congrArg Prod.fst (Option.some.inj hcurrent)).symm
        · obtain ⟨work, hwork, hopens⟩ := hmoves.spawns.opensTask hnew
          cases above with
          | nil =>
              obtain ⟨rfl, rfl⟩ := List.cons.inj hwork
              exact .inr ⟨rfl, work, rfl, hopens⟩
          | cons a above => simp at hwork
      · rw [hrests.frames] at hfs
        refine hlater above hfs (.single ⟨hstep, ⟨above, hfs⟩, ?_⟩)
        rintro ⟨c, hcurrent, hframes⟩
        rcases hrests.before with hnone | ⟨v, o, hsome⟩
        · rw [hnone] at hcurrent
          cases hcurrent
        · cases hsome.symm.trans hcurrent
          cases hframes

/-- Work that is put off is what a task begins with. -/
theorem Reaches.begun (h : setup.Reaches g m) {o : Outcome} {work : Work} {rest : List Frame}
    (hcurrent : m.current = some (t, .outcome o (.begin work :: rest))) :
    rest = [] ∧ work.opensTask = true := by
  rcases h.pushed [] (Machine.frames_current hcurrent) with
    ⟨-, -, hmoves, hturn, hrest, hduring⟩ | ⟨hrest, work', hwork, hopens⟩
  · obtain ⟨work', rfl, hwork⟩ := hmoves.rule.isBegin hturn rfl
    cases hwork
    have hcall := hmoves.next
    have heq := hduring.eq_of_resumes ⟨_, hcall, by rw [hrest]; rfl⟩
    subst heq
    cases hcurrent.symm.trans hcall
  · cases hwork
    exact ⟨hrest, hopens⟩

/-- Work that a task does not begin with is called by the step that leads to it. -/
theorem Reaches.calls (h : setup.Reaches g m) (hstep : m.step = some m') {work : Work}
    {stack : List Frame} (hcurrent : m'.current = some (t, .work work stack))
    (hwork : work.opensTask = false) :
    ∃ head below frames new w', m.Moves t head below (.call work frames) new w' m' ∧
      stack = frames ++ below ∧ ∀ o, head ≠ .frame (.begin work) o := by
  rcases h.sound.moves_or_rests hstep with ⟨u, head, below, turn, new, w', hmoves⟩ | hrests
  · have hnext := hmoves.next.symm.trans hcurrent
    cases turn with
    | call work' frames =>
        cases hnext
        refine ⟨head, below, frames, new, w', hmoves, rfl, ?_⟩
        rintro o rfl
        rw [(h.begun hmoves.current).2] at hwork
        cases hwork
    | _ => cases hnext
  · obtain ⟨-, o, fs, hout⟩ := hrests.current _ _ hcurrent
    cases hout

/-- A test begins with its script. -/
theorem Reaches.cases_work (h : setup.Reaches g m) {work : Work} {stack : List Frame}
    (hcurrent : m.current = some (t, .work work stack)) (hwork : work.opensTask = false) :
    ∃ m₀, setup.Reaches g m₀ ∧ m₀.step = some m := by
  rcases h.cases_tail with rfl | ⟨m₀, hreach, hstep⟩
  · cases hcurrent
    cases hwork
  · exact ⟨m₀, hreach, hstep⟩

/-- Of two machines of a run, one comes after the other. -/
theorem Reaches.total (h : setup.Reaches g m) (h' : setup.Reaches g m') :
    m.Steps m' ∨ m'.Steps m := by
  refine Relation.ReflTransGen.total_of_right_unique ?_ h h'
  intro m₀ m₁ m₂ h₁ h₂
  exact Option.some.inj (h₁.symm.trans h₂)

end TestSetup

end HotSpec
