import HotSpec.Proofs.Engine.Returns
import HotSpec.Proofs.Expectation.Flush

/-!
# Expectations are asserted on their own files

An expectation that is taken from the pending ones is asserted on the files of its label: they are
written after it was taken, and the write is over before the assertion begins.  One label may go
without the write, as the page was loaded with its files: the initial one, if it is the first when
the page is ready.  What is pending may change while the page is being loaded, and commands that
assert what is pending may be nested or run at the same time; none of this matters.

Main definitions:

- `Machine.asserting?`: the label whose assertion begins.
- `TestSetup.Wrote`: an assertion that begins after a write of its own.
- `TestSetup.Opening`: an assertion that begins on the files that the page was loaded with.

Main results:

- Theorem `Rule.orderly`: without a write, nothing is asserted beyond the label that was asked for.
- Theorem `Reaches.inPage_unique`: the page is ready at one point of a run at most.
- Theorem `files_before_assertion`: whenever an assertion begins, it is one of the two.
-/

namespace HotSpec

/-! ## Frames of a drain -/

/-- Whether a frame that goes on without writing has come to its last label. -/
def Frame.isOrderly : Frame → Bool
  | .written _ already _ _ => !already
  | .asserted until? already label => !already || until? = some label
  | _ => true

variable {head : Head} {w w' : World} {turn : Turn}

theorem Calls.orderly {frames : List Frame} (h : Calls head frames) :
    ∀ f ∈ frames, f.isOrderly = true := by
  cases h with
  | opened h => cases h <;> simp [Frame.isOrderly]
  | _ => simp [Frame.isOrderly]

theorem Commands.orderly {phase : Phase} {c : Command} {frames : List Frame}
    (h : Commands phase c frames) : ∀ f ∈ frames, f.isOrderly = true := by
  cases h <;> simp [Frame.isOrderly]

/-- Without a write, nothing is asserted beyond the label that was asked for, if that is the first
one that is pending. -/
theorem Rule.orderly (h : Rule head w turn w') (hfirst : head.first.isOrderly = true)
    (hdrain : ∀ until? last label e queue, head = .work (.drain until? true last) →
      w.session.pending = some ((label, e) :: queue) → until? = some label) :
    ∀ f ∈ turn.frames, f.isOrderly = true := by
  cases h with
  | asks h => cases h <;> simp [Turn.frames, Frame.isOrderly]
  | call hcall h => exact hcall.orderly
  | commanded hp hy hcall h => exact hcall.orderly
  | @resume p g reply adv _ _ h =>
      unfold resumed
      split <;> simp [Turn.reply, Turn.frames, Frame.isOrderly]
  | ready hlabel h => cases h <;> simp [Turn.frames, Frame.isOrderly]
  | @popped until? last label e queue _ h =>
      simpa [Turn.frames, Frame.isOrderly] using hdrain until? last label e queue rfl h
  | @written until? already label e v _ =>
      have hnot : already = false := by simpa [Head.first, Frame.isOrderly] using hfirst
      simp [Turn.frames, Frame.isOrderly, hnot]
  | _ => simp [Turn.frames, Turn.done, Move.lastLabel, Frame.isOrderly]

/-! ## What work was called by -/

/-- What calls a drain that does not write: the page that is ready, or the assertion of a label that
was not the last one. -/
theorem Rule.calls_drain {until? last : Option String} {frames : List Frame}
    (h : Rule head w turn w') (hturn : turn = .call (.drain until? true last) frames)
    (hbegin : ∀ o, head ≠ .frame (.begin (.drain until? true last)) o) :
    (∃ first label, head = .work (.inPage first) ∧ until? = some label ∧
      last = none ∧ w.session.initLabel = some label ∧ frames = [.opened first] ∧
      w' = w.record .ready ∧
      ∀ first queue, w.session.pending = some (first :: queue) → first.1 = label) ∨
    ∃ label v, head = .frame (.asserted until? true label) (.value v) ∧ until? ≠ some label := by
  cases h with
  | asks h => cases h <;> cases hturn
  | call hcall h =>
      cases hturn
      cases hcall with
      | begin => exact absurd rfl (hbegin _)
      | opened h => cases h
  | @resume p g reply adv _ _ h =>
      rcases resumed_cases p g adv with ⟨reply, heq⟩ | heq | ⟨y, heq⟩ <;>
      · rw [heq] at hturn
        cases hturn
  | commanded hp hy hcall h =>
      cases hturn
      cases hcall
  | ready hlabel h =>
      cases hturn
      cases h
  | @checked first label _ hlabel h =>
      cases hturn
      exact .inl ⟨first, label, rfl, rfl, rfl, hlabel, rfl, rfl, h⟩
  | assertedNext h =>
      cases hturn
      exact .inr ⟨_, _, rfl, h⟩
  | _ => cases hturn

/-- No stage of an assertion comes before the first one. -/
theorem ne_before_of_nextStage {e : Expectation} {stage stage' : Stage}
    (h : Move.nextStage e stage = some stage') : stage' ≠ .before := by
  cases stage with
  | after => cases h
  | before | step i =>
      rw [← Option.some.inj h]
      split <;> simp

/-- What calls the assertion of an expectation: a drain that does not write, or one that has
written. -/
theorem Rule.calls_verify {label : String} {e : Expectation} {frames : List Frame}
    (h : Rule head w turn w') (hturn : turn = .call (.verify label e .before) frames)
    (hbegin : ∀ o, head ≠ .frame (.begin (.verify label e .before)) o) :
    (∃ until? last queue, head = .work (.drain until? true last) ∧
      w.session.pending = some ((label, e) :: queue) ∧ frames = [.asserted until? true label]) ∨
    ∃ until? already v, head = .frame (.written until? already label e) (.value v) ∧
      frames = [.asserted until? already label] := by
  cases h with
  | asks h => cases h <;> cases hturn
  | call hcall h =>
      cases hturn
      cases hcall with
      | begin => exact absurd rfl (hbegin _)
      | opened h => cases h
      | verifyNext hstage h => exact absurd rfl (ne_before_of_nextStage h)
      | verified h => exact absurd rfl (ne_before_of_nextStage h)
  | @resume p g reply adv _ _ h =>
      rcases resumed_cases p g adv with ⟨reply, heq⟩ | heq | ⟨y, heq⟩ <;>
      · rw [heq] at hturn
        cases hturn
  | commanded hp hy hcall h =>
      cases hturn
      cases hcall
  | ready hlabel h =>
      cases hturn
      cases h
  | @popped until? last label e queue _ h =>
      cases hturn
      exact .inl ⟨until?, last, queue, rfl, h, rfl⟩
  | @written until? already label e v _ =>
      cases hturn
      exact .inr ⟨until?, already, v, rfl, rfl⟩
  | verify h =>
      cases hturn
      exact absurd rfl (ne_before_of_nextStage h)
  | _ => cases hturn

/-- The frame of a write is put by a drain that has taken the label. -/
theorem Rule.puts_written {until? : Option String} {already : Bool} {label : String}
    {e : Expectation} {front under : List Frame} (h : Rule head w turn w')
    (hturn : turn.frames = front ++ .written until? already label e :: under) :
    ∃ last queue, head = .work (.drain until? false last) ∧
      w.session.pending = some ((label, e) :: queue) ∧ already = false ∧ under = [] ∧
      turn = .call (.write (w.labelFiles label)) [.written until? false label e] ∧
      w' = (w.popping label queue).record (.writing label) := by
  have hmem : .written until? already label e ∈ turn.frames := by
    rw [hturn]
    simp
  have hnone (hframes : ∀ f ∈ turn.frames, f.label? = none) : False := by
    cases hframes _ hmem
  cases h with
  | asks h => exact (hnone h.label?).elim
  | call hcall h => exact (hnone hcall.label?).elim
  | @resume p g reply adv _ _ h =>
      rcases resumed_cases p g adv with ⟨reply, heq⟩ | heq | ⟨y, heq⟩ <;>
      · rw [heq] at hmem
        simp [Turn.frames, Turn.reply] at hmem
  | commanded hp hy hcall h => exact (hnone hcall.label?).elim
  | ready hlabel h => cases h <;> simp [Turn.frames] at hmem
  | @writing until? last label e queue _ h =>
      cases front with
      | nil => cases (List.cons.inj hturn).1
      | cons f front =>
          cases front with
          | nil =>
              obtain ⟨hframe, hunder⟩ := List.cons.inj (List.cons.inj hturn).2
              cases hframe
              exact ⟨last, queue, rfl, h, rfl, hunder.symm, rfl, rfl⟩
          | cons f' front => simp [Turn.frames] at hturn
  | _ => simp [Turn.frames, Turn.done, Move.lastLabel] at hmem

/-- A page that is ready is told of. -/
theorem Rule.tells_ready {first : Option Command} (h : Rule (.work (.inPage first)) w turn w') :
    .ready ∈ w'.events := by
  have hmem (w₁ : World) : Event.ready ∈ (w₁.record .ready).events := by
    simp [World.events, World.record]
  cases h with
  | asks h => cases h
  | reply r hhead => cases hhead
  | call hcall => cases hcall
  | ready | checked | unchecked => exact hmem w

namespace Machine

/-- The label whose assertion begins. -/
def asserting? (m : Machine) : Option String :=
  match m.current with
  | some (_, .work (.verify label _ .before) _) => some label
  | _ => none

theorem asserting?_eq_some_iff {m : Machine} {label : String} :
    m.asserting? = some label ↔
      ∃ t e stack, m.current = some (t, .work (.verify label e .before) stack) := by
  unfold asserting?
  constructor
  · split
    · next t l e stack hcurrent =>
        rintro ⟨⟩
        exact ⟨t, e, stack, hcurrent⟩
    · rintro ⟨⟩
  · rintro ⟨t, e, stack, hcurrent⟩
    rw [hcurrent]

/-- The page is not handed over again once it was ready. -/
theorem Loads.not_inPage {m : Machine} {load : FutureId} {t : TaskId} {first : Option Command}
    {stack : List Frame} (h : m.Loads load) (hready : .ready ∈ m.world.events) :
    m.current ≠ some (t, .work (.inPage first) stack) := by
  intro hcurrent
  have hfs : m.frames t = some (.begin (.inPage first) :: stack) := frames_current hcurrent
  have hmany : handsOf (.begin (.inPage first) :: stack) ≠ 0 := by
    rw [handsOf_cons]
    exact Nat.ne_of_gt (Nat.lt_of_lt_of_le Nat.one_pos (Nat.le_add_right _ _))
  by_cases ht : t = 1
  · subst ht
    cases h.loading with
    | before _ _ hnot => exact hnot hready
    | owing hframes _ hnone | dry hframes hnone =>
        cases hfs.symm.trans hframes
        exact hmany hnone
    | failing hout =>
        rw [hcurrent] at hout
        cases hout
    | failed houtcome =>
        rw [h.opened _ _ hfs] at houtcome
        cases houtcome
  · exact hmany (h.others t ht _ hfs)

end Machine

namespace TestSetup

variable {setup : TestSetup} {g : Generator} {m m' : Machine} {label : String}

/-- An assertion begins after a write of its own: a drain has taken the label and called for a write
of its files, the write has come to a value, and with this the assertion begins. -/
inductive Wrote (setup : TestSetup) (g : Generator) (label : String) (m : Machine) : Prop
  | intro {t until? last e queue v stack m₀ m₁ m₂} (reach : setup.Reaches g m₀)
      (drains : m₀.current = some (t, .work (.drain until? false last) stack))
      (first : m₀.world.session.pending = some ((label, e) :: queue))
      (takes : m₀.step = some m₁) (taken : m₁.world.session.pending = some queue)
      (writes : m₁.current = some (t, .work (.write (m₀.world.labelFiles label))
        (.written until? false label e :: stack)))
      (during : Machine.During t (.written until? false label e :: stack) m₁ m₂)
      (wrote : m₂.current =
        some (t, .outcome (.value v) (.written until? false label e :: stack)))
      (begins : m₂.step = some m)
      (asserts : m.current = some (t, .work (.verify label e .before)
        (.asserted until? false label :: stack)))

/-- A drain without a write begins: the page was ready, with an initial label that was the first one
that was pending, if any was. -/
inductive Readied (setup : TestSetup) (g : Generator) (label : String) (m : Machine) : Prop
  | intro {t first stack m₀} (reach : setup.Reaches g m₀)
      (ready : m₀.current = some (t, .work (.inPage first) stack))
      (initial : m₀.world.session.initLabel = some label)
      (head : ∀ first queue, m₀.world.session.pending = some (first :: queue) → first.1 = label)
      (step : m₀.step = some m) (pending : m.world.session.pending = m₀.world.session.pending)
      (drains : m.current = some (t, .work (.drain (some label) true none) (.opened first :: stack)))

/-- An assertion begins on the files that the page was loaded with: the page was ready, the label was
the initial one and the first that was pending, and it was taken at once. -/
inductive Opening (setup : TestSetup) (g : Generator) (label : String) (m : Machine) : Prop
  | intro {t first e queue stack m₀ m₁} (reach : setup.Reaches g m₀)
      (ready : m₀.current = some (t, .work (.inPage first) stack))
      (initial : m₀.world.session.initLabel = some label)
      (head : m₀.world.session.pending = some ((label, e) :: queue)) (step : m₀.step = some m₁)
      (drains : m₁.current =
        some (t, .work (.drain (some label) true none) (.opened first :: stack)))
      (takes : m₁.step = some m)
      (asserts : m.current = some (t, .work (.verify label e .before)
        (.asserted (some label) true label :: .opened first :: stack)))

/-- Without a write, nothing is asserted beyond the initial label. -/
structure Ordered (setup : TestSetup) (g : Generator) (m : Machine) : Prop where
  frames : ∀ t fs, m.frames t = some fs → ∀ f ∈ fs, f.isOrderly = true
  drain : ∀ t until? last stack, m.current = some (t, .work (.drain until? true last) stack) →
    ∃ label, until? = some label ∧ setup.Readied g label m

theorem Ordered.step (h : setup.Ordered g m) (hreach : setup.Reaches g m)
    (hstep : m.step = some m') : setup.Ordered g m' := by
  have hm : m.Sound := hreach.sound
  refine ⟨?_, ?_⟩
  · intro u fs hfs f hf
    rcases hm.moves_or_rests hstep with ⟨t, head, stack, turn, new, w', hmoves⟩ | hrests
    · have hturn := hmoves.rule.orderly (h.frames t _ hmoves.before _ (List.mem_cons_self ..)) (by
        rintro until? last label e queue rfl hpending
        obtain ⟨label', huntil, -, -, -, hhead, -, hsame, -⟩ :=
          h.drain t until? last stack hmoves.current
        rw [hsame] at hpending
        rw [huntil, ← hhead _ _ hpending])
      rcases hmoves.mem_frames hfs hf with ⟨-, hf⟩ | ⟨fs, hfs, hf⟩ | ⟨work, rfl, -⟩
      · exact hturn f hf
      · exact h.frames u fs hfs f hf
      · rfl
    · rw [hrests.frames] at hfs
      exact h.frames u fs hfs f hf
  · intro t until? last stack hcurrent
    obtain ⟨head, below, frames, new, w', hmoves, rfl, hbegin⟩ :=
      hreach.calls hstep hcurrent rfl
    rcases hmoves.rule.calls_drain rfl hbegin with
      ⟨first, label, rfl, huntil, hlast, hinitial, hframes, hworld, hhead⟩ | ⟨label, v, rfl, hnot⟩
    · refine ⟨label, huntil, hreach, hmoves.current, hinitial, hhead, hstep, ?_, ?_⟩
      · rw [hmoves.session, hworld]
        rfl
      · rw [hcurrent, huntil, hlast, hframes]
        rfl
    · have horder := h.frames t _ hmoves.before _ (List.mem_cons_self ..)
      exact absurd (by simpa [Frame.isOrderly, Head.first] using horder) hnot

theorem Reaches.ordered (h : setup.Reaches g m) : setup.Ordered g m := by
  induction h with
  | refl =>
      refine ⟨?_, ?_⟩
      · intro t fs hfs f hf
        rw [frames_machine] at hfs
        split at hfs
        · cases hfs
          rw [List.mem_singleton.mp hf]
          rfl
        · cases hfs
      · intro t until? last stack hcurrent
        cases hcurrent
  | tail hfirst hlast ih => exact ih.step hfirst hlast

/-- The frame of a write was put by a drain that has taken the label and called for its files. -/
theorem Reaches.writing {t : TaskId} {until? : Option String} {already : Bool} {e : Expectation}
    {stack : List Frame} (h : setup.Reaches g m) (above : List Frame)
    (hfs : m.frames t = some (above ++ .written until? already label e :: stack)) :
    ∃ last queue m₀ m₁, setup.Reaches g m₀ ∧
      m₀.current = some (t, .work (.drain until? false last) stack) ∧
      m₀.world.session.pending = some ((label, e) :: queue) ∧ m₀.step = some m₁ ∧
      m₁.world.session.pending = some queue ∧ already = false ∧
      m₁.current = some (t, .work (.write (m₀.world.labelFiles label))
        (.written until? false label e :: stack)) ∧
      Machine.During t (.written until? already label e :: stack) m₁ m := by
  rcases h.pushed above hfs with ⟨hreach, hstep, hmoves, hturn, hunder, hduring⟩ | ⟨-, work, heq, -⟩
  · obtain ⟨last, queue, rfl, hpending, hnot, rfl, rfl, hworld⟩ := hmoves.rule.puts_written hturn
    subst hunder
    refine ⟨last, queue, _, _, hreach, hmoves.current, hpending, hstep, ?_, hnot, ?_, hduring⟩
    · rw [hmoves.session, hworld]
      rfl
    · rw [hmoves.next]
      rfl
  · cases heq

/-- Whenever an assertion begins, it does so after a write of its own, or on the files that the page
was loaded with. -/
theorem Reaches.wrote_or_opening (h : setup.Reaches g m) (hlabel : m.asserting? = some label) :
    setup.Wrote g label m ∨ setup.Opening g label m := by
  obtain ⟨t, e, stack, hcurrent⟩ := Machine.asserting?_eq_some_iff.mp hlabel
  obtain ⟨m₂, hreach, hstep⟩ := h.cases_work hcurrent rfl
  obtain ⟨head, below, frames, new, w', hmoves, rfl, hbegin⟩ := hreach.calls hstep hcurrent rfl
  rcases hmoves.rule.calls_verify rfl hbegin with
    ⟨until?, last, queue, rfl, hpending, rfl⟩ | ⟨until?, already, v, rfl, rfl⟩
  · obtain ⟨label', rfl, hreach₀, hready, hinitial, hhead, hstep₀, hsame, hdrains⟩ :=
      hreach.ordered.drain t until? last below hmoves.current
    rw [hsame] at hpending
    obtain rfl := hhead _ _ hpending
    cases hdrains.symm.trans hmoves.current
    exact .inr ⟨hreach₀, hready, hinitial, hpending, hstep₀, hdrains, hstep, hcurrent⟩
  · obtain ⟨last, queue, m₀, m₁, hreach₀, hdrains, hpending, hstep₀, htaken, rfl, hwrites, hduring⟩ :=
      hreach.writing [] hmoves.before
    exact .inl ⟨hreach₀, hdrains, hpending, hstep₀, htaken, hwrites, hduring, hmoves.current, hstep,
      hcurrent⟩

/-- The page is ready at one point of a run at most. -/
theorem Reaches.inPage_unique (h : setup.Reaches g m) (h' : setup.Reaches g m') {t t' : TaskId}
    {first first' : Option Command} {stack stack' : List Frame}
    (hcurrent : m.current = some (t, .work (.inPage first) stack))
    (hcurrent' : m'.current = some (t', .work (.inPage first') stack')) : m' = m := by
  have hlater {m m' : Machine} {t t' : TaskId} {first first' : Option Command}
      {stack stack' : List Frame} (h : setup.Reaches g m) (h' : setup.Reaches g m')
      (hcurrent : m.current = some (t, .work (.inPage first) stack))
      (hcurrent' : m'.current = some (t', .work (.inPage first') stack'))
      (hsteps : m.Steps m') : m' = m := by
    rcases hsteps.cases_head with heq | ⟨m₁, hstep, hrest⟩
    · exact heq.symm
    · have hready : .ready ∈ m₁.world.events := by
        rcases h.sound.moves_or_rests hstep with ⟨u, head, fs, turn, new, w', hmoves⟩ | hrests
        · have heq := hmoves.current.symm.trans hcurrent
          cases head with
          | frame f o => cases heq
          | work work =>
              cases heq
              rw [World.events, hmoves.history]
              exact hmoves.rule.tells_ready
        · rcases hrests.before with hnone | ⟨u, o, hsome⟩
          · cases hnone.symm.trans hcurrent
          · cases hsome.symm.trans hcurrent
      have hevents := Machine.Steps.events_mono (h.sound.step hstep) hrest hready
      rcases h'.racing with hprep | ⟨load, members, -, hloads, -⟩
      · exact absurd hevents hprep.fresh.1
      · exact absurd hcurrent' (hloads.not_inPage hevents)
  rcases h.total h' with hsteps | hsteps
  · exact hlater h h' hcurrent hcurrent' hsteps
  · exact (hlater h' h hcurrent' hcurrent hsteps).symm

/-- An assertion on the files that the page was loaded with begins at one point of a run at most. -/
theorem Opening.unique {label' : String} (h : setup.Opening g label m)
    (h' : setup.Opening g label' m') : m' = m := by
  obtain ⟨hreach, hready, -, -, hstep, -, htakes, -⟩ := h
  obtain ⟨hreach', hready', -, -, hstep', -, htakes', -⟩ := h'
  cases hreach.inPage_unique hreach' hready hready'
  cases hstep.symm.trans hstep'
  cases htakes.symm.trans htakes'
  rfl

end TestSetup

/-! ## Runs -/

variable {setup : TestSetup} {g : Generator} {m : Machine} {label : String}

/-- Whenever the assertion of a label begins, a drain has taken the label, has written its files, and
the write has come to a value; or the label is the initial one, it was the first that was pending
when the page was ready, and its assertion is the only one of the run without such a write. -/
theorem files_before_assertion (h : setup.Reaches g m) (hlabel : m.asserting? = some label) :
    setup.Wrote g label m ∨ setup.Opening g label m ∧
      ∀ m' label', setup.Reaches g m' → m'.asserting? = some label' →
        setup.Wrote g label' m' ∨ m' = m ∧ label' = label := by
  rcases h.wrote_or_opening hlabel with hwrote | hopening
  · exact .inl hwrote
  · refine .inr ⟨hopening, ?_⟩
    intro m' label' h' hlabel'
    rcases h'.wrote_or_opening hlabel' with hwrote | hopening'
    · exact .inl hwrote
    · have heq := hopening.unique hopening'
      subst heq
      exact .inr ⟨rfl, Option.some.inj (hlabel'.symm.trans hlabel)⟩

/-- A script with two labels, the first of which is the initial one. -/
def initScript : Script :=
  let ask (r : Request) : Instr := .ask r false none
  let idle : Value := .callback ⟨"idle", [], none, none, .nothing⟩
  [ask (.init (.text "a")), ask (.hook false (.text "a") idle), ask (.hook false (.text "b") idle)]

/-- Whether a machine asserts a label in a drain that does not write. -/
private def assertsDry (m : Machine) : Bool :=
  match m.current with
  | some (_, .work _ (.asserted _ already _ :: _)) => already
  | _ => false

/-- The initial label is asserted on the files that the page was loaded with, and the other one after
a write of its own. -/
theorem files_before_assertion_init :
    TestSetup.plain.Opening ⟨"script", .nothing, .before 0 initScript⟩ "a"
        (TestSetup.plainRun initScript 27) ∧
      TestSetup.plain.Wrote ⟨"script", .nothing, .before 0 initScript⟩ "b"
        (TestSetup.plainRun initScript 41) := by
  have hfirst : (TestSetup.plainRun initScript 27).asserting? = some "a" := by decide +kernel
  have hsecond : (TestSetup.plainRun initScript 41).asserting? = some "b" := by decide +kernel
  -- The first assertion is one of a drain that does not write.
  have hdry : assertsDry (TestSetup.plainRun initScript 27) = true := by decide +kernel
  rcases files_before_assertion (TestSetup.reaches_plainRun initScript 27) hfirst with
    ⟨-, -, -, -, -, -, -, -, -, hasserts⟩ | ⟨hopening, honly⟩
  · rw [assertsDry, hasserts] at hdry
    cases hdry
  · refine ⟨hopening, ?_⟩
    rcases honly _ _ (TestSetup.reaches_plainRun initScript 41) hsecond with hwrote | ⟨-, heq⟩
    · exact hwrote
    · exact absurd heq (by decide)

end HotSpec
