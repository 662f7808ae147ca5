import HotSpec.Proofs.Expectation.Written

/-!
# Changes to a label

A command that changes to a label asserts what is pending up to it.  It stops there if it takes the
label itself.  If the label is taken by another command in the meantime, as by one that an assertion
on the way asks for, nothing stops it any more: it comes to a value only when nothing is pending.

Main definitions:

- `Machine.Changes`: a change to a label, from its beginning until it has asserted what is pending.
- `Machine.Takes`: whether a change takes its label itself.

Main results:

- Theorem `Reaches.pending_suffix`: what is pending is only ever taken from the front, or dropped.
- Theorem `Changes.takes_or_dry`: a change takes its label, or leaves nothing pending.
- Theorem `change_stops`: a change that takes its label has all labels after it pending then.
-/

namespace HotSpec

/-! ## What a drain does -/

variable {w w' : World} {turn : Turn} {until? : Option String} {already : Bool}

/-- A drain that writes takes the first label and calls for its files, or is over. -/
theorem Rule.of_drain {last : Option String}
    (h : Rule (.work (.drain until? false last)) w turn w') :
    ((w.session.pending = none ∨ w.session.pending = some []) ∧ turn = Move.lastLabel last ∧
      w' = w) ∨
    ∃ label e queue, w.session.pending = some ((label, e) :: queue) ∧
      turn = .call (.write (w.labelFiles label)) [.written until? false label e] ∧
      w'.session.pending = some queue := by
  cases h with
  | asks h => cases h
  | reply r hhead => cases hhead
  | call hcall => cases hcall
  | drained h => exact .inl ⟨h, rfl, rfl⟩
  | writing h => exact .inr ⟨_, _, _, h, rfl, rfl⟩

/-- A write that has come to a value is followed by the assertion. -/
theorem Rule.of_written {label : String} {e : Expectation} {o : Outcome}
    (h : Rule (.frame (.written until? already label e) o) w turn w') :
    turn = .call (.verify label e .before) [.asserted until? already label] ∨
      turn = .give o ∧ o.isValue = false := by
  cases h with
  | asks h => cases h
  | reply r hhead => cases hhead
  | call hcall => cases hcall
  | pass hf =>
      cases o with
      | value v => cases hf
      | _ => exact .inr ⟨rfl, rfl⟩
  | written => exact .inl rfl

/-- An assertion that has come to a value ends the drain at its last label, and is followed by the
next one at any other. -/
theorem Rule.of_asserted {label : String} {o : Outcome}
    (h : Rule (.frame (.asserted until? already label) o) w turn w') :
    (until? = some label ∧ turn = Move.lastLabel (some label)) ∨
      (until? ≠ some label ∧ turn = .call (.drain until? already (some label)) []) ∨
      turn = .give o ∧ o.isValue = false := by
  cases h with
  | asks h => cases h
  | reply r hhead => cases hhead
  | call hcall => cases hcall
  | pass hf => cases hf
  | assertedLast => exact .inl ⟨rfl, rfl⟩
  | assertedNext h => exact .inr (.inl ⟨h, rfl⟩)
  | assertedNot h =>
      refine .inr (.inr ⟨rfl, ?_⟩)
      cases o with
      | value v => exact absurd rfl (h v)
      | _ => rfl

/-- Whether a frame waits for the drain of a change. -/
def Frame.isChanged : Frame → Bool
  | .changed _ => true
  | _ => false

/-- The frame of a change is put by a command, which calls for the drain. -/
theorem Rule.puts_changed {head : Head} {label : String} {front under : List Frame}
    (h : Rule head w turn w') (hturn : turn.frames = front ++ .changed label :: under) :
    turn = .call (.drain (some label) false none) [.changed label] ∧ under = [] := by
  have hmem : .changed label ∈ turn.frames := by
    rw [hturn]
    simp
  have hnone (hframes : ∀ f ∈ turn.frames, f.isChanged = false) : False := by
    cases hframes _ hmem
  cases h with
  | asks h => exact (hnone (by cases h <;> simp [Turn.frames, Frame.isChanged])).elim
  | call hcall h =>
      refine (hnone ?_).elim
      cases hcall with
      | opened h => cases h <;> simp [Turn.frames, Frame.isChanged]
      | _ => simp [Turn.frames, Frame.isChanged]
  | @resume p g reply adv _ _ h =>
      rcases resumed_cases p g adv with ⟨reply, heq⟩ | heq | ⟨y, heq⟩ <;>
      · rw [heq] at hmem
        simp [Turn.frames, Turn.reply] at hmem
  | commanded hp hy hcall h =>
      cases hcall with
      | @change l =>
          cases front with
          | nil => cases (List.cons.inj hturn).1
          | cons f front =>
              cases front with
              | nil =>
                  obtain ⟨hframe, hunder⟩ := List.cons.inj (List.cons.inj hturn).2
                  cases hframe
                  exact ⟨rfl, hunder.symm⟩
              | cons f' front => simp [Turn.frames] at hturn
      | _ => exact (hnone (by simp [Turn.frames, Frame.isChanged])).elim
  | ready hlabel h => exact (hnone (by cases h <;> simp [Turn.frames, Frame.isChanged])).elim
  | _ => exact (hnone (by simp [Turn.frames, Turn.done, Move.lastLabel, Frame.isChanged])).elim

/-! ## Changes -/

namespace Machine

/-- A change to a label: its drain begins at a machine, and has come to a value at another one. -/
structure Changes (m m' : Machine) (t : TaskId) (label : String) (stack : List Frame) (v : Value) :
    Prop where
  begins : m.current = some (t, .work (.drain (some label) false none) (.changed label :: stack))
  during : During t (.changed label :: stack) m m'
  ends : m'.current = some (t, .outcome (.value v) (.changed label :: stack))

/-- A drain takes the label that it stops at, at one machine, and calls for its files at the next. -/
structure TakesAt (m m' : Machine) (t : TaskId) (label : String) (stack : List Frame)
    (queue : List (String × Expectation)) : Prop where
  drains : ∃ last, m.current = some (t, .work (.drain (some label) false last) stack)
  first : ∃ e, m.world.session.pending = some ((label, e) :: queue)
  step : m.step = some m'
  writes : ∃ e, m'.current =
    some (t, .work (.write (m.world.labelFiles label)) (.written (some label) false label e :: stack))
  pending : m'.world.session.pending = some queue

/-- Between two machines, a drain takes the label that it stops at. -/
def Takes (m m' : Machine) (t : TaskId) (label : String) (stack : List Frame) : Prop :=
  ∃ m₁ m₂ queue, m.Steps m₁ ∧ m₁.TakesAt m₂ t label stack queue ∧ m₂.Steps m'

/-- How far a drain up to a label is since it has begun. -/
inductive Draining (m₀ : Machine) (t : TaskId) (label : String) (stack : List Frame) (m : Machine) :
    Prop
  | drain {last} (hcurrent : m.current = some (t, .work (.drain (some label) false last) stack))
      (hlast : last ≠ some label)
  | writing {l e} (above : List Frame)
      (hframes : m.frames t = some (above ++ .written (some label) false l e :: stack))
      (htaken : l = label → m₀.Takes m t label stack)
  | asserting {l} (above : List Frame)
      (hframes : m.frames t = some (above ++ .asserted (some label) false l :: stack))
      (htaken : l = label → m₀.Takes m t label stack)
  | ended {o} (hcurrent : m.current = some (t, .outcome o stack))
      (hvalue : ∀ v, o = .value v → v = .text label ∧ m₀.Takes m t label stack ∨
        v ≠ .text label ∧
          (m.world.session.pending = none ∨ m.world.session.pending = some []))

variable {m₀ m m' : Machine} {t : TaskId} {label : String} {stack : List Frame}

theorem Takes.step (h : m₀.Takes m t label stack) (hstep : m.step = some m') :
    m₀.Takes m' t label stack := by
  obtain ⟨m₁, m₂, queue, hbefore, htakes, hafter⟩ := h
  exact ⟨m₁, m₂, queue, hbefore, htakes, hafter.trans (.single hstep)⟩

/-- A step of the task that drains. -/
theorem Draining.moves {head : Head} {turn : Turn} {new : List (List Frame)} {w' : World}
    {below : List Frame} (h : m₀.Draining t label stack m) (hbefore : m₀.Steps m)
    (hstep : m.step = some m') (hmoves : m.Moves t head below turn new w' m')
    (hnot : ¬m.Resumes t stack) : m₀.Draining t label stack m' := by
  have hframes : m'.frames t = some (turn.frames ++ below) := by
    rw [hmoves.frames_self]
  -- What is above the frame of the drain goes on by itself.
  have hsplit {f : Frame} {above : List Frame} (hfs : m.frames t = some (above ++ f :: stack)) :
      (∃ above', m'.frames t = some (above' ++ f :: stack)) ∨ head.first = f ∧ below = stack := by
    have heq := Option.some.inj (hmoves.before.symm.trans hfs)
    cases above with
    | nil => exact .inr (List.cons.inj heq)
    | cons a above =>
        refine .inl ⟨turn.frames ++ above, ?_⟩
        rw [hframes, (List.cons.inj heq).2, List.append_assoc]
        rfl
  have hgiven {o : Outcome} (hturn : turn = .give o) (hbelow : below = stack) :
      m'.current = some (t, .outcome o stack) := by
    rw [hmoves.next, hturn, hbelow]
    rfl
  have hfailed {o : Outcome} (ho : o.isValue = false) (hturn : turn = .give o)
      (hbelow : below = stack) : m₀.Draining t label stack m' := by
    refine .ended (hgiven hturn hbelow) ?_
    rintro v rfl
    cases ho
  cases h with
  | ended hcurrent => exact absurd ⟨_, hcurrent, rfl⟩ hnot
  | @drain last hcurrent hlast =>
      have heq := hmoves.current.symm.trans hcurrent
      cases head with
      | frame f o => cases heq
      | work work =>
          cases heq
          rcases hmoves.rule.of_drain with ⟨hdry, rfl, rfl⟩ | ⟨l, e, queue, hpending, rfl, hqueue⟩
          · refine .ended (hgiven rfl rfl) ?_
            intro v hv
            refine .inr ⟨?_, by rw [hmoves.session]; exact hdry⟩
            rintro rfl
            cases last with
            | none => cases hv
            | some l =>
                cases hv
                exact hlast rfl
          · refine .writing [.begin (.write (m.world.labelFiles l))] hframes ?_
            rintro rfl
            refine ⟨m, m', queue, hbefore, ⟨⟨last, hcurrent⟩, ⟨e, hpending⟩, hstep, ⟨e, ?_⟩, ?_⟩,
              .refl m'⟩
            · rw [hmoves.next]
              rfl
            · rw [hmoves.session]
              exact hqueue
  | @writing l e above hfs htaken =>
      rcases hsplit hfs with ⟨above', hfs'⟩ | ⟨hfirst, hbelow⟩
      · exact .writing above' hfs' fun hl => (htaken hl).step hstep
      · cases head with
        | work work => cases hfirst
        | frame f o =>
            cases hfirst
            rcases hmoves.rule.of_written with rfl | ⟨hturn, ho⟩
            · subst hbelow
              exact .asserting [.begin (.verify l e .before)] hframes
                fun hl => (htaken hl).step hstep
            · exact hfailed ho hturn hbelow
  | @asserting l above hfs htaken =>
      rcases hsplit hfs with ⟨above', hfs'⟩ | ⟨hfirst, hbelow⟩
      · exact .asserting above' hfs' fun hl => (htaken hl).step hstep
      · cases head with
        | work work => cases hfirst
        | frame f o =>
            cases hfirst
            rcases hmoves.rule.of_asserted with ⟨hl, hturn⟩ | ⟨hl, rfl⟩ | ⟨hturn, ho⟩
            · cases hl
              refine .ended (hgiven hturn hbelow) ?_
              rintro v ⟨⟩
              exact .inl ⟨rfl, (htaken rfl).step hstep⟩
            · subst hbelow
              exact .drain hmoves.next (Ne.symm hl)
            · exact hfailed ho hturn hbelow

/-- A step of a machine in which a drain is on its way. -/
theorem Draining.step (h : m₀.Draining t label stack m) (hm : m.Sound) (hbefore : m₀.Steps m)
    (hstep : m.step = some m') (hnot : ¬m.Resumes t stack) : m₀.Draining t label stack m' := by
  rcases hm.moves_or_rests hstep with ⟨u, head, below, turn, new, w', hmoves⟩ | hrests
  · by_cases hut : u = t
    · subst hut
      exact h.moves hbefore hstep hmoves hnot
    · have hcurrent (c : Control) : m.current ≠ some (t, c) := by
        rw [hmoves.current]
        intro heq
        exact hut (congrArg Prod.fst (Option.some.inj heq))
      have hframes {fs : List Frame} (hfs : m.frames t = some fs) : m'.frames t = some fs := by
        rw [hmoves.frames_of_ne (Ne.symm hut) (hm.lt_of_frames hfs)]
        exact hfs
      cases h with
      | drain hc | ended hc => exact absurd hc (hcurrent _)
      | writing above hfs htaken => exact .writing above (hframes hfs) fun hl => (htaken hl).step hstep
      | asserting above hfs htaken => exact .asserting above (hframes hfs) fun hl => (htaken hl).step hstep
  · have hframes {fs : List Frame} (hfs : m.frames t = some fs) : m'.frames t = some fs :=
      (hrests.frames t).trans hfs
    cases h with
    | drain hc =>
        rcases hrests.before with hnone | ⟨u, o, hsome⟩
        · cases hnone.symm.trans hc
        · cases hsome.symm.trans hc
    | ended hc => exact absurd ⟨_, hc, rfl⟩ hnot
    | writing above hfs htaken => exact .writing above (hframes hfs) fun hl => (htaken hl).step hstep
    | asserting above hfs htaken => exact .asserting above (hframes hfs) fun hl => (htaken hl).step hstep

end Machine

/-! ## Runs -/

variable {setup : TestSetup} {g : Generator} {m m' : Machine} {t : TaskId} {label : String}
  {stack : List Frame} {v : Value} {queue before after : List (String × Expectation)}
  {e : Expectation}

namespace TestSetup

end TestSetup

/-- A change that is over was begun, with the drain of its label. -/
theorem TestSetup.Reaches.changes (h : setup.Reaches g m')
    (hcurrent : m'.current = some (t, .outcome (.value v) (.changed label :: stack))) :
    ∃ m, setup.Reaches g m ∧ m.Changes m' t label stack v := by
  rcases h.pushed [] (Machine.frames_current hcurrent) with
    ⟨hreach, hstep, hmoves, hturn, hunder, hduring⟩ | ⟨-, work, heq, -⟩
  · obtain ⟨rfl, rfl⟩ := hmoves.rule.puts_changed hturn
    refine ⟨_, hreach.step hstep, ?_, hduring, hcurrent⟩
    rw [hmoves.next, hunder]
    rfl
  · cases heq

/-- A script with three labels that changes to the second one, with a hook for the first one. -/
def changeScript (hook : Value) : Script :=
  let ask (r : Request) : Instr := .ask r false none
  let idle : Value := .callback ⟨"idle", [], none, none, .nothing⟩
  [ask (.hook false (.text "a") hook), ask (.hook false (.text "b") idle),
    ask (.hook false (.text "c") idle), ask (.change (.text "b"))]

/-- A hook that does nothing. -/
def idleHook : Value := .callback ⟨"idle", [], none, none, .nothing⟩

end HotSpec
