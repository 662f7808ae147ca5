import HotSpec.Proofs.Engine.Returns
import HotSpec.Proofs.Expectation.Change

/-!
# Drains that overlap

All drains take labels from one queue, so labels are taken in their order.  A drain that has taken a
label has it in hand until the label is settled: until its assertion has ended, or its write has
failed.  Each drain settles a label before it takes the next one, but several drains can be at work:
in tasks that run at the same time, or one within an assertion of another.  The next label is taken
and written whatever the others have in hand.

Main definitions:

- `Machine.inHand`: the labels whose write or assertion a task waits for.
- `LabelStep`: what a rule does to the labels in hand.
- `TestSetup.Settled`: a label is settled.

Main results:

- Theorem `Reaches.hands`: a label is in one hand at most.
- Theorem `Reaches.settled_iff`: of the labels that were taken, those that nobody has in hand are
  settled, and no others.
- Theorem `write_overlaps_iff`: the write of a label starts before an earlier one is settled exactly
  if another drain has the earlier one in hand.
-/

namespace HotSpec

/-! ## Labels in hand -/

/-- The labels whose write or assertion frames wait for. -/
def labelsOf (fs : List Frame) : List String := fs.filterMap Frame.label?

theorem labelsOf_append (fs gs : List Frame) : labelsOf (fs ++ gs) = labelsOf fs ++ labelsOf gs :=
  List.filterMap_append

theorem labelsOf_cons (f : Frame) (fs : List Frame) :
    labelsOf (f :: fs) = f.label?.toList ++ labelsOf fs := by
  rw [labelsOf, List.filterMap_cons]
  cases f.label? <;> rfl

theorem labelsOf_eq_nil {fs : List Frame} (h : ∀ f ∈ fs, f.label? = none) : labelsOf fs = [] :=
  List.filterMap_eq_nil_iff.mpr h

/-- The label whose assertion has ended. -/
def Event.asserted? : Event → Option String
  | .asserted label _ => some label
  | _ => none

/-- The labels whose assertions have ended. -/
def World.asserted (w : World) : List String := w.trace Event.asserted?

theorem World.asserted_record (w : World) (label : String) (missed : Bool) :
    (w.record (.asserted label missed)).asserted = w.asserted ++ [label] :=
  World.trace_record Event.asserted? (.asserted label missed) rfl

/-- What a rule does to the labels that its task has in hand. -/
inductive LabelStep : Head → World → Turn → World → Prop
  | stays {head w turn w'} (hpopped : w'.popped = w.popped) (hasserted : w'.asserted = w.asserted)
      (h : labelsOf turn.frames = head.first.label?.toList) : LabelStep head w turn w'
  /-- A drain takes the first pending label. -/
  | takes {until? already last label e queue w turn w'}
      (hpending : w.session.pending = some ((label, e) :: queue))
      (hpopped : w'.popped = w.popped ++ [label]) (hasserted : w'.asserted = w.asserted)
      (h : labelsOf turn.frames = [label]) :
      LabelStep (.work (.drain until? already last)) w turn w'
  /-- The assertion of a label has ended. -/
  | asserts {until? already label o w turn w'} (hpopped : w'.popped = w.popped)
      (hasserted : w'.asserted = w.asserted ++ [label]) (h : labelsOf turn.frames = []) :
      LabelStep (.frame (.asserted until? already label) o) w turn w'
  /-- The write of a label has failed, or was stopped. -/
  | fails {until? already label e o w turn w'} (hpopped : w'.popped = w.popped)
      (hasserted : w'.asserted = w.asserted) (h : labelsOf turn.frames = [])
      (hfails : o.isValue = false) :
      LabelStep (.frame (.written until? already label e) o) w turn w'

variable {head : Head} {w w' : World} {turn : Turn}

theorem Head.label?_of_replies (h : head.replies = true) : head.first.label? = none := by
  cases head with
  | work work => rfl
  | frame f o => cases f <;> first | rfl | cases h

theorem Calls.first_label? {frames : List Frame} (h : Calls head frames) :
    head.first.label? = none := by
  cases h <;> rfl

theorem Asks.first_label? (h : Asks head w turn w') : head.first.label? = none := by
  cases h <;> rfl

/-- Labels are taken by drains only. -/
theorem QueueStep.popped (h : QueueStep head w turn w')
    (hdrain : ∀ until? already last, head ≠ .work (.drain until? already last)) :
    w'.popped = w.popped := by
  cases h with
  | same h => exact h.popped
  | pops => exact absurd rfl (hdrain _ _ _)
  | opens _ _ hpopped | discards _ _ hpopped | refuses _ _ hpopped => exact hpopped

/-- Assertions end at the frames that wait for them only. -/
theorem World.Records.asserted (h : w.Records head w')
    (hframe : ∀ until? already label o, head ≠ .frame (.asserted until? already label) o) :
    w'.asserted = w.asserted := by
  obtain ⟨new, hnew, hof⟩ := h
  refine World.trace_append _ hnew fun e he => ?_
  have hmine := hof e he
  cases e with
  | asserted label missed =>
      cases head with
      | work work => cases hmine
      | frame f o =>
          cases f with
          | asserted until? already label' => exact absurd rfl (hframe _ _ _ _)
          | _ => cases hmine
  | _ => rfl

theorem labelStep_rule (h : Rule head w turn w') : LabelStep head w turn w' := by
  have hqueue := queueStep_rule h
  have hrecords := h.records
  have hnone (hdrain : ∀ until? already last, head ≠ .work (.drain until? already last))
      (hfirst : head.first.label? = none) (hturn : ∀ f ∈ turn.frames, f.label? = none) :
      LabelStep head w turn w' := by
    refine .stays (hqueue.popped hdrain) (hrecords.asserted ?_) ?_
    · rintro _ _ _ _ rfl
      cases hfirst
    · rw [hfirst, labelsOf_eq_nil hturn]
      rfl
  cases h with
  | asks h => exact hnone (by cases h <;> simp) h.first_label? h.label?
  | reply r hhead h =>
      refine hnone ?_ (Head.label?_of_replies hhead) (by simp [Turn.frames])
      rintro _ _ _ rfl
      cases hhead
  | @pass f o _ _ hf h =>
      have hpopped := hqueue.popped (by simp)
      cases f with
      | written until? already label e =>
          exact .fails hpopped (hrecords.asserted (by simp)) rfl (by simpa [Frame.passes] using hf)
      | asserted until? already label => cases hf
      | _ => exact .stays hpopped (hrecords.asserted (by simp)) rfl
  | call hcall h => exact hnone (by cases hcall <;> simp) hcall.first_label? hcall.label?
  | commanded hp hy hcall h => exact hnone (by simp) rfl hcall.label?
  | @resume p g reply adv _ _ h =>
      refine hnone (by simp) rfl ?_
      unfold resumed
      split <;> simp [Turn.reply, Turn.frames, Frame.label?]
  | ready hlabel h =>
      refine hnone (by simp) rfl ?_
      cases h <;> simp [Turn.frames, Frame.label?]
  | drained h => exact .stays rfl rfl rfl
  | @popped until? last label e queue _ h =>
      exact .takes h (w.popped_popping label queue) (hrecords.asserted (by simp)) rfl
  | @writing until? last label e queue _ h =>
      have hwriting := World.SameQueue.record (w.popping label queue) (e := .writing label)
        rfl rfl rfl
      exact .takes h (hwriting.popped.trans (w.popped_popping label queue))
        (hrecords.asserted (by simp)) rfl
  | assertedLast => exact .asserts (hqueue.popped (by simp)) (w.asserted_record _ _) rfl
  | assertedNext h => exact .asserts (hqueue.popped (by simp)) (w.asserted_record _ _) rfl
  | assertedNot h => exact .asserts (hqueue.popped (by simp)) (w.asserted_record _ _) rfl
  | _ => exact .stays (hqueue.popped (by simp)) (hrecords.asserted (by simp)) rfl

namespace Machine

/-- The labels whose write or assertion a task waits for. -/
def inHand (m : Machine) (t : TaskId) : List String := ((m.frames t).map labelsOf).getD []

/-- One machine has a label in hand, in a task, that the other one has not. -/
structure Holds (m : Machine) (t : TaskId) (label : String) (m' : Machine) : Prop where
  hand : m.inHand t = label :: m'.inHand t
  others : ∀ u, u ≠ t → m.inHand u = m'.inHand u

/-- What a step does to the labels in hand. -/
inductive HandStep : Machine → Machine → Prop
  | stays {m m'} (popped : m'.world.popped = m.world.popped)
      (asserted : m'.world.asserted = m.world.asserted) (hands : ∀ t, m'.inHand t = m.inHand t) :
      HandStep m m'
  /-- A drain takes the first pending label. -/
  | takes {m m' t label e queue} (pending : m.world.session.pending = some ((label, e) :: queue))
      (popped : m'.world.popped = m.world.popped ++ [label])
      (asserted : m'.world.asserted = m.world.asserted) (holds : m'.Holds t label m) :
      HandStep m m'
  /-- The assertion of a label has ended. -/
  | asserts {m m' t label} (popped : m'.world.popped = m.world.popped)
      (asserted : m'.world.asserted = m.world.asserted ++ [label]) (holds : m.Holds t label m') :
      HandStep m m'
  /-- The write of a label has failed, or was stopped. -/
  | fails {m m' t until? already label e o stack}
      (current : m.current = some (t, .outcome o (.written until? already label e :: stack)))
      (fails : o.isValue = false) (popped : m'.world.popped = m.world.popped)
      (asserted : m'.world.asserted = m.world.asserted) (holds : m.Holds t label m') :
      HandStep m m'

variable {m m' : Machine} {t u : TaskId} {label : String} {stack : List Frame}
  {new : List (List Frame)}

theorem inHand_eq {fs : List Frame} (h : m.frames t = some fs) : m.inHand t = labelsOf fs := by
  rw [inHand, h]
  rfl

theorem inHand_of_frames (h : m'.frames t = m.frames t) : m'.inHand t = m.inHand t := by
  rw [inHand, h, inHand]

theorem Moves.inHand_before (h : m.Moves t head stack turn new w' m') :
    m.inHand t = head.first.label?.toList ++ labelsOf stack := by
  rw [inHand_eq h.before, labelsOf_cons]

theorem Moves.inHand_after (h : m.Moves t head stack turn new w' m') :
    m'.inHand t = labelsOf turn.frames ++ labelsOf stack := by
  have hframes : m'.frames t = some (turn.frames ++ stack) := (h.frames t).trans (if_pos rfl)
  rw [inHand_eq hframes, labelsOf_append]

/-- A step changes nothing in the hands of other tasks, and new tasks have nothing in hand. -/
theorem Moves.inHand_of_ne (h : m.Moves t head stack turn new w' m') (hm : m.Sound) (hu : u ≠ t) :
    m'.inHand u = m.inHand u := by
  have hframes := h.frames u
  rw [if_neg hu] at hframes
  split at hframes
  · exact inHand_of_frames hframes
  · next hlt =>
    have hbefore : m.inHand u = [] := by
      cases hfs : m.frames u with
      | none => rw [inHand, hfs]; rfl
      | some fs => exact absurd (hm.lt_of_frames hfs) hlt
    have hafter : m'.inHand u = [] := by
      rw [inHand, hframes]
      cases hnew : new[u - m.world.scheduler.tasks.length]? with
      | none => rfl
      | some fs =>
        obtain ⟨work, rfl, -⟩ := h.spawns.opensTask (List.mem_of_getElem? hnew)
        rfl
    rw [hbefore, hafter]

theorem Sound.handStep (hm : m.Sound) (hstep : m.step = some m') : HandStep m m' := by
  rcases hm.moves_or_rests hstep with ⟨t, head, stack, turn, new, w', hmoves⟩ | hrests
  · have hpopped : m'.world.popped = w'.popped := World.trace_congr _ hmoves.history
    have hasserted : m'.world.asserted = w'.asserted := World.trace_congr _ hmoves.history
    have hbefore := hmoves.inHand_before
    have hafter := hmoves.inHand_after
    have hothers : ∀ u, u ≠ t → m'.inHand u = m.inHand u := fun u => hmoves.inHand_of_ne hm
    cases labelStep_rule hmoves.rule with
    | stays hpop hass h =>
        refine .stays (hpopped.trans hpop) (hasserted.trans hass) fun u => ?_
        by_cases hu : u = t
        · rw [hu, hafter, hbefore, h]
        · exact hothers u hu
    | @takes _ _ _ label _ _ _ _ _ hpending hpop hass h =>
        have hholds : m'.Holds t label m := ⟨by rw [hafter, hbefore, h]; rfl, hothers⟩
        exact .takes hpending (hpopped.trans hpop) (hasserted.trans hass) hholds
    | @asserts _ _ label _ _ _ _ hpop hass h =>
        have hholds : m.Holds t label m' :=
          ⟨by rw [hafter, hbefore, h]; rfl, fun u hu => (hothers u hu).symm⟩
        exact .asserts (hpopped.trans hpop) (hasserted.trans hass) hholds
    | @fails _ _ label _ _ _ _ _ hpop hass h hfails =>
        have hholds : m.Holds t label m' :=
          ⟨by rw [hafter, hbefore, h]; rfl, fun u hu => (hothers u hu).symm⟩
        exact .fails hmoves.current hfails (hpopped.trans hpop) (hasserted.trans hass) hholds
  · have hsame := World.SameQueue.of_minor hrests.session hrests.history
    obtain ⟨new, hnew, hminor⟩ := hrests.history
    refine .stays hsame.popped (World.trace_append _ hnew fun e he => ?_) fun u =>
      inHand_of_frames (hrests.frames u)
    have hmem := hminor e he
    cases e <;> first | rfl | cases hmem

/-- A drain whose write has failed gives up. -/
theorem Sound.gives_up (hm : m.Sound) {o : Outcome} {until? : Option String} {already : Bool}
    {e : Expectation} (hstep : m.step = some m') (hfails : o.isValue = false)
    (hcurrent : m.current = some (t, .outcome o (.written until? already label e :: stack))) :
    m.Holds t label m' := by
  rcases hm.moves_or_rests hstep with ⟨u, head, fs, turn, new, w', hmoves⟩ | hrests
  · obtain ⟨rfl, rfl, rfl⟩ := hmoves.head_eq hcurrent
    have hturn : turn = .give o := by
      cases hmoves.rule with
      | asks h => cases h
      | reply r hhead => cases hhead
      | pass => rfl
      | call hcall => cases hcall
      | written => cases hfails
    refine ⟨?_, fun u hu => (hmoves.inHand_of_ne hm hu).symm⟩
    rw [hmoves.inHand_before, hmoves.inHand_after, hturn]
    rfl
  · exact absurd hcurrent hrests.not_frame

/-! ## One hand -/

/-- A label is in one hand at most, it was taken, and its assertion has not ended. -/
structure Hands (m : Machine) : Prop where
  once : ∀ t, (m.inHand t).Nodup
  apart : ∀ t u label, label ∈ m.inHand t → label ∈ m.inHand u → t = u
  taken : ∀ t label, label ∈ m.inHand t → label ∈ m.world.popped
  ended : ∀ label, label ∈ m.world.asserted → label ∈ m.world.popped ∧ ∀ t, label ∉ m.inHand t

theorem Holds.mem (h : m.Holds t label m') {label' : String} :
    label' ∈ m.inHand u ↔ label' ∈ m'.inHand u ∨ u = t ∧ label' = label := by
  by_cases hu : u = t
  · subst hu
    rw [h.hand, List.mem_cons]
    tauto
  · rw [h.others u hu]
    tauto

/-- A label that leaves a hand is in no other hand. -/
theorem Holds.not_mem (h : m.Holds t label m') (hands : m.Hands) : label ∉ m'.inHand u := by
  intro hmem
  have hbefore : label ∈ m.inHand u := h.mem.mpr (.inl hmem)
  have hhand : label ∈ m.inHand t := h.mem.mpr (.inr ⟨rfl, rfl⟩)
  obtain rfl := hands.apart u t label hbefore hhand
  have honce := hands.once u
  rw [h.hand, List.nodup_cons] at honce
  exact honce.1 hmem

/-- What is in hand when a label leaves a hand was in hand before. -/
theorem Holds.hands (h : m.Holds t label m') (hands : m.Hands)
    (hpopped : m'.world.popped = m.world.popped)
    (hasserted : ∀ label', label' ∈ m'.world.asserted →
      label' ∈ m.world.asserted ∨ label' = label) : m'.Hands where
  once u := by
    have honce := hands.once u
    by_cases hu : u = t
    · rw [hu, h.hand, List.nodup_cons] at honce
      exact hu ▸ honce.2
    · rwa [h.others u hu] at honce
  apart u v label' hmem hmem' :=
    hands.apart u v label' (h.mem.mpr (.inl hmem)) (h.mem.mpr (.inl hmem'))
  taken u label' hmem := hpopped ▸ hands.taken u label' (h.mem.mpr (.inl hmem))
  ended label' hmem := by
    rw [hpopped]
    rcases hasserted label' hmem with hbefore | rfl
    · obtain ⟨htaken, hnone⟩ := hands.ended label' hbefore
      exact ⟨htaken, fun u hmem' => hnone u (h.mem.mpr (.inl hmem'))⟩
    · exact ⟨hands.taken t label' (h.mem.mpr (.inr ⟨rfl, rfl⟩)), fun u => h.not_mem hands⟩

theorem Hands.step (h : m.Hands) (hstep : HandStep m m')
    (hfresh : ∀ label e queue, m.world.session.pending = some ((label, e) :: queue) →
      label ∉ m.world.popped) : m'.Hands := by
  cases hstep with
  | stays hpopped hasserted hhands =>
      refine ⟨fun t => ?_, fun t u label => ?_, fun t label => ?_, fun label => ?_⟩
      · rw [hhands]
        exact h.once t
      · rw [hhands, hhands]
        exact h.apart t u label
      · rw [hhands, hpopped]
        exact h.taken t label
      · rw [hasserted, hpopped]
        simp only [hhands]
        exact h.ended label
  | @takes t label e queue hpending hpopped hasserted hholds =>
      have hnew : label ∉ m.world.popped := hfresh label e queue hpending
      have hnone : ∀ u, label ∉ m.inHand u := fun u hmem => hnew (h.taken u label hmem)
      refine ⟨fun u => ?_, fun u v label' => ?_, fun u label' => ?_, fun label' => ?_⟩
      · by_cases hu : u = t
        · rw [hu, hholds.hand, List.nodup_cons]
          exact ⟨hnone t, h.once t⟩
        · rw [hholds.others u hu]
          exact h.once u
      · rw [hholds.mem, hholds.mem]
        rintro (hu | ⟨rfl, rfl⟩) (hv | ⟨rfl, heq⟩)
        · exact h.apart u v label' hu hv
        · exact absurd (heq ▸ hu) (hnone u)
        · exact absurd hv (hnone v)
        · rfl
      · rw [hholds.mem, hpopped, List.mem_append]
        rintro (hu | ⟨-, rfl⟩)
        · exact .inl (h.taken u label' hu)
        · exact .inr (List.mem_singleton_self _)
      · rw [hasserted, hpopped]
        intro hmem
        obtain ⟨htaken, hends⟩ := h.ended label' hmem
        refine ⟨List.mem_append_left _ htaken, fun u hu => ?_⟩
        rcases hholds.mem.mp hu with hu | ⟨-, rfl⟩
        · exact hends u hu
        · exact hnew htaken
  | asserts hpopped hasserted hholds =>
      refine hholds.hands h hpopped fun label' hmem => ?_
      rw [hasserted, List.mem_append, List.mem_singleton] at hmem
      exact hmem
  | fails _ _ hpopped hasserted hholds =>
      exact hholds.hands h hpopped fun label' hmem => .inl (hasserted ▸ hmem)

end Machine

/-! ## Runs -/

variable {setup : TestSetup} {g : Generator} {m m' : Machine} {label earlier : String}

namespace TestSetup

/-- What is pending was not taken yet. -/
theorem Reaches.not_popped (h : setup.Reaches g m) {e : Expectation}
    {queue : List (String × Expectation)}
    (hpending : m.world.session.pending = some ((label, e) :: queue)) :
    label ∉ m.world.popped := by
  rcases h.preparing_or_opened with hprep | ⟨labels, -, hopened⟩
  · rw [hprep.pending] at hpending
    cases hpending
  · obtain ⟨rest, hlabels, hnone | hrest⟩ := hopened.queue
    · rw [hnone] at hpending
      cases hpending
    · have hnodup := hopened.nodup
      rw [Session.pendingLabels, hpending] at hrest
      cases hrest
      rw [hlabels] at hnodup
      exact fun hmem => (List.nodup_append.mp hnodup).2.2 _ hmem _ (List.mem_cons_self ..) rfl

/-- A label is in one hand at most, at any time. -/
theorem Reaches.hands (h : setup.Reaches g m) : m.Hands := by
  induction h with
  | refl =>
      have hnone : ∀ t, (setup.machine g).inHand t = [] := by
        intro t
        rw [Machine.inHand, frames_machine]
        split <;> rfl
      refine ⟨fun t => ?_, fun t u label => ?_, fun t label => ?_, fun label hmem => ?_⟩
      · rw [hnone]
        exact List.nodup_nil
      · rw [hnone]
        simp
      · rw [hnone]
        simp
      · cases hmem
  | tail hfirst hlast ih =>
      have hreach : setup.Reaches g _ := hfirst
      exact ih.step (hreach.sound.handStep hlast) fun label e queue => hreach.not_popped

/-- A label is settled: its assertion has ended, or its write has failed, so that nothing is
asserted. -/
inductive Settled (setup : TestSetup) (g : Generator) (label : String) (m : Machine) : Prop
  | asserted (h : label ∈ m.world.asserted)
  | unwritten {t until? already e o stack m₀ m₁} (reach : setup.Reaches g m₀)
      (current : m₀.current = some (t, .outcome o (.written until? already label e :: stack)))
      (fails : o.isValue = false) (step : m₀.step = some m₁) (later : m₁.Steps m)

theorem Settled.step (h : setup.Settled g label m) (hm : m.Sound) (hstep : m.step = some m') :
    setup.Settled g label m' := by
  cases h with
  | asserted h =>
      refine .asserted ?_
      cases hm.handStep hstep with
      | stays _ hasserted | takes _ _ hasserted | fails _ _ _ hasserted => exact hasserted ▸ h
      | asserts _ hasserted =>
          rw [hasserted]
          exact List.mem_append_left _ h
  | unwritten reach current fails step later =>
      exact .unwritten reach current fails step (later.trans (.single hstep))

/-- A label that was taken is settled, or in hand. -/
theorem Reaches.settled_or_inHand (h : setup.Reaches g m) (hlabel : label ∈ m.world.popped) :
    setup.Settled g label m ∨ ∃ t, label ∈ m.inHand t := by
  induction h with
  | refl => cases hlabel
  | @tail m m' hfirst hlast ih =>
      have hreach : setup.Reaches g m := hfirst
      have hsettled (h : setup.Settled g label m) : setup.Settled g label m' :=
        h.step hreach.sound hlast
      cases hreach.sound.handStep hlast with
      | stays hpopped _ hhands =>
          refine (ih (hpopped ▸ hlabel)).imp hsettled fun ⟨t, ht⟩ => ⟨t, ?_⟩
          rwa [hhands]
      | takes _ hpopped _ hholds =>
          rw [hpopped, List.mem_append, List.mem_singleton] at hlabel
          rcases hlabel with hlabel | rfl
          · exact (ih hlabel).imp hsettled fun ⟨t, ht⟩ => ⟨t, hholds.mem.mpr (.inl ht)⟩
          · exact .inr ⟨_, hholds.mem.mpr (.inr ⟨rfl, rfl⟩)⟩
      | asserts hpopped hasserted hholds =>
          rcases ih (hpopped ▸ hlabel) with h | ⟨t, ht⟩
          · exact .inl (hsettled h)
          · rcases hholds.mem.mp ht with ht | ⟨-, rfl⟩
            · exact .inr ⟨t, ht⟩
            · exact .inl (.asserted (by rw [hasserted]; simp))
      | fails hcurrent hfails hpopped _ hholds =>
          rcases ih (hpopped ▸ hlabel) with h | ⟨t, ht⟩
          · exact .inl (hsettled h)
          · rcases hholds.mem.mp ht with ht | ⟨-, rfl⟩
            · exact .inr ⟨t, ht⟩
            · exact .inl (.unwritten hreach hcurrent hfails hlast (.refl _))

/-- A label that was taken and is in no hand stays so. -/
theorem Reaches.not_inHand_steps (h : setup.Reaches g m) (hlabel : label ∈ m.world.popped)
    (hnone : ∀ t, label ∉ m.inHand t) (hsteps : m.Steps m') : ∀ t, label ∉ m'.inHand t := by
  refine (Machine.Steps.invariant (P := fun m' => setup.Reaches g m' ∧ label ∈ m'.world.popped ∧
    ∀ t, label ∉ m'.inHand t) hsteps ⟨h, hlabel, hnone⟩ ?_).2.2
  rintro m₁ m₂ hstep ⟨hreach, htaken, hnone⟩
  refine ⟨hreach.step hstep, (hreach.sound.popped_mono hstep).subset htaken, fun t hmem => ?_⟩
  cases hreach.sound.handStep hstep with
  | stays _ _ hhands =>
      rw [hhands] at hmem
      exact hnone t hmem
  | takes hpending _ _ hholds =>
      rcases hholds.mem.mp hmem with hmem | ⟨-, rfl⟩
      · exact hnone t hmem
      · exact hreach.not_popped hpending htaken
  | asserts _ _ hholds | fails _ _ _ _ hholds => exact hnone t (hholds.mem.mpr (.inl hmem))

/-- Of the labels that were taken, those that nobody has in hand are settled, and no others. -/
theorem Reaches.settled_iff (h : setup.Reaches g m) (hlabel : label ∈ m.world.popped) :
    setup.Settled g label m ↔ ∀ t, label ∉ m.inHand t := by
  constructor
  · intro hsettled
    cases hsettled with
    | asserted hended => exact (h.hands.ended label hended).2
    | @unwritten t _ _ _ _ _ m₀ m₁ hreach hcurrent hfails hstep hlater =>
        have hholds := hreach.sound.gives_up hstep hfails hcurrent
        have htaken : label ∈ m₁.world.popped :=
          (hreach.sound.popped_mono hstep).subset
            (hreach.hands.taken t label (hholds.mem.mpr (.inr ⟨rfl, rfl⟩)))
        exact (hreach.step hstep).not_inHand_steps htaken (fun u => hholds.not_mem hreach.hands)
          hlater
  · intro hnone
    rcases h.settled_or_inHand hlabel with hsettled | ⟨t, ht⟩
    · exact hsettled
    · exact absurd ht (hnone t)

theorem Opens.reaches {labels : List String} (h : setup.Opens g labels m) : setup.Reaches g m := by
  obtain ⟨m₀, m₁, hreach, -, hstep, hsteps, -⟩ := h
  exact (hreach.step hstep).steps hsteps

end TestSetup

/-- A drain that writes begins with the write of the first pending label. -/
theorem Rule.writes_first {head : Head} {w w' : World} {turn : Turn} {until? last : Option String}
    {e : Expectation} {queue : List (String × Expectation)} (h : Rule head w turn w')
    (hhead : head = .work (.drain until? false last))
    (hpending : w.session.pending = some ((label, e) :: queue)) :
    w'.history = .writing label :: .popped label :: w.history := by
  subst hhead
  cases h with
  | asks h => cases h
  | reply r hreplies => cases hreplies
  | call hcall => cases hcall
  | drained h => simp [hpending] at h
  | writing h =>
      cases hpending.symm.trans h
      rfl

variable {labels : List String} {t : TaskId} {until? last : Option String} {stack : List Frame}
  {e : Expectation} {queue : List (String × Expectation)}

/-- The write of a label starts when a drain takes the label, and it starts before an earlier label
is settled exactly if another drain has the earlier label in hand: one that the present drain is
nested in, or one of another task. -/
theorem write_overlaps_iff (h : setup.Opens g labels m)
    (hdrain : m.current = some (t, .work (.drain until? false last) stack))
    (hpending : m.world.session.pending = some ((label, e) :: queue)) (hstep : m.step = some m') :
    m'.world.history = .writing label :: .popped label :: m.world.history ∧
      ∃ before, labels = before ++ label :: queue.map Prod.fst ∧
        ∀ earlier ∈ before, (¬ setup.Settled g earlier m ↔
          earlier ∈ labelsOf stack ∨ ∃ u, u ≠ t ∧ earlier ∈ m.inHand u) := by
  have hreach : setup.Reaches g m := h.reaches
  refine ⟨?_, m.world.popped, ?_, ?_⟩
  · rcases hreach.sound.moves_or_rests hstep with ⟨u, head, fs, turn, new, w', hmoves⟩ | hrests
    · have heq := hmoves.current.symm.trans hdrain
      cases head with
      | frame f o => cases heq
      | work work =>
          cases heq
          rw [hmoves.history]
          exact hmoves.rule.writes_first rfl hpending
    · rcases hrests.before with hnone | ⟨u, o, hsome⟩
      · cases hnone.symm.trans hdrain
      · cases hsome.symm.trans hdrain
  · obtain ⟨rest, hlabels, hnone | hrest⟩ := h.opened.queue
    · cases hnone.symm.trans hpending
    · rw [Session.pendingLabels, hpending] at hrest
      cases hrest
      exact hlabels
  · intro earlier hearlier
    have hhand : m.inHand t = labelsOf stack :=
      (Machine.inHand_eq (Machine.frames_current hdrain)).trans rfl
    rw [hreach.settled_iff hearlier, ← hhand]
    push Not
    constructor
    · rintro ⟨u, hu⟩
      by_cases hut : u = t
      · exact .inl (hut ▸ hu)
      · exact .inr ⟨u, hut, hu⟩
    · rintro (ht | ⟨u, -, hu⟩)
      · exact ⟨t, ht⟩
      · exact ⟨u, hu⟩

/-- Whether a machine begins to drain the queue with writes. -/
private def drainsWet (m : Machine) : Bool :=
  match m.current with
  | some (_, .work (.drain _ false _) _) => true
  | _ => false

/-- Whether two labels and no others are pending. -/
private def pendsOnly (w : World) (label next : String) : Bool :=
  match w.session.pending with
  | some ((first, _) :: queue) => first = label && queue.map Prod.fst = [next]
  | _ => false

/-- Where a change drains the queue, the write of its label starts when only the label before it was
taken. -/
theorem write_overlaps_iff_change :
    ∃ (t : TaskId) (until? last : Option String) (stack : List Frame),
      (TestSetup.plainRun (changeScript idleHook) 38).current =
        some (t, .work (.drain until? false last) stack) ∧
      (¬ TestSetup.plain.Settled ⟨"script", .nothing, .before 0 (changeScript idleHook)⟩ "a"
          (TestSetup.plainRun (changeScript idleHook) 38) ↔
        "a" ∈ labelsOf stack ∨
          ∃ u, u ≠ t ∧ "a" ∈ (TestSetup.plainRun (changeScript idleHook) 38).inHand u) := by
  have hreach := TestSetup.reaches_plainRun (changeScript idleHook) 38
  have hopens : TestSetup.plain.Opens ⟨"script", .nothing, .before 0 (changeScript idleHook)⟩
      ["a", "b", "c"] (TestSetup.plainRun (changeScript idleHook) 38) := by
    have hopenings : (TestSetup.plainRun (changeScript idleHook) 38).world.openings =
        [["a", "b", "c"]] := by decide +kernel
    rcases hreach.preparing_or_opened with hprep | ⟨labels, hopens, hopened⟩
    · cases hopenings.symm.trans hprep.openings
    · cases hopenings.symm.trans hopened.openings
      exact hopens
  have hdrains : drainsWet (TestSetup.plainRun (changeScript idleHook) 38) = true := by
    decide +kernel
  have hfirst : pendsOnly (TestSetup.plainRun (changeScript idleHook) 38).world "b" "c" = true := by
    decide +kernel
  obtain ⟨m', hstep⟩ : ∃ m', (TestSetup.plainRun (changeScript idleHook) 38).step = some m' :=
    Option.isSome_iff_exists.mp (by decide +kernel)
  unfold drainsWet at hdrains
  unfold pendsOnly at hfirst
  split at hdrains
  · next t until? last stack hcurrent =>
    split at hfirst
    · next label e queue hpending =>
      simp only [Bool.and_eq_true, decide_eq_true_eq] at hfirst
      obtain ⟨rfl, hqueue⟩ := hfirst
      obtain ⟨-, before, hbefore, hiff⟩ := write_overlaps_iff hopens hcurrent hpending hstep
      rw [hqueue] at hbefore
      have hcut : ["a"] ++ ["b", "c"] = before ++ ["b", "c"] := hbefore
      obtain rfl := List.append_cancel_right hcut
      exact ⟨t, until?, last, stack, hcurrent, hiff "a" (List.mem_singleton_self _)⟩
    · cases hfirst
  · cases hdrains

/-- A script with two labels and two subs that run at the same time before the page is loaded, each
of which has everything asserted.  The hook of the first label is a list, so its assertion takes a
while. -/
def flushTwiceScript : Script :=
  let ask (r : Request) : Instr := .ask r false none
  let flushing (name : String) : Value := .routine ⟨name, [ask .flush], .nothing⟩
  [ask (.hook false (.text "a") (.list [idleHook])), ask (.hook false (.text "b") idleHook),
    ask (.beforeLoad (.list [flushing "first", flushing "second"]))]

/-- Where two drains are at work, the second label is written and even asserted before the assertion
of the first one has ended. -/
theorem write_overlaps :
    TestSetup.plain.Reaches ⟨"script", .nothing, .before 0 flushTwiceScript⟩
        (TestSetup.plainRun flushTwiceScript 44) ∧
      (TestSetup.plainRun flushTwiceScript 44).world.popped = ["a", "b"] ∧
      (TestSetup.plainRun flushTwiceScript 44).world.history.head? matches some (.writing "b") ∧
      (TestSetup.plainRun flushTwiceScript 44).world.asserted = [] ∧
      (TestSetup.plainRun flushTwiceScript 44).inHand 2 = ["a"] ∧
      (TestSetup.plainRun flushTwiceScript 120).world.asserted = ["b", "a"] := by
  refine ⟨TestSetup.reaches_plainRun flushTwiceScript 44, ?_, ?_, ?_, ?_, ?_⟩ <;> decide +kernel

end HotSpec
