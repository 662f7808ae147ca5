import HotSpec.Proofs.Expectation.Change
import HotSpec.Proofs.Expectation.Plain
import HotSpec.Proofs.Expectation.Undisturbed

/-!
# All that a change does

A change to a label writes and asserts what is pending, one label after the other, up to the label
itself.  A label that was not pending is written once everything pending was asserted, and is not
asserted.  Either way the label is written once, and by the last write.  The first write or assertion
that fails ends the change with its failure.

Main definitions:

- `inTurn`: what is done for labels that are written and asserted one after the other.
- `ChangeEnds`: all that a change has done when it is over, what is left pending, and its outcome.
- `Changing`: how far a change is.

Main results:

- Theorem `Changing.step`: every step that does not disturb a change leaves it at one of its stages.
- Theorem `change_exact`: all that a change does, and that it comes to an end.
-/

namespace HotSpec

/-! ## What is done -/

/-- What is done for labels that are written and asserted one after the other. -/
def inTurn (files : String → Table Value) (rows : List (String × Expectation)) : List Operation :=
  rows.flatMap fun row => [.write (files row.1), .assertion row.1 row.2]

@[simp]
theorem inTurn_nil (files : String → Table Value) : inTurn files [] = [] := rfl

theorem inTurn_concat (files : String → Table Value) (rows : List (String × Expectation))
    (label : String) (e : Expectation) : inTurn files (rows ++ [(label, e)]) =
      inTurn files rows ++ [.write (files label)] ++ [.assertion label e] := by
  simp [inTurn]

theorem length_inTurn (files : String → Table Value) (rows : List (String × Expectation)) :
    (inTurn files rows).length = 2 * rows.length := by
  induction rows with
  | nil => rfl
  | cons row rows ih =>
      rw [inTurn, List.flatMap_cons, List.length_append, ← inTurn, ih]
      simp only [List.length_cons, List.length_nil]
      omega

/-- The files that an operation writes. -/
def Operation.files? : Operation → Option (Table Value)
  | .write files => some files
  | .assertion .. => none

theorem files?_inTurn (files : String → Table Value) (rows : List (String × Expectation)) :
    (inTurn files rows).filterMap Operation.files? = (rows.map Prod.fst).map files := by
  induction rows with
  | nil => rfl
  | cons row rows ih =>
      rw [inTurn, List.flatMap_cons, List.filterMap_append, ← inTurn, ih]
      rfl

/-! ## Steps of a change -/

namespace Machine

variable {w : World} {t : TaskId} {label : String} {stack : List Frame} {o : Outcome}

/-- A command that changes to a label begins with a drain. -/
theorem step_process_change {p : Processor} {y : Yielded} (hp : p.phase? = some .run)
    (hy : y.toCommand = .ok (.change (.label label)))
    (hregistry : w.session.registry = .builtin true) :
    step ⟨w, some (t, .work (.process p y) stack)⟩ =
      some ⟨w.record (.handled .run (.change (.label label))),
        some (t, .work (.drain (some label) false none) (.changed label :: stack))⟩ := by
  have hget : w.session.registry.get (Command.change (.label label)).type =
      .ok ⟨false, true⟩ := by
    rw [hregistry]
    rfl
  have hrun : (Move.process p y).run w = (.call (.drain (some label) false none) [.changed label],
      w.record (.handled .run (.change (.label label)))) := by
    cases p with
    | doubling => cases hp
    | phase phase | handlers phase =>
        cases hp
        simp only [Move.process, hy, Move.resolve, Move.resolveAlone, StateT.run_bind, StateT.run_get,
          pure_bind, hget]
        rfl
  rw [step_work]
  simp only [Work.run, hrun]
  rfl

theorem step_drain_nil (last : Option String) (h : w.queue = []) :
    step ⟨w, some (t, .work (.drain (some label) false last) stack)⟩ =
      some ⟨w, some (t, .outcome (.value (Value.ofText? last)) stack)⟩ := by
  have hpop : w.session.pop? = none := by
    unfold World.queue at h
    unfold Session.pop?
    split
    · next first queue hpending => simp [hpending] at h
    · rfl
  rw [step_drain, hpop]

theorem step_drain_cons {l : String} {e : Expectation} {rest : List (String × Expectation)}
    (last : Option String) (h : w.queue = (l, e) :: rest) :
    step ⟨w, some (t, .work (.drain (some label) false last) stack)⟩ =
      some ⟨(w.popping l rest).record (.writing l),
        some (t, .work (.write (w.labelFiles l)) (.written (some label) false l e :: stack))⟩ := by
  have hpop : w.session.pop? = some ((l, e), { w.session with pending := some rest }) := by
    unfold World.queue at h
    unfold Session.pop?
    cases hpending : w.session.pending with
    | none => simp [hpending] at h
    | some rows =>
        rw [hpending] at h
        change rows = _ at h
        subst h
        rfl
  rw [step_drain, hpop]
  rfl

theorem step_written (v : Value) {l : String} {e : Expectation} :
    step ⟨w, some (t, .outcome (.value v) (.written (some label) false l e :: stack))⟩ =
      some ⟨w.record (.settled l),
        some (t, .work (.verify l e .before) (.asserted (some label) false l :: stack))⟩ := rfl

theorem step_unwritten (ho : o.isValue = false) {l : String} {e : Expectation} :
    step ⟨w, some (t, .outcome o (.written (some label) false l e :: stack))⟩ =
      some ⟨w, some (t, .outcome o stack)⟩ := by
  cases o with
  | value v => cases ho
  | fault | stopped => rfl

theorem step_failed (ho : o.isValue = false) {l : String} :
    step ⟨w, some (t, .outcome o (.asserted (some label) false l :: stack))⟩ =
      some ⟨w.record (.asserted l true), some (t, .outcome o stack)⟩ := by
  cases o with
  | value v => cases ho
  | fault | stopped => rfl

theorem step_changed_reached :
    step ⟨w, some (t, .outcome (.value (.text label)) (.changed label :: stack))⟩ =
      some ⟨w, some (t, .outcome .finished stack)⟩ := by
  have hrun : (Move.changed label (.value (.text label))).run w =
      (if label = label then (return .done : Move) else Move.writeVariant label []) w := rfl
  rw [step_outcome]
  simp only [Frame.take, hrun, if_pos]
  rfl

theorem step_changed_missed {v : Value} (hv : v ≠ .text label) :
    step ⟨w, some (t, .outcome (.value v) (.changed label :: stack))⟩ =
      some ⟨w.record (.writing label), some (t, .work (.write (w.labelFiles label)) stack)⟩ := by
  have hrun : (Move.changed label (.value v)).run w = (Move.writeVariant label []).run w := by
    cases v with
    | text last =>
        have hlast : last ≠ label := fun heq => hv (congrArg Value.text heq)
        have hrun : (Move.changed label (.value (.text last))).run w =
          (if last = label then (return .done : Move) else Move.writeVariant label []).run w := rfl
        rw [hrun, if_neg hlast]
    | _ => rfl
  rw [step_outcome]
  simp only [Frame.take, hrun]
  rfl

theorem step_changed_failed (ho : o.isValue = false) :
    step ⟨w, some (t, .outcome o (.changed label :: stack))⟩ =
      some ⟨w, some (t, .outcome o stack)⟩ := by
  cases o with
  | value v => cases ho
  | fault | stopped => rfl

end Machine

/-! ## Stages of a change -/

section

variable (m₀ : Machine) (t : TaskId) (label : String) (stack : List Frame)
  (files : String → Table Value) (queue : List (String × Expectation))

/-- All that a change has done when it is over, what is left pending, and its outcome. -/
inductive ChangeEnds : List Operation → List (String × Expectation) → Outcome → Prop
  /-- The label was pending: it is the last one that was written and asserted. -/
  | reached {before e left v} (hqueue : queue = before ++ (label, e) :: left)
      (hlabel : label ∉ before.map Prod.fst) :
      ChangeEnds (inTurn files (before ++ [(label, e)])) left (.value v)
  /-- The label was not pending: it was written after all that was, and nothing is left. -/
  | missed {v} (hlabel : label ∉ queue.map Prod.fst) :
      ChangeEnds (inTurn files queue ++ [.write (files label)]) [] (.value v)
  /-- A pending label could not be written. -/
  | unwritten {before l e left o} (hqueue : queue = before ++ (l, e) :: left)
      (hlabel : label ∉ before.map Prod.fst) (ho : o.isValue = false)
      (hraised : ∃ m, m₀.Alone t stack (inTurn files before ++ [.write (files l)]) m ∧
        m.current = some (t, .outcome o (.written (some label) false l e :: .changed label :: stack))) :
      ChangeEnds (inTurn files before ++ [.write (files l)]) left o
  /-- The assertion of a pending label has failed. -/
  | failed {before l e left o} (hqueue : queue = before ++ (l, e) :: left)
      (hlabel : label ∉ before.map Prod.fst) (ho : o.isValue = false)
      (hraised : ∃ m, m₀.Alone t stack (inTurn files (before ++ [(l, e)])) m ∧
        m.current = some (t, .outcome o (.asserted (some label) false l :: .changed label :: stack))) :
      ChangeEnds (inTurn files (before ++ [(l, e)])) left o
  /-- The label was not pending, and could not be written after all that was. -/
  | missedUnwritten {o} (hlabel : label ∉ queue.map Prod.fst) (ho : o.isValue = false) :
      ChangeEnds (inTurn files queue ++ [.write (files label)]) [] o

/-- How far a change is, and what it has done so far. -/
inductive Changing : List Operation → Machine → Prop
  /-- The drain is about to take the next label. -/
  | drain (done rest : List (String × Expectation)) {last m} (hqueue : queue = done ++ rest)
      (hlabel : label ∉ done.map Prod.fst) (hlast : last ≠ some label)
      (hcurrent : m.current =
        some (t, .work (.drain (some label) false last) (.changed label :: stack)))
      (hleft : m.world.queue = rest) : Changing (inTurn files done) m
  /-- The files of a label are being written. -/
  | writing {done l e rest m} (above : List Frame) (hqueue : queue = done ++ (l, e) :: rest)
      (hlabel : label ∉ done.map Prod.fst)
      (hframes : m.frames t =
        some (above ++ .written (some label) false l e :: .changed label :: stack))
      (habove : ∀ f ∈ above, f.serves = true) (hleft : m.world.queue = rest) :
      Changing (inTurn files done ++ [.write (files l)]) m
  /-- A label is being asserted. -/
  | asserting {done l e rest m} (above : List Frame) (hqueue : queue = done ++ (l, e) :: rest)
      (hlabel : label ∉ done.map Prod.fst)
      (hframes : m.frames t =
        some (above ++ .asserted (some label) false l :: .changed label :: stack))
      (habove : ∀ f ∈ above, f.serves = true) (hleft : m.world.queue = rest) :
      Changing (inTurn files (done ++ [(l, e)])) m
  /-- The drain has taken the label. -/
  | reached {before e left m} (hqueue : queue = before ++ (label, e) :: left)
      (hlabel : label ∉ before.map Prod.fst)
      (hcurrent : m.current =
        some (t, .outcome (.value (.text label)) (.changed label :: stack)))
      (hleft : m.world.queue = left) : Changing (inTurn files (before ++ [(label, e)])) m
  /-- The drain has left nothing pending, and has not met the label. -/
  | missed {v m} (hlabel : label ∉ queue.map Prod.fst) (hv : v ≠ .text label)
      (hcurrent : m.current = some (t, .outcome (.value v) (.changed label :: stack)))
      (hleft : m.world.queue = []) : Changing (inTurn files queue) m
  /-- The drain has failed. -/
  | failing {operations o m} (ho : o.isValue = false)
      (hcurrent : m.current = some (t, .outcome o (.changed label :: stack)))
      (hends : ChangeEnds m₀ t label stack files queue operations m.world.queue o) :
      Changing operations m
  /-- The files of the label are being written after all that was pending. -/
  | last {m} (above : List Frame) (hlabel : label ∉ queue.map Prod.fst)
      (hframes : m.frames t = some (above ++ stack)) (habove : ∀ f ∈ above, f.serves = true)
      (hleft : m.world.queue = []) : Changing (inTurn files queue ++ [.write (files label)]) m
  /-- The change is over. -/
  | ended {operations o m} (hcurrent : m.current = some (t, .outcome o stack))
      (hends : ChangeEnds m₀ t label stack files queue operations m.world.queue o) :
      Changing operations m

end

section

variable {setup : TestSetup} {g : Generator} {m₀ m m' : Machine} {t : TaskId} {label : String}
  {stack : List Frame} {files : String → Table Value} {queue left : List (String × Expectation)}
  {operations : List Operation} {o : Outcome} {v : Value}

/-- A change that has come to a value has written the label once, by its last write. -/
theorem ChangeEnds.writes (h : ChangeEnds m₀ t label stack files queue operations left (.value v)) :
    ∃ labels, label ∉ labels ∧
      operations.filterMap Operation.files? = (labels ++ [label]).map files := by
  generalize ho : Outcome.value v = o at h
  cases h with
  | reached hqueue hlabel =>
      refine ⟨_, hlabel, ?_⟩
      rw [files?_inTurn, List.map_append]
      rfl
  | missed hlabel =>
      refine ⟨_, hlabel, ?_⟩
      rw [List.filterMap_append, files?_inTurn, List.map_append]
      rfl
  | unwritten _ _ hfail | failed _ _ hfail | missedUnwritten _ hfail =>
      subst ho
      cases hfail

/-- A task that comes down to a frame has its turn with an outcome for it. -/
theorem Machine.Resumes.outcome {f : Frame} (h : m.Resumes t (f :: stack))
    (hf : ∀ work, f ≠ .begin work) : ∃ o, m.current = some (t, .outcome o (f :: stack)) := by
  obtain ⟨c, hcurrent, hframes⟩ := h
  cases c with
  | work work fs => exact absurd (List.cons.inj hframes).1.symm (hf work)
  | outcome o fs =>
      cases hframes
      exact ⟨o, hcurrent⟩

/-- A task that has its turn makes the step of what it is at. -/
theorem Machine.eq_of_step {c : Control} {m₁ : Machine} (hcurrent : m.current = some (t, c))
    (hstep : m.step = some m') (h : Machine.step ⟨m.world, some (t, c)⟩ = some m₁) : m' = m₁ := by
  obtain ⟨w, current⟩ := m
  cases hcurrent
  exact Option.some.inj (hstep.symm.trans h)

/-- Work that a task has its turn with is in front of its frames. -/
theorem Machine.frames_work {work : Work} (h : m.current = some (t, .work work stack)) :
    m.frames t = some ([.begin work] ++ stack) := Machine.frames_current h

/-- Nothing lies between a frame and the frames under it. -/
theorem eq_of_frames_above {f f' : Frame} {above : List Frame}
    (h : f :: stack = above ++ f' :: stack) : f = f' := by
  have hlength := congrArg List.length h
  simp only [List.length_append, List.length_cons] at hlength
  obtain rfl : above = [] := List.length_eq_zero_iff.mp (by omega)
  exact (List.cons.inj h).1

/-- A task that comes to an outcome has not begun with an operation. -/
theorem Machine.then_outcome {w : World} {o : Outcome} {fs : List Frame} (operations : List Operation) :
    operations ++ (Machine.operation? ⟨w, some (t, .outcome o fs)⟩).toList = operations :=
  List.append_nil _

/-- Once the files of a label are written, it is asserted. -/
theorem Changing.step_written {done rest : List (String × Expectation)} {l : String} {e : Expectation}
    (hqueue : queue = done ++ (l, e) :: rest) (hlabel : label ∉ done.map Prod.fst)
    (hleft : m.world.queue = rest)
    (halone : m₀.Alone t stack (inTurn files done ++ [.write (files l)]) m)
    (hcurrent : m.current = some (t, .outcome o (.written (some label) false l e ::
      .changed label :: stack))) (hstep : m.step = some m') :
    Changing m₀ t label stack files queue
        (inTurn files done ++ [.write (files l)] ++ m'.operation?.toList) m' ∧
      m'.world.session.specs = m.world.session.specs := by
  cases o with
  | value v =>
      obtain rfl := Machine.eq_of_step hcurrent hstep (Machine.step_written v)
      refine ⟨?_, rfl⟩
      have hdone := inTurn_concat files done l e
      exact hdone ▸ .asserting [.begin (.verify l e .before)] hqueue hlabel
        (Machine.frames_work rfl) (by simp [Frame.serves]) hleft
  | _ =>
      obtain rfl := Machine.eq_of_step hcurrent hstep (Machine.step_unwritten rfl)
      refine ⟨?_, rfl⟩
      rw [Machine.then_outcome]
      exact .failing rfl rfl (hleft ▸ .unwritten hqueue hlabel rfl ⟨m, halone, hcurrent⟩)

/-- Once a label is asserted, the drain is over or takes the next one. -/
theorem Changing.step_asserted {done rest : List (String × Expectation)} {l : String}
    {e : Expectation} (hqueue : queue = done ++ (l, e) :: rest) (hlabel : label ∉ done.map Prod.fst)
    (hleft : m.world.queue = rest) (halone : m₀.Alone t stack (inTurn files (done ++ [(l, e)])) m)
    (hcurrent : m.current = some (t, .outcome o (.asserted (some label) false l ::
      .changed label :: stack))) (hstep : m.step = some m') :
    Changing m₀ t label stack files queue
        (inTurn files (done ++ [(l, e)]) ++ m'.operation?.toList) m' ∧
      m'.world.session.specs = m.world.session.specs := by
  cases o with
  | value v =>
      have hnext := Machine.step_asserted m.world t (.changed label :: stack) (some label)
        false l v
      by_cases hl : label = l
      · subst hl
        rw [if_pos rfl] at hnext
        obtain rfl := Machine.eq_of_step hcurrent hstep hnext
        refine ⟨?_, rfl⟩
        rw [Machine.then_outcome]
        exact .reached hqueue hlabel rfl hleft
      · rw [if_neg fun heq => hl (Option.some.inj heq)] at hnext
        obtain rfl := Machine.eq_of_step hcurrent hstep hnext
        refine ⟨?_, rfl⟩
        rw [Machine.operation?_work rfl]
        refine (List.append_nil (inTurn files (done ++ [(l, e)]))).symm ▸ .drain _ rest
          ?_ ?_ (fun heq => hl (Option.some.inj heq).symm) rfl hleft
        · rw [hqueue, List.append_assoc]
          rfl
        · simpa using ⟨by simpa using hlabel, hl⟩
  | _ =>
      obtain rfl := Machine.eq_of_step hcurrent hstep (Machine.step_failed rfl)
      refine ⟨?_, rfl⟩
      rw [Machine.then_outcome]
      exact .failing rfl rfl (hleft ▸ .failed hqueue hlabel rfl ⟨m, halone, hcurrent⟩)

/-- Every step that does not disturb a change leaves it at one of its stages. -/
theorem Changing.step (h : Changing m₀ t label stack files queue operations m)
    (hreach : setup.Reaches g m) (hstack : stack ≠ []) (hfiles : ∀ l, m.world.labelFiles l = files l)
    (halone : m₀.Alone t stack operations m) (hnot : ¬m.Resumes t stack)
    (hstep : Machine.Undisturbed t m m') :
    Changing m₀ t label stack files queue (operations ++ m'.operation?.toList) m' ∧
      m'.world.session.specs = m.world.session.specs := by
  cases h with
  | @drain done rest last _ hqueue hlabel hlast hcurrent hleft =>
      cases rest with
      | nil =>
          obtain rfl := Machine.eq_of_step hcurrent hstep.step (Machine.step_drain_nil last hleft)
          rw [List.append_nil] at hqueue
          subst hqueue
          refine ⟨?_, rfl⟩
          rw [Machine.then_outcome]
          refine .missed hlabel ?_ rfl hleft
          cases last with
          | none => simp [Value.ofText?]
          | some l => simpa [Value.ofText?] using hlast
      | cons row rest =>
          obtain ⟨l, e⟩ := row
          have hnext : Machine.step ⟨m.world,
              some (t, .work (.drain (some label) false last) (.changed label :: stack))⟩ = _ :=
            Machine.step_drain_cons last hleft
          rw [hfiles] at hnext
          obtain rfl := Machine.eq_of_step hcurrent hstep.step hnext
          exact ⟨.writing [.begin (.write (files _))] hqueue hlabel (Machine.frames_work rfl)
            (by simp [Frame.serves]) rfl, rfl⟩
  | @writing done l e rest _ above hqueue hlabel hframes habove hleft =>
      by_cases hresumes : m.Resumes t (.written (some label) false l e :: .changed label :: stack)
      · obtain ⟨o, hcurrent⟩ := hresumes.outcome (by simp)
        exact step_written hqueue hlabel hleft halone hcurrent hstep.step
      · obtain ⟨⟨above', hframes', habove'⟩, hoperation, hstays⟩ :=
          hstep.serves hreach hframes habove (by simp) hresumes
        rw [hoperation, Option.toList_none, List.append_nil]
        exact ⟨.writing above' hqueue hlabel hframes' habove' (hstays.queue.trans hleft), hstays.specs⟩
  | @asserting done l e rest _ above hqueue hlabel hframes habove hleft =>
      by_cases hresumes : m.Resumes t (.asserted (some label) false l :: .changed label :: stack)
      · obtain ⟨o, hcurrent⟩ := hresumes.outcome (by simp)
        exact step_asserted hqueue hlabel hleft halone hcurrent hstep.step
      · obtain ⟨⟨above', hframes', habove'⟩, hoperation, hstays⟩ :=
          hstep.serves hreach hframes habove (by simp) hresumes
        rw [hoperation, Option.toList_none, List.append_nil]
        exact ⟨.asserting above' hqueue hlabel hframes' habove' (hstays.queue.trans hleft), hstays.specs⟩
  | reached hqueue hlabel hcurrent hleft =>
      obtain rfl := Machine.eq_of_step hcurrent hstep.step Machine.step_changed_reached
      refine ⟨?_, rfl⟩
      rw [Machine.then_outcome]
      exact .ended rfl (hleft ▸ .reached hqueue hlabel)
  | @missed v _ hlabel hv hcurrent hleft =>
      have hnext : Machine.step ⟨m.world,
          some (t, .outcome (.value v) (.changed label :: stack))⟩ = _ :=
        Machine.step_changed_missed hv
      rw [hfiles] at hnext
      obtain rfl := Machine.eq_of_step hcurrent hstep.step hnext
      exact ⟨.last [.begin (.write (files _))] hlabel (Machine.frames_work rfl) (by simp [Frame.serves])
        hleft, rfl⟩
  | failing ho hcurrent hends =>
      obtain rfl := Machine.eq_of_step hcurrent hstep.step (Machine.step_changed_failed ho)
      refine ⟨?_, rfl⟩
      rw [Machine.then_outcome]
      exact .ended rfl hends
  | last above hlabel hframes habove hleft =>
      obtain ⟨⟨above', hframes', habove'⟩, hoperation, hstays⟩ :=
        hstep.serves hreach hframes habove hstack hnot
      rw [hoperation, Option.toList_none, List.append_nil]
      exact ⟨.last above' hlabel hframes' habove' (hstays.queue.trans hleft), hstays.specs⟩
  | ended hcurrent hends => exact absurd ⟨_, hcurrent, rfl⟩ hnot

/-- A change is at one of its stages as long as nobody disturbs it. -/
theorem Changing.of_alone (hreach : setup.Reaches g m₀)
    (hcurrent : m₀.current =
      some (t, .work (.drain (some label) false none) (.changed label :: stack)))
    (hstack : stack ≠ []) (hfiles : ∀ l, m₀.world.labelFiles l = files l)
    (hqueue : m₀.world.queue = queue) (h : m₀.Alone t stack operations m) :
    Changing m₀ t label stack files queue operations m ∧
      m.world.session.specs = m₀.world.session.specs := by
  induction h with
  | refl => exact ⟨.drain [] _ hqueue.symm (by simp) (by simp) hcurrent rfl, rfl⟩
  | step halone hnot hstep ih =>
      obtain ⟨hchanging, hspecs⟩ := ih
      obtain ⟨hnext, hkept⟩ := hchanging.step (hreach.steps halone.steps) hstack
        (fun l => (World.labelFiles_congr hspecs l).trans (hfiles l)) halone hnot hstep
      exact ⟨hnext, hkept.trans hspecs⟩

/-- A change that has come down to the frames under it is over. -/
theorem Changing.ends (h : Changing m₀ t label stack files queue operations m)
    (hcurrent : m.current = some (t, .outcome o stack)) :
    ChangeEnds m₀ t label stack files queue operations m.world.queue o := by
  have hlength {above : List Frame} {f : Frame}
      (hframes : m.frames t = some (above ++ f :: .changed label :: stack)) : False := by
    have heq := Option.some.inj ((Machine.frames_current hcurrent).symm.trans hframes)
    have hlength := congrArg List.length heq
    simp only [Control.frames, List.length_append, List.length_cons] at hlength
    omega
  cases h with
  | drain _ _ _ _ _ hother | reached _ _ hother | missed _ _ hother | failing _ hother =>
      cases hcurrent.symm.trans hother
  | writing above _ _ hframes | asserting above _ _ hframes => exact (hlength hframes).elim
  | last above hlabel hframes habove hleft =>
      rw [hleft]
      cases o with
      | value v => exact .missed hlabel
      | _ => exact .missedUnwritten hlabel rfl
  | ended hother hends =>
      cases hcurrent.symm.trans hother
      exact hends

/-- What a task does by itself goes on with a run that nobody disturbs. -/
theorem Machine.Alone.own {m₁ m₂ : Machine} {c : Control} (h : m₀.Alone t stack operations m₁)
    (hcurrent : m₁.current = some (t, c)) (hframes : stack.length < c.frames.length)
    (hc : ∀ p y fs, c ≠ .work (.process p y) fs)
    (hstep : Machine.step ⟨m₁.world, some (t, c)⟩ = some m₂) :
    m₀.Alone t stack (operations ++ m₂.operation?.toList) m₂ := by
  refine h.step ?_ (Machine.undisturbed_of_current hcurrent hc ?_)
  · rintro ⟨c', hcurrent', hframes'⟩
    cases hcurrent.symm.trans hcurrent'
    exact Nat.ne_of_gt hframes (congrArg List.length hframes')
  · obtain ⟨w, current⟩ := m₁
    cases hcurrent
    exact hstep

/-- The same where the task comes to an outcome. -/
theorem Machine.Alone.own_outcome {m₁ : Machine} {c : Control} {w : World} {fs : List Frame}
    (h : m₀.Alone t stack operations m₁) (hcurrent : m₁.current = some (t, c))
    (hframes : stack.length < c.frames.length) (hc : ∀ p y fs, c ≠ .work (.process p y) fs)
    (hstep : Machine.step ⟨m₁.world, some (t, c)⟩ = some ⟨w, some (t, .outcome o fs)⟩) :
    m₀.Alone t stack operations ⟨w, some (t, .outcome o fs)⟩ := by
  have hnext := h.own hcurrent hframes hc hstep
  rwa [Machine.then_outcome] at hnext

/-- A write or an assertion that fails ends the change, and nothing is done after it. -/
theorem Changing.fails {f : Frame} (h : Changing m₀ t label stack files queue operations m)
    (halone : m₀.Alone t stack operations m) (ho : o.isValue = false)
    (hcurrent : m.current = some (t, .outcome o (f :: .changed label :: stack))) :
    ∃ m', m₀.Alone t stack operations m' ∧ m'.current = some (t, .outcome o stack) := by
  -- The drain passes the failure on, and so does the change.
  have hdrained {w : World} (hf : Machine.step ⟨m.world,
        some (t, .outcome o (f :: .changed label :: stack))⟩ =
          some ⟨w, some (t, .outcome o (.changed label :: stack))⟩) :
      ∃ m', m₀.Alone t stack operations m' ∧ m'.current = some (t, .outcome o stack) := by
    have hfirst := halone.own_outcome hcurrent (by simp [Control.frames]) (by simp) hf
    exact ⟨_, hfirst.own_outcome rfl (by simp [Control.frames]) (by simp)
      (Machine.step_changed_failed ho), rfl⟩
  have hsplit {above : List Frame} {f' : Frame}
      (hframes : m.frames t = some (above ++ f' :: .changed label :: stack)) : f = f' :=
    eq_of_frames_above (Option.some.inj ((Machine.frames_current hcurrent).symm.trans hframes))
  cases h with
  | drain _ _ _ _ _ hother | reached _ _ hother | missed _ _ hother | failing _ hother
  | ended hother => cases hcurrent.symm.trans hother
  | writing above _ _ hframes =>
      obtain rfl := hsplit hframes
      exact hdrained (Machine.step_unwritten ho)
  | asserting above _ _ hframes =>
      obtain rfl := hsplit hframes
      exact hdrained (Machine.step_failed ho)
  | last above _ hframes habove =>
      have heq := Option.some.inj ((Machine.frames_current hcurrent).symm.trans hframes)
      have habove' : [f, .changed label] = above := List.append_cancel_right heq
      have hserves := habove (.changed label) (by rw [← habove']; simp)
      cases hserves

/-! ## Ends of changes -/

/-- Whether all writes and assertions of a task come to a value, as long as nobody disturbs it. -/
def Machine.Passes (m : Machine) (t : TaskId) (stack : List Frame) : Prop :=
  ∀ operations m₁ work fs, m.Alone t stack operations m₁ → m₁.current = some (t, .work work fs) →
    work.operation?.isSome = true →
      ∃ operations' m₂ v, m₁.Alone t fs operations' m₂ ∧
        m₂.current = some (t, .outcome (.value v) fs)

/-- An operation that is called in a change comes to a value. -/
theorem Machine.Passes.operation {m₁ : Machine} {work : Work} (front : List Frame)
    (h : m₀.Passes t stack) (hreach : setup.Reaches g m₀) (halone : m₀.Alone t stack operations m₁)
    (hcurrent : m₁.current = some (t, .work work (front ++ stack)))
    (hwork : work.operation?.isSome = true) :
    ∃ operations' m₂ v, m₀.Alone t stack (operations ++ operations') m₂ ∧
      m₂.current = some (t, .outcome (.value v) (front ++ stack)) := by
  obtain ⟨operations', m₂, v, hrun, hend⟩ := h operations m₁ work _ halone hcurrent hwork
  exact ⟨operations', m₂, v,
    halone.trans hrun (hreach.steps halone.steps).sound (Machine.frames_work hcurrent), hend⟩

/-- A change whose drain has come to a value comes to one. -/
theorem Machine.Passes.ends_changed (h : m₀.Passes t stack) (hreach : setup.Reaches g m₀)
    (halone : m₀.Alone t stack operations m)
    (hcurrent : m.current = some (t, .outcome (.value v) (.changed label :: stack))) :
    ∃ operations' m' v', m₀.Alone t stack operations' m' ∧
      m'.current = some (t, .outcome (.value v') stack) := by
  by_cases hv : v = .text label
  · subst hv
    exact ⟨_, _, .nothing, halone.own_outcome hcurrent (by simp [Control.frames]) (by simp)
      Machine.step_changed_reached, rfl⟩
  · have hwrite := halone.own hcurrent (by simp [Control.frames]) (by simp)
      (Machine.step_changed_missed hv)
    obtain ⟨operations', m', v', hrun, hend⟩ := h.operation [] hreach hwrite rfl rfl
    exact ⟨_, m', v', hrun, hend⟩

/-- Where the drain is about to take the next label, the labels before it were written and
asserted. -/
theorem Changing.of_drain {last : Option String}
    (h : Changing m₀ t label stack files queue operations m)
    (hcurrent : m.current =
      some (t, .work (.drain (some label) false last) (.changed label :: stack))) :
    ∃ done, queue = done ++ m.world.queue ∧ operations = inTurn files done := by
  have hframes := Machine.frames_work hcurrent
  cases h with
  | drain done rest hqueue hlabel hlast hother hleft => exact ⟨done, hleft ▸ hqueue, rfl⟩
  | reached _ _ hother | missed _ _ hother | failing _ hother | ended hother =>
      cases hcurrent.symm.trans hother
  | writing above _ _ hother | asserting above _ _ hother =>
      cases eq_of_frames_above (Option.some.inj (hframes.symm.trans hother))
  | last above _ hother habove =>
      have heq : [.begin (.drain (some label) false last), .changed label] ++ stack = above ++ stack :=
        Option.some.inj (hframes.symm.trans hother)
      have hserves := habove (.changed label) (by rw [← List.append_cancel_right heq]; simp)
      cases hserves

/-- A change comes to a value if all its writes and assertions do. -/
theorem Machine.Passes.ends (h : m₀.Passes t stack) (hreach : setup.Reaches g m₀)
    (hbegins : m₀.current =
      some (t, .work (.drain (some label) false none) (.changed label :: stack)))
    (hstack : stack ≠ []) (n : Nat) {last : Option String} (hn : m.world.queue.length = n)
    (halone : m₀.Alone t stack operations m)
    (hcurrent : m.current =
      some (t, .work (.drain (some label) false last) (.changed label :: stack))) :
    ∃ operations' m' v, m₀.Alone t stack operations' m' ∧
      m'.current = some (t, .outcome (.value v) stack) := by
  induction n using Nat.strong_induction_on generalizing m operations last with
  | _ n ih =>
      cases hqueue : m.world.queue with
      | nil =>
          have hdry := halone.own_outcome hcurrent (by simp [Control.frames]) (by simp)
            (Machine.step_drain_nil last hqueue)
          exact h.ends_changed hreach hdry rfl
      | cons row rest =>
          obtain ⟨l, e⟩ := row
          have hwriting : m₀.Alone t stack (operations ++ [.write (m.world.labelFiles l)]) _ :=
            halone.own hcurrent (by simp [Control.frames]) (by simp)
              (Machine.step_drain_cons last hqueue)
          obtain ⟨operations₁, m₁, v₁, hwritten, hcurrent₁⟩ :=
            h.operation [.written (some label) false l e, .changed label] hreach hwriting rfl rfl
          have hasserting : m₀.Alone t stack (operations ++ [.write (m.world.labelFiles l)] ++
              operations₁ ++ [.assertion l e]) _ :=
            hwritten.own hcurrent₁ (by simp [Control.frames]) (by simp) (Machine.step_written v₁)
          obtain ⟨operations₂, m₂, v₂, hasserted, hcurrent₂⟩ :=
            h.operation [.asserted (some label) false l, .changed label] hreach hasserting rfl rfl
          have hstep := Machine.step_asserted m₂.world t (.changed label :: stack) (some label) false
            l v₂
          by_cases hl : label = l
          · subst hl
            rw [if_pos rfl] at hstep
            have hreached := hasserted.own_outcome hcurrent₂ (by simp [Control.frames]) (by simp) hstep
            exact h.ends_changed hreach hreached rfl
          · rw [if_neg fun heq => hl (Option.some.inj heq)] at hstep
            have hnext := hasserted.own hcurrent₂ (by simp [Control.frames]) (by simp) hstep
            -- Something was done since the label was taken, so that less is left.
            have hbefore := (Changing.of_alone hreach hbegins hstack (fun _ => rfl) rfl halone).1
            have hafter := (Changing.of_alone hreach hbegins hstack (fun _ => rfl) rfl hnext).1
            obtain ⟨done, hdone, hoperations⟩ := hbefore.of_drain hcurrent
            obtain ⟨done', hdone', hoperations'⟩ := hafter.of_drain rfl
            have hlength := congrArg List.length (hdone.symm.trans hdone')
            have hmore := congrArg List.length hoperations'
            have hfewer := congrArg List.length hoperations
            rw [length_inTurn] at hmore hfewer
            simp only [List.length_append, List.length_singleton] at hlength hmore
            have hless : (m₂.world.record (.asserted l false)).queue.length < n := by omega
            refine ih _ hless ?_ hnext rfl
            rfl

/-- The work that resolves a command has something under it, which takes the answer. -/
theorem Rule.calls_process {head : Head} {w w' : World} {turn : Turn} {p : Processor} {y : Yielded}
    {frames : List Frame} (h : Rule head w turn w') (hturn : turn = .call (.process p y) frames)
    (hbegin : ∀ o, head ≠ .frame (.begin (.process p y)) o) : frames ≠ [] := by
  cases h with
  | asks h => cases h <;> cases hturn
  | call hcall h =>
      cases hturn
      cases hcall with
      | begin => exact absurd rfl (hbegin _)
      | opened h =>
          cases h
          simp
  | @resume p' g reply adv _ _ h =>
      rcases resumed_cases p' g adv with ⟨reply, heq⟩ | heq | ⟨y, heq⟩ <;> rw [heq] at hturn <;>
        cases hturn
      simp
  | commanded hp hy hcall h =>
      cases hturn
      cases hcall
  | ready hlabel h =>
      cases hturn
      cases h
      simp
  | _ => cases hturn

/-- All that a change does as long as nobody disturbs it, from its drain on. -/
structure ExactChange (m : Machine) (t : TaskId) (label : String) (stack : List Frame)
    (files : String → Table Value) (queue : List (String × Expectation)) : Prop where
  begins : m.current =
    some (t, .work (.drain (some label) false none) (.changed label :: stack))
  /-- When it is over, it has written and asserted one pending label after the other, up to the label
  itself, or else has written the label after all of them. -/
  ends : ∀ operations m' o, m.Alone t stack operations m' →
    m'.current = some (t, .outcome o stack) →
      ChangeEnds m t label stack files queue operations m'.world.queue o
  /-- If it comes to a value, the label was written once, and by the last write. -/
  writes : ∀ operations m' v, m.Alone t stack operations m' →
    m'.current = some (t, .outcome (.value v) stack) → ∃ labels, label ∉ labels ∧
      operations.filterMap Operation.files? = (labels ++ [label]).map files
  /-- A write or an assertion that fails ends it, and nothing is done after that. -/
  fails : ∀ operations m' o f, m.Alone t stack operations m' → o.isValue = false →
    m'.current = some (t, .outcome o (f :: .changed label :: stack)) →
      ∃ m'', m.Alone t stack operations m'' ∧ m''.current = some (t, .outcome o stack)
  /-- If none fails, it comes to a value. -/
  passes : m.Passes t stack → ∃ operations m' v, m.Alone t stack operations m' ∧
    m'.current = some (t, .outcome (.value v) stack)

/-- A command that changes to a label does this, with the files and the pending expectations that
there are when it begins. -/
theorem change_exact {p : Processor} {y : Yielded} (h : setup.Reaches g m₀)
    (hcurrent : m₀.current = some (t, .work (.process p y) stack)) (hp : p.phase? = some .run)
    (hy : y.toCommand = .ok (.change (.label label))) :
    ∃ m, m₀.step = some m ∧
      ExactChange m t label stack m₀.world.labelFiles m₀.world.queue := by
  have hregistry : m₀.world.session.registry = .builtin true := h.registry
  let m : Machine := ⟨m₀.world.record (.handled .run (.change (.label label))),
    some (t, .work (.drain (some label) false none) (.changed label :: stack))⟩
  have hstep : m₀.step = some m := by
    obtain ⟨w, current⟩ := m₀
    cases hcurrent
    exact Machine.step_process_change hp hy hregistry
  have hreach : setup.Reaches g m := h.step hstep
  have hstack : stack ≠ [] := by
    obtain ⟨mₑ, hreachₑ, hstepₑ⟩ := h.cases_work hcurrent rfl
    obtain ⟨head, below, frames, new, w', hmoves, rfl, hbegin⟩ := hreachₑ.calls hstepₑ hcurrent rfl
    have hframes := hmoves.rule.calls_process rfl hbegin
    exact fun hnil => hframes (List.append_eq_nil_iff.mp hnil).1
  have hchanging {operations : List Operation} {m' : Machine}
      (halone : m.Alone t stack operations m') : Changing m t label stack m₀.world.labelFiles
        m₀.world.queue operations m' :=
    (Changing.of_alone hreach rfl hstack (fun _ => rfl) rfl halone).1
  refine ⟨m, hstep, rfl, ?_, ?_, ?_, ?_⟩
  · intro operations m' o halone hend
    exact (hchanging halone).ends hend
  · intro operations m' v halone hend
    exact ((hchanging halone).ends hend).writes
  · intro operations m' o f halone ho hfails
    exact (hchanging halone).fails halone ho hfails
  · intro hpasses
    exact hpasses.ends hreach rfl hstack _ rfl .refl rfl

end

/-- Whether a task is at a command that changes to a label. -/
private def changesTo (m : Machine) (t : TaskId) (label : String) (depth : Nat) : Bool :=
  match m.current with
  | some (u, .work (.process (.phase .run) (.command (.change (.label l)))) fs) =>
    u = t && l = label && fs.length = depth
  | _ => false

/-- Whether a task has come to a value. -/
private def comesToValue (m : Machine) (t : TaskId) (depth : Nat) : Bool :=
  match m.current with
  | some (u, .outcome (.value _) fs) => u = t && fs.length = depth
  | _ => false

/-- A change to the second of three labels: it comes to a value with the third one left, and has
written and asserted the first two. -/
theorem change_exact_idle : ∃ (m m' : Machine) (t : TaskId) (stack : List Frame)
    (operations : List Operation) (v : Value),
    (TestSetup.plainRun (changeScript idleHook) 26).step = some m ∧
      m.Alone t stack operations m' ∧ m'.current = some (t, .outcome (.value v) stack) ∧
      m'.world.queue.map Prod.fst = ["c"] ∧
      ExactChange m t "b" stack (TestSetup.plainRun (changeScript idleHook) 26).world.labelFiles
        (TestSetup.plainRun (changeScript idleHook) 26).world.queue := by
  have hchanges : changesTo (TestSetup.plainRun (changeScript idleHook) 26) 1 "b" 4 = true := by
    decide +kernel
  unfold changesTo at hchanges
  split at hchanges
  · next u l fs hcurrent =>
      simp only [Bool.and_eq_true, decide_eq_true_eq] at hchanges
      obtain ⟨⟨rfl, rfl⟩, hlength⟩ := hchanges
      have hreach := TestSetup.reaches_plainRun (changeScript idleHook) 26
      obtain ⟨m, hstep, hexact⟩ := change_exact hreach hcurrent rfl rfl
      have hm : m = TestSetup.plainRun (changeScript idleHook) 27 :=
        Option.some.inj (hstep.symm.trans (TestSetup.step_plainRun (by decide +kernel)))
      -- Nobody disturbs the change for the next twenty-three steps.
      obtain ⟨operations, halone⟩ : ∃ operations, m.Alone 1 fs operations (Machine.after 23 m) := by
        refine Machine.alone_after 23 ?_
        rw [hm, hlength]
        decide +kernel
      have hends : comesToValue (Machine.after 23 m) 1 4 = true := by
        rw [hm]
        decide +kernel
      unfold comesToValue at hends
      split at hends
      · next u v fs' hcurrent' =>
          simp only [Bool.and_eq_true, decide_eq_true_eq] at hends
          obtain ⟨rfl, hlength'⟩ := hends
          obtain ⟨above, habove⟩ := halone.frames
            [.begin (.drain (some "b") false none), .changed "b"] (hreach.step hstep).sound
            (Machine.frames_current hexact.begins)
          have heq : fs' = above ++ fs :=
            Option.some.inj ((Machine.frames_current hcurrent').symm.trans habove)
          have hnil : above = [] := by
            rw [heq, List.length_append, hlength] at hlength'
            exact List.length_eq_zero_iff.mp (by omega)
          rw [hnil, List.nil_append] at heq
          subst heq
          refine ⟨m, _, 1, fs', operations, v, hstep, halone, hcurrent', ?_, hexact⟩
          rw [hm]
          decide +kernel
      · cases hends
  · cases hchanges

end HotSpec
