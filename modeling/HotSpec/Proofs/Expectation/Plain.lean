import HotSpec.Proofs.Engine.Passing
import HotSpec.Proofs.Spec.Plain

/-!
# Plain expectations are asserted in turn

Where pending expectations ask for plain HTML only, they are asserted strictly in their order: the
files of each are written, then the HTML is read once and compared with what is asked for.  The first
that is not met ends it, and nothing is written for those after it.

Main definitions:

- `Asserted`: expectations, the HTML that was read for them, and what that comes to.

Main results:

- Theorem `shows_verify`: a plain expectation reads the HTML once.
- Theorem `shows_drain`: pending expectations are written and asserted in turn.
-/

namespace HotSpec

/-- The HTML that was read for expectations in their order, and the outcome: all of them have been met,
or the last one that was asserted has not. -/
inductive Asserted :
    List (String × Expectation) → List (String × Except Fault String) → Outcome → Prop
  | all {v : Value} : Asserted [] [] (.value v)
  | met {label html : String} {e : Expectation} {rows : List (String × Expectation)}
      {reads : List (String × Except Fault String)} {o : Outcome} (h : e.plain? = some html)
      (rest : Asserted rows reads o) : Asserted ((label, e) :: rows) ((label, .ok html) :: reads) o
  | unmet {label html : String} {e : Expectation} {rows : List (String × Expectation)}
      {read : Except Fault String} {fault : Fault} (h : e.plain? = some html)
      (hread : read ≠ .ok html) (hfault : fault.kind = .assertion) :
      Asserted ((label, e) :: rows) [(label, read)] (.fault fault)

theorem Asserted.isStopped {rows : List (String × Expectation)}
    {reads : List (String × Except Fault String)} {o : Outcome} (h : Asserted rows reads o) :
    o.isStopped = false := by
  induction h with
  | all | unmet => rfl
  | met _ _ ih => exact ih

theorem Expectation.eq_of_plain {e : Expectation} {html : String} (h : e.plain? = some html) :
    ∃ title, e = ⟨title, none, none, [.html (.exact html)]⟩ := by
  obtain ⟨title, before, after, steps⟩ := e
  unfold plain? at h
  split at h
  · next heq =>
      cases h
      cases heq
      exact ⟨_, rfl⟩
  · cases h

/-! ## A single expectation -/

namespace World

variable {w : World} {label : String} {e : Expectation} {stage : Stage} {element : Value}
  {html : String} {fault : Fault}

/-- HTML that cannot be read lacks what it has to start with. -/
theorem kind_of_rendered (h : w.rendered = .error fault) : fault.kind = .assertion := by
  have hmismatch {r : Except Html.Mismatch String} (hr : r.mapError .mismatch = .error fault) :
      fault.kind = .assertion := by
    cases r <;> cases hr
    rfl
  unfold rendered at h
  simp only at h
  split at h
  · cases h
  · split at h
    · split at h
      · exact hmismatch h
      · cases h
    · cases h

theorem kind_blame (h : fault.kind = .assertion) :
    (w.blame label e stage element fault).kind = .assertion := by
  unfold blame
  rw [if_pos h]
  rfl

/-- HTML meets a text if it is equal to it, and fails the assertion if it is not. -/
theorem htmlFault?_exact (w : World) (label : String) (e : Expectation) (stage : Stage)
    (html : String) : w.rendered = .ok html ∧ w.htmlFault? label e stage (.exact html) = none ∨
      w.rendered ≠ .ok html ∧ ∃ fault, w.htmlFault? label e stage (.exact html) = some fault ∧
        fault.kind = .assertion := by
  unfold htmlFault?
  cases hread : w.rendered with
  | error fault => exact .inr ⟨by simp, _, rfl, kind_blame (kind_of_rendered hread)⟩
  | ok actual =>
      by_cases heq : actual = html
      · subst heq
        exact .inl ⟨rfl, by simp [Html.Expected.check]⟩
      · have hcheck : Html.Expected.check actual (.exact html) = .error (.whole html actual) := by
          simp only [Html.Expected.check, if_neg heq]
        refine .inr ⟨by simpa using heq, ?_⟩
        simp only [hcheck]
        exact ⟨_, rfl, kind_blame rfl⟩

end World

namespace Machine

open World

variable {w : World} {t : TaskId} {stack : List Frame} {label html : String} {e : Expectation}

/-- A plain expectation reads the HTML once, and is met if that is what it asks for. -/
theorem shows_verify (w : World) (t : TaskId) (label : String) (stack : List Frame)
    (h : e.plain? = some html) :
    ∃ o, Shows ⟨w, some (t, .work (.verify label e .before) stack)⟩ [.read label w.rendered]
        ⟨w.record (.asserting label), some (t, .outcome o stack)⟩ ∧
      (w.rendered = .ok html ∧ o = .finished ∨
        w.rendered ≠ .ok html ∧ ∃ fault, o = .fault fault ∧ fault.kind = .assertion) := by
  obtain ⟨title, rfl⟩ := Expectation.eq_of_plain h
  let e : Expectation := ⟨title, none, none, [.html (.exact html)]⟩
  let w₁ := w.record (.asserting label)
  have hbefore : step ⟨w, some (t, .work (.verify label e .before) stack)⟩ =
      some ⟨w₁, some (t, .work (.verify label e (.step 0)) stack)⟩ := rfl
  have hstart := Shows.silent [.asserting label] hbefore rfl rfl (by simp [Event.sight?])
  have hread (turn : Turn)
      (hrun : (Move.verify label e (.step 0)).run w₁ = (turn, w₁)) (o : Outcome)
      (hrest : Shows (follow t stack turn w₁) [] ⟨w₁, some (t, .outcome o stack)⟩)
      (hworld : (follow t stack turn w₁).world = w₁) :
      Shows ⟨w, some (t, .work (.verify label e .before) stack)⟩ [.read label w.rendered]
        ⟨w₁, some (t, .outcome o stack)⟩ := by
    have hstep : step ⟨w₁, some (t, .work (.verify label e (.step 0)) stack)⟩ =
        some (follow t stack turn w₁) := by
      rw [step_work]
      simp only [Work.run, hrun]
    have hsingle := Shows.single [] hstep (by rw [hworld]; rfl)
    exact hstart.silently (hsingle.then_silently hrest)
  rcases htmlFault?_exact w₁ label e (.step 0) html with
    ⟨hmeets, hnone⟩ | ⟨hdiffers, fault, hfault, hkind⟩
  · have hrun : (Move.verify label e (.step 0)).run w₁ =
        (.call (.verify label e .after) [], w₁) := by
      simp only [Move.verify, List.getElem?_cons_zero, StateT.run_bind, StateT.run_get, pure_bind, e,
        hnone]
      rfl
    have hafter : step ⟨w₁, some (t, .work (.verify label e .after) stack)⟩ =
        some ⟨w₁, some (t, .outcome .finished stack)⟩ := rfl
    exact ⟨.finished, hread _ hrun _ (.mute hafter rfl rfl) rfl, .inl ⟨hmeets, rfl⟩⟩
  · have hrun : (Move.verify label e (.step 0)).run w₁ = (.fail fault, w₁) := by
      simp only [Move.verify, List.getElem?_cons_zero, StateT.run_bind, StateT.run_get, pure_bind, e,
        hfault]
      rfl
    exact ⟨.fault fault, hread _ hrun _ (.refl _) rfl, .inr ⟨hdiffers, fault, rfl, hkind⟩⟩

/-! ## Pending expectations -/

/-- The files of a label as they are written. -/
def filesOf (w : World) (label : String) : Table Value :=
  (w.session.variantFiles label).map fun (path, text) => (path, .text text)

/-- What is seen of expectations that are written and asserted in turn. -/
def writesAndReads (files : String → Table Value) (reads : List (String × Except Fault String)) :
    List Sight :=
  reads.flatMap fun (label, html) => [.write (files label), .read label html]

theorem filesOf_flows {w w' : World} (h : w.Flows w') : filesOf w' = filesOf w := by
  obtain ⟨pending, hd⟩ := h.drifts
  funext label
  unfold filesOf
  rw [hd.session]
  rfl

/-- The first of the pending expectations is taken. -/
theorem flows_pop {rows : List (String × Expectation)} {new : List Event} (hl : w.Lone t) :
    w.Flows { w with session := { w.session with pending := some rows }, history := new } :=
  ⟨⟨some rows, .aside _ _ _ _⟩, .refl hl.idle⟩

/-- What a drain does first, by what is pending. -/
theorem step_drain (w : World) (t : TaskId) (stack : List Frame) (until? : Option String) (already : Bool) (last : Option String) :
    step ⟨w, some (t, .work (.drain until? already last) stack)⟩ =
      match w.session.pop? with
      | none => some ⟨w, some (t, .outcome (.value (Value.ofText? last)) stack)⟩
      | some ((label, e), session) =>
        let w₁ := ({ w with session } : World).record (.popped label)
        if already then
          some ⟨w₁, some (t, .work (.verify label e .before) (.asserted until? already label :: stack))⟩
        else
          some ⟨w₁.record (.writing label), some (t, .work (.write (filesOf w₁ label))
            (.written until? already label e :: stack))⟩ := by
  rw [step_work]
  have hrun : (Move.drain until? already last).run w = (match w.session.pop? with
      | none => (return Move.lastLabel last : Move)
      | some ((label, e), session) => do
        set (({ w with session } : World).record (.popped label))
        if already then return .call (.verify label e .before) [.asserted until? already label]
        else Move.writeVariant label [.written until? already label e]) w := rfl
  simp only [Work.run, hrun]
  cases w.session.pop? with
  | none => rfl
  | some popped => cases already <;> rfl

/-- After the last expectation that was asked for a drain is over, and after another it goes on. -/
theorem step_asserted (w : World) (t : TaskId) (stack : List Frame) (until? : Option String) (already : Bool) (label : String) (v : Value) :
    step ⟨w, some (t, .outcome (.value v) (.asserted until? already label :: stack))⟩ =
      some ⟨w.record (.asserted label false), some (t,
        if until? = some label then .outcome (.value (.text label)) stack
        else .work (.drain until? already (some label)) stack)⟩ := by
  have hrun : (Move.asserted until? already label (.value v)).run w =
      (if until? = some label then (return Move.lastLabel (some label) : Move)
        else return .call (.drain until? already (some label)) []) (w.record (.asserted label false)) :=
    rfl
  rw [step_outcome]
  simp only [Frame.take, hrun]
  by_cases huntil : until? = some label
  · simp only [if_pos huntil]
    rfl
  · simp only [if_neg huntil]
    rfl

/-- Pending plain expectations are written and asserted in turn, up to the first that is not met. -/
theorem shows_drain {rows : List (String × Expectation)} {last : Option String}
    (hpending : w.session.pending = some rows)
    (hplain : ∀ row ∈ rows, ∃ html, row.2.plain? = some html) (he : w.environment.Quiet)
    (hm : Machine.Sound ⟨w, some (t, .work (.drain none false last) stack)⟩) (hl : w.Lone t) :
    ∃ w' reads o, Shows ⟨w, some (t, .work (.drain none false last) stack)⟩
        (writesAndReads (filesOf w) reads) ⟨w', some (t, .outcome o stack)⟩ ∧
      w.Flows w' ∧ Asserted rows reads o := by
  induction rows generalizing w last with
  | nil =>
      have hstep := step_drain w t stack none false last
      have hpop : w.session.pop? = none := by simp [Session.pop?, hpending]
      rw [hpop] at hstep
      exact ⟨w, [], _, .mute hstep rfl rfl, hl.refl.flows, .all⟩
  | cons row rows ih =>
      obtain ⟨label, e⟩ := row
      obtain ⟨html, hhtml⟩ := hplain (label, e) (List.mem_cons_self ..)
      have hstep := step_drain w t stack none false last
      have hpop : w.session.pop? = some ((label, e), { w.session with pending := some rows }) := by
        simp [Session.pop?, hpending]
      rw [hpop] at hstep
      simp only [Bool.false_eq_true, if_false] at hstep
      let w₁ : World := { w with
        session := { w.session with pending := some rows }
        history := .writing label :: .popped label :: w.history }
      have hflows₁ : w.Flows w₁ := flows_pop hl
      have hshows₁ := Shows.silent [.writing label, .popped label] hstep rfl rfl
        (by simp [Event.sight?])
      have hl₁ := hflows₁.lone hl
      -- The files are written.
      obtain ⟨w₂, hshows₂, hpasses₂⟩ := shows_write (w := w₁) he (hshows₁.sound hm) hl₁
      let w₃ := w₂.record (.settled label)
      have hwritten : step ⟨w₂, some (t, .outcome .finished (.written none false label e :: stack))⟩ =
          some ⟨w₃, some (t, .work (.verify label e .before) (.asserted none false label :: stack))⟩ :=
        rfl
      have hshows₃ := hshows₁.silently (hshows₂.then_silently
        (.silent [.settled label] hwritten rfl rfl (by simp [Event.sight?])))
      have hl₂ := hpasses₂.lone hl₁
      have hflows₃ : w.Flows (w₃.record (.asserting label)) :=
        hflows₁.trans (hpasses₂.trans (hl₂.aside w₂.site _)).flows
      -- The HTML is read and compared.
      obtain ⟨o, hshows₄, hmet⟩ := shows_verify w₃ t label
        (.asserted none false label :: stack) hhtml
      have hshows := hshows₃.trans hshows₄
      rcases hmet with ⟨hmet, rfl⟩ | ⟨hunmet, fault, rfl, hkind⟩
      · have hnext := step_asserted (w₃.record (.asserting label)) t stack none false label .nothing
        simp only [reduceCtorEq, if_false] at hnext
        let w₅ := (w₃.record (.asserting label)).record (.asserted label false)
        have hflows₅ : w.Flows w₅ :=
          hflows₃.trans ((hflows₃.lone hl).aside w₂.site _).flows
        have hshows₅ := hshows.then_silently
          (.silent [.asserted label false] hnext rfl rfl (by simp [Event.sight?]))
        have hpending₅ : w₅.session.pending = some rows := by
          change w₂.session.pending = _
          rw [hpasses₂.session]
        have he₅ : w₅.environment.Quiet := by
          change w₂.environment.Quiet
          rw [hpasses₂.environment]
          exact he
        obtain ⟨w', reads, o, hrest, hflows, hasserted⟩ := ih hpending₅
          (fun row hrow => hplain row (List.mem_cons_of_mem _ hrow)) he₅ (hshows₅.sound hm)
          (hflows₅.lone hl)
        refine ⟨w', (label, .ok html) :: reads, o, ?_, hflows₅.trans hflows, .met hhtml hasserted⟩
        have hall := hshows₅.trans hrest
        rw [hmet, filesOf_flows hflows₅] at hall
        exact hall
      · have hend : step ⟨w₃.record (.asserting label),
            some (t, .outcome (.fault fault) (.asserted none false label :: stack))⟩ =
              some ⟨(w₃.record (.asserting label)).record (.asserted label true),
                some (t, .outcome (.fault fault) stack)⟩ := rfl
        refine ⟨_, [(label, w₃.rendered)], _, hshows.then_silently (.silent [.asserted label true] hend
          rfl rfl (by simp [Event.sight?])), ?_, .unmet hhtml hunmet hkind⟩
        exact hflows₃.trans ((hflows₃.lone hl).aside w₂.site _).flows

end Machine

end HotSpec
