import HotSpec.Proofs.Engine.Sound

/-!
# What is seen of a run

A run shows from outside what the environment is asked for, and the HTML that expectations are
compared with.  All else that a machine does is silent.

Main definitions:

- `Sight`: something that is seen.
- `Machine.Shows`: what is seen between two machines.

Main results:

- Theorem `Shows.trans`: what is seen of a run is seen of its parts, one after the other.
- Theorem `Shows.runTask`: a run that is seen up to the end of a task ends there.
-/

namespace HotSpec

/-- What is seen of a run: the environment is asked for something, or HTML is read for a label. -/
inductive Sight
  | reset (files : Table Value)
  | loadPage (url : String)
  | write (files : Table Value)
  | read (label : String) (html : Except Fault String)

/-- What is seen of an event: what the environment is asked for. -/
def Event.sight? : Event → Option Sight
  | .log (.reset files) => some (.reset files)
  | .log (.loadPage url) => some (.loadPage url)
  | .log (.write files) => some (.write files)
  | _ => none

namespace Machine

variable {m m' m₁ m₂ m₃ : Machine} {sights : List Sight}

/-- The HTML that is read in the next step. -/
def reading? (m : Machine) : Option Sight :=
  match m.current with
  | some (_, .work (.verify label e (.step i)) _) =>
    match e.steps[i]? with
    | some (.html _) => some (.read label m.world.rendered)
    | _ => none
  | _ => none

/-- What is seen of a step between two machines: the HTML that is read, and what is recorded. -/
def seen (m m' : Machine) : List Sight :=
  m.reading?.toList ++ (m'.world.events.drop m.world.events.length).filterMap Event.sight?

/-- What is seen between two machines, step after step. -/
inductive Shows : Machine → List Sight → Machine → Prop
  | refl (m : Machine) : Shows m [] m
  | step {m m' m'' : Machine} {sights : List Sight} (h : m.step = some m')
      (rest : Shows m' sights m'') : Shows m (m.seen m' ++ sights) m''

namespace Shows

theorem trans {first second : List Sight} (h₁ : m₁.Shows first m₂) (h₂ : m₂.Shows second m₃) :
    m₁.Shows (first ++ second) m₃ := by
  induction h₁ with
  | refl => exact h₂
  | step hstep _ ih =>
      rw [List.append_assoc]
      exact .step hstep (ih h₂)

/-- Something is seen after nothing was. -/
theorem silently (h₁ : m₁.Shows [] m₂) (h₂ : m₂.Shows sights m₃) : m₁.Shows sights m₃ :=
  h₁.trans h₂

/-- Nothing is seen after something was. -/
theorem then_silently (h₁ : m₁.Shows sights m₂) (h₂ : m₂.Shows [] m₃) : m₁.Shows sights m₃ := by
  simpa using h₁.trans h₂

theorem steps (h : m.Shows sights m') : m.Steps m' := by
  induction h with
  | refl => exact .refl _
  | step hstep _ ih => exact (Steps.single hstep).trans ih

theorem sound (h : m.Shows sights m') (hm : m.Sound) : m'.Sound :=
  h.steps.invariant hm fun _ _ hstep hm => hm.step hstep

/-- Something, or nothing, is seen of any run. -/
theorem of_steps (h : m.Steps m') : ∃ sights, m.Shows sights m' := by
  induction h using Relation.ReflTransGen.head_induction_on with
  | refl => exact ⟨[], .refl m'⟩
  | head hstep _ ih =>
      obtain ⟨sights, hshows⟩ := ih
      exact ⟨_, .step hstep hshows⟩

/-- A step is seen by what it reads and records. -/
theorem single (new : List Event) (h : m.step = some m')
    (hhistory : m'.world.history = new ++ m.world.history) :
    m.Shows (m.reading?.toList ++ new.reverse.filterMap Event.sight?) m' := by
  have hdrop : m'.world.events.drop m.world.events.length = new.reverse := by
    unfold World.events
    rw [hhistory, List.reverse_append, List.length_reverse, List.drop_left' (by simp)]
  have hseen : m.seen m' = m.reading?.toList ++ new.reverse.filterMap Event.sight? := by
    unfold seen
    rw [hdrop]
  have hshows := Shows.step h (.refl m')
  rwa [hseen, List.append_nil] at hshows

/-- A step that reads nothing and records nothing of interest is silent. -/
theorem silent (new : List Event) (h : m.step = some m')
    (hhistory : m'.world.history = new ++ m.world.history) (hreading : m.reading? = none)
    (hnew : ∀ e ∈ new, e.sight? = none) : m.Shows [] m' := by
  have hshows := single new h hhistory
  rw [hreading, List.filterMap_eq_nil_iff.mpr fun e he => hnew e (List.mem_reverse.mp he)] at hshows
  exact hshows

/-- A step that reads and records nothing is silent. -/
theorem mute (h : m.step = some m') (hhistory : m'.world.history = m.world.history)
    (hreading : m.reading? = none) : m.Shows [] m' :=
  silent [] h hhistory hreading (by simp)

end Shows

/-! ## Steps of a task -/

variable {w : World} {t : TaskId} {stack : List Frame}

/-- A task that is at a piece of work does it. -/
theorem step_work (w : World) (t : TaskId) (work : Work) (stack : List Frame) :
    step ⟨w, some (t, .work work stack)⟩ =
      some (follow t stack (work.run.run w).1 (work.run.run w).2) := rfl

/-- A task that resumes a script goes on with what the script comes to. -/
theorem step_resume (w : World) (t : TaskId) (p : Processor) (g : Nat) (reply : Reply)
    (stack : List Frame) : step ⟨w, some (t, .work (.resume p g reply) stack)⟩ =
      some (follow t stack (resumed p g (w.advance g reply).1) (w.advance g reply).2) := by
  rw [step_work]
  simp only [Work.run, run_resume]

/-- A task that is at an outcome goes on with its first frame. -/
theorem step_outcome (w : World) (t : TaskId) (o : Outcome) (frame : Frame) (stack : List Frame) :
    step ⟨w, some (t, .outcome o (frame :: stack))⟩ =
      some (follow t stack ((frame.take o).run w).1 ((frame.take o).run w).2) := rfl

/-- A task that is at an outcome without a frame is over. -/
theorem step_finish (w : World) (t : TaskId) (o : Outcome) :
    step ⟨w, some (t, .outcome o [])⟩ = some ⟨w.withScheduler (·.finish t o), none⟩ := rfl

/-! ## Ends of runs -/

/-- A run of a task that has not ended goes on. -/
theorem runTask_step {f : FutureId} {n : Nat} (h : m.step = some m')
    (hopen : m.world.scheduler.outcome? f = none) : runTask f (n + 1) m = runTask f n m' := by
  rw [runTask]
  split
  · next o _ ho =>
      rw [hopen] at ho
      cases ho
  · rw [h]

/-- A machine keeps its futures and tasks, and may come to have more. -/
theorem Steps.extends (hm : m.Sound) (h : m.Steps m') :
    ∃ more, m.world.scheduler.Extends more m'.world.scheduler := by
  refine (Steps.invariant (P := fun m₁ => m₁.Sound ∧
    ∃ more, m.world.scheduler.Extends more m₁.world.scheduler) h
    ⟨hm, 0, (Scheduler.Grows.refl _).toExtends⟩ ?_).2
  rintro m₁ m₂ hstep ⟨hsound, more, hextends⟩
  refine ⟨hsound.step hstep, ?_⟩
  rcases hsound.moves_or_rests hstep with ⟨t, head, stack, turn, new, w', hmoves⟩ | hrests
  · exact ⟨_, hextends.trans hmoves.grows⟩
  · exact ⟨_, hextends.trans hrests.grows⟩

/-- A run that is seen up to the end of a task ends there. -/
theorem Shows.runTask {f : FutureId} {o : Outcome} (h : m.Shows sights m') (hm : m.Sound)
    (hopen : m'.world.scheduler.outcome? f = none) (hstep : m'.step = some ⟨w, none⟩)
    (hend : w.scheduler.outcome? f = some o) : ∃ n, Machine.runTask f n m = .done o w := by
  induction h with
  | refl =>
      refine ⟨2, ?_⟩
      rw [runTask_step hstep hopen, Machine.runTask]
      simp only [hend]
  | @step m m' _ _ hfirst hrest ih =>
      obtain ⟨n, hn⟩ := ih (hm.step hfirst) hopen hstep
      refine ⟨n + 1, ?_⟩
      rw [runTask_step hfirst, hn]
      -- A future that is open at the end was open before.
      by_contra hsettled
      obtain ⟨o', ho'⟩ := Option.ne_none_iff_exists'.mp hsettled
      obtain ⟨more, hextends⟩ := Steps.extends hm ((Steps.single hfirst).trans hrest.steps)
      have hlast := hextends.settled f o' ho'
      rw [hopen] at hlast
      cases hlast

end Machine

end HotSpec
