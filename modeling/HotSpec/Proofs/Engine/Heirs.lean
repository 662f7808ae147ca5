import HotSpec.Proofs.Engine.Course

/-!
# The heirs of a task

The tasks that a task has started, with all that they have started in turn.  Since whoever starts others
waits for them, all of these have ended when the task is at anything else than such a wait, and none of
them has a turn from then on, whatever was cancelled in the meantime.

Main definitions:

- `Machine.Starts`: a task that was started by another one.
- `Machine.Heir`: the tasks that a task has started, and their heirs.

Main results:

- Theorem `Tidy.held`: a task waits for those that it has started as long as they have not ended.
- Theorem `Tidy.heirs_ended`: the heirs of a task that waits for nobody have ended.
-/

namespace HotSpec

namespace Machine

variable {m m' : Machine} {t u : TaskId}

/-- Whether a task was started by another one on the way from a machine to a later one. -/
inductive Starts (m m' : Machine) (t u : TaskId) : Prop
  | intro {m₁ m₂ : Machine} (before : m.Course m₁) (step : m₁.step = some m₂) (after : m₂.Course m')
      (turn : m₁.current.map Prod.fst = some t) (new : m₁.world.scheduler.tasks.length ≤ u)
      (started : u < m₂.world.scheduler.tasks.length)

/-- The tasks that a task has started on the way from a machine to a later one, with all that these
have started in turn. -/
inductive Heir (m m' : Machine) (t : TaskId) : TaskId → Prop
  | child {u : TaskId} (h : m.Starts m' t u) : Heir m m' t u
  | further {u v : TaskId} (hu : Heir m m' t u) (h : m.Starts m' u v) : Heir m m' t v

/-- A task waits for a future as long as it is open. -/
theorem Tidy.holds (h : m.Tidy) (hcourse : m.Course m') {f : Frame} {fs : List Frame} {i : FutureId}
    (hfs : m.frames t = some (f :: fs)) (hi : i ∈ f.gathered)
    (hopen : m'.world.scheduler.outcome? i = none) :
    ∃ f fs, m'.frames t = some (f :: fs) ∧ i ∈ f.gathered := by
  induction hcourse with
  | refl => exact ⟨f, fs, hfs, hi⟩
  | @tail m₁ m₂ hfirst hlast ih =>
      have hm₁ := Course.tidy hfirst h
      have hbefore {more : Nat}
          (hgrows : m₁.world.scheduler.Extends more m₂.world.scheduler) :
          m₁.world.scheduler.outcome? i = none := by
        by_contra hsettled
        exact hgrows.still hsettled hopen
      rcases hlast.moves_or_leaves hm₁.sound with ⟨v, head, stack, turn, new, w', hmoves⟩ | hleaves
      · have hopen₁ := hbefore hmoves.grows
        obtain ⟨f₁, fs₁, hfs₁, hi₁⟩ := ih hopen₁
        exact hm₁.gathers.holds hm₁.sound hmoves hfs₁ hi₁ hopen₁
      · obtain ⟨f₁, fs₁, hfs₁, hi₁⟩ := ih (hbefore hleaves.grows)
        exact ⟨f₁, fs₁, (hleaves.frames t).trans hfs₁, hi₁⟩

/-- A task waits for those that it has started as long as they have not ended. -/
theorem Tidy.held (h : m.Tidy) (hstarts : m.Starts m' t u) (hopen : m'.endOf u = none) :
    ∃ f fs i, m'.frames t = some (f :: fs) ∧ i ∈ f.gathered ∧
      m'.world.scheduler.kind i = .task u := by
  obtain ⟨hbefore, hstep, hafter, hturn, hnew, hstarted⟩ := hstarts
  rename_i m₁ m₂
  have hm₁ := hbefore.tidy h
  have hm₂ := hm₁.step hstep
  have hm' := hafter.tidy hm₂
  rcases hm₁.sound.moves_or_rests hstep with ⟨v, head, stack, turn, new, w', hmoves⟩ | hrests
  · obtain ⟨i, hk⟩ := hm₂.sound.exists_ending hstarted
    obtain ⟨-, members, results, frames, heq, hi⟩ := hmoves.spawned hm₁.sound hk hnew
    have hvt : v = t := by
      rw [hmoves.current] at hturn
      exact Option.some.inj hturn
    subst hvt
    have hfs : m₂.frames v = some (.joined members results :: (frames ++ stack)) := by
      rw [hmoves.frames_self, heq]
      rfl
    obtain ⟨more, hgrows⟩ := hafter.grows hm₂
    have hk' := hgrows.task hk
    rw [hm'.sound.endOf_eq hk'] at hopen
    obtain ⟨f, fs, hfs', hi'⟩ := hm₂.holds hafter hfs hi hopen
    exact ⟨f, fs, i, hfs', hi', hk'⟩
  · rw [hrests.grows.tasks] at hstarted
    exact absurd hstarted (Nat.not_lt.mpr hnew)

/-- The heirs of a task that waits for nobody have ended. -/
theorem Tidy.heirs_ended (h : m.Tidy) (hcourse : m.Course m')
    (hrest : ∀ f fs, m'.frames t = some (f :: fs) → f.gathered = []) (hu : m.Heir m' t u) :
    m'.endOf u ≠ none := by
  have hm' := hcourse.tidy h
  induction hu with
  | child hstarts =>
      intro hopen
      obtain ⟨f, fs, i, hfs, hi, -⟩ := h.held hstarts hopen
      rw [hrest f fs hfs] at hi
      cases hi
  | further _ hstarts ih =>
      intro hopen
      obtain ⟨f, fs, i, hfs, -, -⟩ := h.held hstarts hopen
      exact ih (hm'.gathers.endOf_of_frames hm'.sound hfs)

end Machine

end HotSpec
