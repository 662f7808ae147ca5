import HotSpec.Proofs.Engine.Sound
import Mathlib

/-!
# Where the script of a test stands

The script of a test is the first that begins, and stays in its place.  Only who resumes it moves it
on, and once it is over it has nothing more to say.

Main definitions:

- `World.Ended`: whether the script of the test is over.

Main results:

- Theorem `ended_of_advance`: a script that ends is over.
- Theorem `advance_of_ended`: a script that is over has nothing more to say.
- Theorem `script_of_step`: only a step that resumes the script changes where it stands.
-/

namespace HotSpec

namespace World

variable {w w' : World} {s : Generator}

theorem generators_settle (w : World) (f : Option FutureId) (o : Outcome) :
    (w.settle f o).generators = w.generators := by cases f <;> rfl

theorem generators_passVerdict (w : World) (before after : Option (Option Fault)) :
    (w.passVerdict before after).generators = w.generators := by
  unfold passVerdict
  split
  · exact generators_settle ..
  · exact generators_settle ..
  · rfl

theorem generators_tellMonitor (w : World) (signal : Monitor.Signal) :
    (w.tellMonitor signal).generators = w.generators := by
  rcases hstep : w.monitor.step w.session.console signal with ⟨monitor, reaction⟩
  have hdetach : (if reaction.detach then { w with monitor }.unlistenMonitor
      else { w with monitor }).generators = w.generators := by
    split <;> rfl
  unfold tellMonitor
  rw [hstep]
  refine (generators_passVerdict _ _ _).trans ?_
  cases reaction.timer with
  | none => exact hdetach
  | some error => exact hdetach

/-- Scripts that have begun stay in their places. -/
theorem Act.generators (h : w.Act w') : w.generators <+: w'.generators := by
  cases h with
  | begin r => exact List.prefix_append _ _
  | tell signal =>
      rw [generators_tellMonitor]
  | signal =>
      rw [generators_settle]
      exact List.prefix_refl _
  | meet | release => rw [generators_settle]
  | _ => exact List.prefix_refl _

theorem Sets.generators (h : w.Sets w') : w.generators <+: w'.generators :=
  h.keeps (R := fun w w' => w.generators <+: w'.generators) (fun _ => List.prefix_refl _)
    List.IsPrefix.trans Act.generators fun _ _ => List.prefix_refl _

theorem Acts.generators (h : w.Acts w') : w.generators <+: w'.generators := h.sets.generators

/-- Whatever is done at once leaves the script of the test where it stands. -/
theorem Sets.script (h : w.Sets w') (hs : w.generators[scriptNumber]? = some s) :
    w'.generators[scriptNumber]? = some s := by
  obtain ⟨more, hmore⟩ := h.generators
  rw [← hmore]
  exact List.getElem?_append_left (List.getElem?_eq_some_iff.mp hs).1 ▸ hs

theorem Acts.script (h : w.Acts w') (hs : w.generators[scriptNumber]? = some s) :
    w'.generators[scriptNumber]? = some s := h.sets.script hs

/-- Whether the script of the test is over. -/
def Ended (w : World) : Prop := ∃ s, w.generators[scriptNumber]? = some s ∧ s.progress = .ended

theorem setProgress_length (w : World) (g : Nat) (p : Progress) :
    (w.setProgress g p).generators.length = w.generators.length := by
  unfold setProgress
  split
  · exact List.length_set
  · rfl

theorem setProgress_of_ne {g : Nat} (hg : g ≠ scriptNumber) (w : World) (p : Progress) :
    (w.setProgress g p).generators[scriptNumber]? = w.generators[scriptNumber]? := by
  unfold setProgress
  split
  · exact List.getElem?_set_ne hg
  · rfl

theorem ended_setProgress (h : scriptNumber < w.generators.length) :
    (w.setProgress scriptNumber .ended).Ended := by
  obtain ⟨s, hs⟩ : ∃ s, w.generators[scriptNumber]? = some s :=
    ⟨_, List.getElem?_eq_getElem h⟩
  unfold Ended setProgress
  rw [hs]
  exact ⟨{ s with progress := .ended }, List.getElem?_set_self h, rfl⟩

/-- A script that is over has nothing more to say. -/
theorem advance_of_ended (h : w.Ended) (reply : Reply) :
    ∃ reply', w.advance scriptNumber reply = (.ends reply', w) ∧
      ∀ fault, reply = .error fault → reply' = .error fault := by
  obtain ⟨⟨name, answer, progress⟩, hs, rfl⟩ := h
  unfold advance
  rw [hs]
  cases reply with
  | ok v => exact ⟨.ok .nothing, rfl, by rintro fault ⟨⟩⟩
  | error fault => exact ⟨.error fault, rfl, by rintro _ ⟨⟩; rfl⟩

theorem Sets.script_lt (h : w.Sets w') (hlt : scriptNumber < w.generators.length) :
    scriptNumber < w'.generators.length := Nat.lt_of_lt_of_le hlt h.generators.length_le

theorem Acts.script_lt (h : w.Acts w') (hlt : scriptNumber < w.generators.length) :
    scriptNumber < w'.generators.length := h.sets.script_lt hlt

/-- Instructions that come to the end of the script leave it over. -/
theorem ended_of_follow {name : String} {answer : Value} {index : Nat} {script : Script}
    {reply : Reply} (h : follow scriptNumber name answer index script w = (.ends reply, w'))
    (hlt : scriptNumber < w.generators.length) : w'.Ended := by
  induction script generalizing index w with
  | nil =>
      cases h
      exact ended_setProgress (((Engine.acting_make _).acts w).script_lt hlt)
  | cons instruction rest ih =>
      cases instruction with
      | act action =>
          have hacts := ((Engine.acting_act action).acts w).script_lt hlt
          unfold follow at h
          rcases hexec : (Engine.act action).exec w with ⟨fault | _, w₁⟩
          · simp only [hexec] at h hacts
            cases h
            exact ended_setProgress hacts
          · simp only [hexec] at h hacts
            exact ih h hacts
      | stop value =>
          cases h
          exact ended_setProgress (((Engine.acting_make _).acts w).script_lt hlt)
      | ask request caught wanted =>
          have hacts := ((Engine.acting_make request.build).acts w).script_lt hlt
          unfold follow at h
          rcases hexec : (Engine.make request.build).exec w with ⟨fault | y, w₁⟩
          · simp only [hexec] at h hacts
            split at h
            · exact ih h hacts
            · cases h
              exact ended_setProgress hacts
          · simp only [hexec] at h
            cases h

/-- A script that ends is over. -/
theorem ended_of_advance {reply reply' : Reply}
    (h : w.advance scriptNumber reply = (.ends reply', w'))
    (hlt : scriptNumber < w.generators.length) : w'.Ended := by
  obtain ⟨⟨name, answer, progress⟩, hs⟩ : ∃ s, w.generators[scriptNumber]? = some s :=
    ⟨_, List.getElem?_eq_getElem hlt⟩
  unfold advance at h
  rw [hs] at h
  have hends (reply₁ : Reply) (h : w.endScript scriptNumber reply₁ = (.ends reply', w')) :
      w'.Ended := by
    cases h
    exact ended_setProgress hlt
  cases progress with
  | ended => cases reply <;> cases h <;> exact ⟨_, hs, rfl⟩
  | before index rest =>
      cases reply with
      | ok v => exact ended_of_follow h hlt
      | error fault => exact hends _ h
  | commands rest =>
      cases reply with
      | error fault => cases rest <;> exact hends _ h
      | ok v =>
          cases rest with
          | nil => exact hends _ h
          | cons c rest => cases h
  | waiting index caught wanted rest =>
      cases reply with
      | ok v =>
          simp only at h
          split at h
          · cases h
            exact ended_setProgress hlt
          · exact ended_of_follow h hlt
      | error fault =>
          simp only at h
          split at h
          · exact ended_of_follow h hlt
          · exact hends _ h

/-- A script that goes on stays in its place, and another one leaves it. -/
theorem Advances.script {g : Nat} {adv : Advance} (h : w.Advances g adv w') :
    (g ≠ scriptNumber → w.generators[scriptNumber]? = some s →
      w'.generators[scriptNumber]? = some s) ∧
    (scriptNumber < w.generators.length → scriptNumber < w'.generators.length) := by
  cases h with
  | stays h => exact ⟨fun _ hs => h.script hs, h.script_lt⟩
  | ends h =>
      refine ⟨fun hg hs => (setProgress_of_ne hg _ _).trans (h.script hs), fun hlt => ?_⟩
      rw [setProgress_length]
      exact h.script_lt hlt
  | yields h =>
      refine ⟨fun hg hs => (setProgress_of_ne hg _ _).trans (h.script hs), fun hlt => ?_⟩
      change _ < (setProgress _ _ _).generators.length
      rw [setProgress_length]
      exact h.script_lt hlt

end World

/-- A rule that resumes no script leaves all scripts where they stand. -/
theorem Rule.generators {head : Head} {w w' : World} {turn : Turn} (h : Rule head w turn w')
    (hhead : ∀ p g reply, head ≠ .work (.resume p g reply)) :
    ∃ w₁ : World, w₁.generators = w.generators ∧ w₁.Sets w' := by
  have hsame (h : w'.generators = w.generators) :
      ∃ w₁ : World, w₁.generators = w.generators ∧ w₁.Sets w' := ⟨w', h, .refl w'⟩
  cases h with
  | asks h =>
      refine hsame ?_
      cases h with
      | together hsubs hrun =>
          rw [World.spawnAll_world hrun]
          rfl
      | _ => rfl
  | reply r hhead h => exact ⟨w, rfl, h.sets⟩
  | pass hf h => exact ⟨w, rfl, h.sets⟩
  | call hcall h => exact ⟨w, rfl, h.sets⟩
  | resume h => exact absurd rfl (hhead _ _ _)
  | @answered p y phase c _ _ r hp hy hc h =>
      exact ⟨w.record (.handled phase c), rfl, World.sets_of_answers h⟩
  | @commanded p y phase c _ _ _ _ hp hy hcall h =>
      exact ⟨w.record (.handled phase c), rfl, h.sets⟩
  | @raced o => cases o <;> exact hsame rfl
  | load h => exact ⟨w, rfl, h.sets⟩
  | _ => exact hsame rfl

/-- What a rule does to the script of the test: nothing, unless it resumes it. -/
theorem Rule.script {head : Head} {w w' : World} {turn : Turn} {s : Generator}
    (h : Rule head w turn w') :
    ((∀ p reply, head ≠ .work (.resume p scriptNumber reply)) →
      w.generators[scriptNumber]? = some s → w'.generators[scriptNumber]? = some s) ∧
    (scriptNumber < w.generators.length → scriptNumber < w'.generators.length) := by
  by_cases hresume : ∃ p g reply, head = .work (.resume p g reply)
  · obtain ⟨p, g, reply, rfl⟩ := hresume
    cases h with
    | reply r hhead => cases hhead
    | call hcall => cases hcall
    | asks h => cases h
    | resume h =>
        refine ⟨fun hhead => h.script.1 ?_, (h.script (s := s)).2⟩
        rintro rfl
        exact hhead _ _ rfl
  · obtain ⟨w₁, hsame, hsets⟩ := h.generators fun p g reply heq => hresume ⟨p, g, reply, heq⟩
    rw [← hsame]
    exact ⟨fun _ => hsets.script, hsets.script_lt⟩

namespace Machine

variable {m m' : Machine} {s : Generator}

/-- Whatever the scheduler has to handle leaves the script of the test. -/
theorem generators_handle (w : World) (h : Handle Job) :
    w.generators <+: (Machine.handle w h).world.generators := by
  have hturn (t : TaskId) (o : Outcome) : (beginTurn w t o).world.generators = w.generators := by
    unfold beginTurn
    split <;> rfl
  cases h with
  | turn t =>
      change _ <+: (beginTurn w t .finished).world.generators
      rw [hturn]
  | wake t f =>
      change _ <+: (beginTurn w t _).world.generators
      rw [hturn]
  | told | release => exact List.prefix_refl _
  | job job =>
      cases job with
      | act actions => exact ((Engine.acting_perform actions).acts w).generators
      | expire error =>
          change _ <+: (w.tellMonitor _).generators
          rw [World.generators_tellMonitor]

/-- Only a step that resumes the script of the test changes where it stands. -/
theorem script_of_step (hstep : m.step = some m') :
    ((∀ t p reply stack, m.current ≠ some (t, .work (.resume p scriptNumber reply) stack)) →
      m.world.generators[scriptNumber]? = some s → m'.world.generators[scriptNumber]? = some s) ∧
    (scriptNumber < m.world.generators.length → scriptNumber < m'.world.generators.length) := by
  rcases step_cases hstep with ⟨t, head, stack, turn, w', hcurrent, hrule, rfl⟩ |
    ⟨t, o, hcurrent, rfl⟩ | ⟨handle, scheduler, hidle, hnext, rfl⟩
  · rw [world_follow]
    refine ⟨fun hnot => hrule.script.1 ?_, (hrule.script (s := s)).2⟩
    rintro p reply rfl
    exact hnot t p reply stack hcurrent
  · exact ⟨fun _ hs => hs, id⟩
  · obtain ⟨more, hmore⟩ := generators_handle { m.world with scheduler } handle
    rw [← hmore]
    refine ⟨fun _ hs => ?_, fun hlt => ?_⟩
    · exact List.getElem?_append_left (List.getElem?_eq_some_iff.mp hs).1 ▸ hs
    · exact Nat.lt_of_lt_of_le hlt (List.prefix_append _ _).length_le

end Machine

end HotSpec
