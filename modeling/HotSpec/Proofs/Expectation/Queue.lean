import HotSpec.Proofs.Expectation.Opening

/-!
# The queue of pending expectations in a run

Main definitions:

- `TestSetup.Opens`: a machine of a run, with the labels that were expected when the environment had
  started anew.
- `Frame.label?`: the label whose write or assertion a frame waits for.

Main results:

- Theorem `Reaches.preparing_or_opened`: nothing is pending before the environment has started anew,
  and the queue is opened once.
- Theorem `Reaches.taken`: labels are written and asserted only after they were taken.
- Theorem `Sound.queue_of_fault`: a failed write or assertion leaves the queue.
- Theorem `Reaches.popped_of_discards`: nothing is taken once the queue was dropped.
-/

namespace HotSpec

variable {setup : TestSetup} {g : Generator} {m m₀ m' : Machine}

namespace TestSetup

/-- A machine that is reached after the environment has started anew, when these labels were
expected. -/
def Opens (setup : TestSetup) (g : Generator) (labels : List String) (m : Machine) : Prop :=
  ∃ m₀ m₁, setup.Reaches g m₀ ∧ m₀.IsReset ∧ m₀.step = some m₁ ∧ m₁.Steps m ∧
    labels = m₀.world.session.expects.keys

theorem Reaches.step (h : setup.Reaches g m) (hstep : m.step = some m') : setup.Reaches g m' :=
  Machine.Steps.trans h (.single hstep)

theorem Reaches.steps (h : setup.Reaches g m) (hsteps : m.Steps m') : setup.Reaches g m' :=
  Machine.Steps.trans h hsteps

/-- A test begins before anything is pending. -/
theorem preparing_machine (setup : TestSetup) (g : Generator) : (setup.machine g).Preparing where
  tasks := rfl
  early := by
    intro fs hfs f hf
    rw [frames_machine] at hfs
    cases hfs
    rw [List.mem_singleton.mp hf]
    rfl
  resets := by
    intro fs hfs
    rw [frames_machine] at hfs
    cases hfs
    exact Nat.zero_le _
  pending := rfl
  popped := rfl
  openings := rfl
  discards := rfl
  expects := List.nodup_nil
  fresh := ⟨by rintro ⟨⟩, by rintro ⟨⟩⟩

/-- A machine that can be reached has nothing pending yet, or its queue was opened. -/
theorem Reaches.preparing_or_opened (h : setup.Reaches g m) :
    m.Preparing ∨ ∃ labels, setup.Opens g labels m ∧ m.Opened labels := by
  induction h with
  | refl => exact .inl (preparing_machine setup g)
  | @tail m₁ m₂ hfirst hlast ih =>
      have hreach : setup.Reaches g m₁ := hfirst
      rcases ih with hprep | ⟨labels, ⟨m₀, m₁', hreach₀, hreset, hstep, hsteps, hlabels⟩, hopen⟩
      · rcases hprep.step hreach.sound hlast with ⟨-, hprep'⟩ | ⟨hreset, hopen⟩
        · exact .inl hprep'
        · exact .inr ⟨_, ⟨m₁, m₂, hreach, hreset, hlast, .refl _, rfl⟩, hopen⟩
      · refine .inr ⟨labels, ⟨m₀, m₁', hreach₀, hreset, hstep, ?_, hlabels⟩, ?_⟩
        · exact hsteps.trans (.single hlast)
        · exact hopen.step hreach.sound hlast

/-- The environment has not started anew where nothing waits for it. -/
theorem not_isReset {labels : List String} (h : m.Opened labels) : ¬m.IsReset := by
  rintro ⟨t, first, v, stack, hcurrent⟩
  have hframe := h.resets t _ (Machine.frames_current hcurrent) (.reset first)
    (List.mem_cons_self ..)
  cases hframe

/-- When the environment has started anew, nothing has become pending yet. -/
theorem Reaches.preparing (h : setup.Reaches g m) (hreset : m.IsReset) : m.Preparing := by
  rcases h.preparing_or_opened with hprep | ⟨labels, -, hopen⟩
  · exact hprep
  · exact absurd hreset (not_isReset hopen)

/-- From the moment when the environment has started anew, the queue is that of the labels that were
expected then. -/
theorem Opens.opened {labels : List String} (h : setup.Opens g labels m) : m.Opened labels := by
  obtain ⟨m₀, m₁, hreach, hreset, hstep, hsteps, rfl⟩ := h
  have hfirst : m₁.Sound ∧ m₁.Opened m₀.world.session.expects.keys := by
    refine ⟨hreach.sound.step hstep, ?_⟩
    rcases (hreach.preparing hreset).step hreach.sound hstep with ⟨hnot, -⟩ | ⟨-, hopen⟩
    · exact absurd hreset hnot
    · exact hopen
  refine (Machine.Steps.invariant (P := fun m => m.Sound ∧ m.Opened m₀.world.session.expects.keys)
    hsteps hfirst ?_).2
  rintro m m' hstep' ⟨hsound, hopen⟩
  exact ⟨hsound.step hstep', hopen.step hsound hstep'⟩

end TestSetup

/-! ## Labels that are asserted -/

/-- The label whose write or assertion a frame waits for. -/
def Frame.label? : Frame → Option String
  | .written _ _ label _ | .asserted _ _ label => some label
  | _ => none

/-- Labels that are being asserted were taken. -/
def Machine.Taken (m : Machine) : Prop :=
  ∀ t fs, m.frames t = some fs → ∀ f ∈ fs, ∀ label, f.label? = some label → label ∈ m.world.popped

theorem Calls.label? {head : Head} {frames : List Frame} (h : Calls head frames) :
    ∀ f ∈ frames, f.label? = none := by
  cases h with
  | opened h => cases h <;> simp [Frame.label?]
  | _ => simp [Frame.label?]

theorem Commands.label? {phase : Phase} {c : Command} {frames : List Frame}
    (h : Commands phase c frames) : ∀ f ∈ frames, f.label? = none := by
  cases h <;> simp [Frame.label?]

theorem Asks.label? {head : Head} {w w' : World} {turn : Turn} (h : Asks head w turn w') :
    ∀ f ∈ turn.frames, f.label? = none := by
  cases h <;> simp [Turn.frames, Frame.label?]

/-- A frame waits for a label that was just taken, or that the frame before it has waited for. -/
theorem Rule.label? {head : Head} {w w' : World} {turn : Turn} (h : Rule head w turn w')
    {f : Frame} (hf : f ∈ turn.frames) {label : String} (hlabel : f.label? = some label) :
    label ∈ w'.popped ∨ head.first.label? = some label := by
  have hnone (hno : ∀ f ∈ turn.frames, f.label? = none) : False := by
    rw [hno f hf] at hlabel
    cases hlabel
  cases h with
  | asks h => exact (hnone h.label?).elim
  | call hcall h => exact (hnone hcall.label?).elim
  | commanded hp hy hcall h => exact (hnone hcall.label?).elim
  | @resume p g reply adv _ _ h =>
      refine (hnone ?_).elim
      unfold resumed
      split <;> simp [Turn.reply, Turn.frames, Frame.label?]
  | ready hinit h =>
      refine (hnone ?_).elim
      cases h <;> simp [Turn.frames, Frame.label?]
  | @popped until? last l e queue _ h =>
      have hl : label = l := by
        simp [Turn.frames] at hf
        rcases hf with rfl | rfl
        · cases hlabel
        · exact (Option.some.inj hlabel).symm
      subst hl
      refine .inl ?_
      rw [World.popped_popping]
      simp
  | @writing until? last l e queue _ h =>
      have hl : label = l := by
        simp [Turn.frames] at hf
        rcases hf with rfl | rfl
        · cases hlabel
        · exact (Option.some.inj hlabel).symm
      subst hl
      refine .inl ?_
      have hwriting := World.SameQueue.record (w.popping label queue) (e := .writing label)
        rfl rfl rfl
      rw [hwriting.popped, World.popped_popping]
      simp
  | @written until? already l e v _ =>
      refine .inr ?_
      simp [Turn.frames] at hf
      rcases hf with rfl | rfl
      · cases hlabel
      · exact hlabel
  | _ => simp_all [Turn.frames, Turn.done, Move.lastLabel, Frame.label?]

namespace Machine

/-- Labels that were taken stay taken. -/
theorem Sound.popped_mono (hm : m.Sound) (hstep : m.step = some m') :
    m.world.popped <+: m'.world.popped := by
  rcases hm.moves_or_rests hstep with ⟨t, head, stack, turn, new, w', hmoves⟩ | hrests
  · have hpopped : m'.world.popped = w'.popped := World.trace_congr _ hmoves.history
    rw [hpopped]
    cases queueStep_rule hmoves.rule with
    | same hsame => exact hsame.popped ▸ List.prefix_refl _
    | opens _ _ hpop => exact hpop ▸ List.prefix_refl _
    | pops _ _ hpop =>
        rw [hpop]
        exact List.prefix_append _ _
    | discards _ _ hpop => exact hpop ▸ List.prefix_refl _
    | refuses _ _ hpop => exact hpop ▸ List.prefix_refl _
  · exact (World.SameQueue.of_minor hrests.session hrests.history).popped ▸ List.prefix_refl _

theorem Taken.step (h : m.Taken) (hm : m.Sound) (hstep : m.step = some m') : m'.Taken := by
  have hmono := hm.popped_mono hstep
  intro u fs hfs f hf label hlabel
  rcases hm.moves_or_rests hstep with ⟨t, head, stack, turn, new, w', hmoves⟩ | hrests
  · rcases hmoves.mem_frames hfs hf with ⟨-, hf⟩ | ⟨fs, hfs, hf⟩ | ⟨work, rfl, -⟩
    · rcases hmoves.rule.label? hf hlabel with hnow | hbefore
      · have hpopped : m'.world.popped = w'.popped := World.trace_congr _ hmoves.history
        rw [hpopped]
        exact hnow
      · exact hmono.subset (h t _ hmoves.before _ (List.mem_cons_self ..) label hbefore)
    · exact hmono.subset (h u fs hfs f hf label hlabel)
    · cases hlabel
  · rw [hrests.frames] at hfs
    exact hmono.subset (h u fs hfs f hf label hlabel)

/-- A failed write or assertion leaves the queue as it is. -/
theorem Sound.queue_of_fault (hm : m.Sound) {t : TaskId} {fault : Fault} {f : Frame}
    {stack : List Frame} (hcurrent : m.current = some (t, .outcome (.fault fault) (f :: stack)))
    (hstep : m.step = some m') : m.world.SameQueue m'.world := by
  rcases hm.moves_or_rests hstep with ⟨u, head, fs, turn, new, w', hmoves⟩ | hrests
  · obtain ⟨-, rfl, -⟩ := hmoves.head_eq hcurrent
    cases queueStep_rule hmoves.rule with
    | same hsame => exact hsame.of_eq hmoves.session hmoves.history
  · exact .of_minor hrests.session hrests.history

/-- Nothing is taken once the queue was dropped by a command. -/
theorem Opened.popped_of_discards {labels : List String} (h : m.Opened labels) (hm : m.Sound)
    (hdiscards : m.world.discards ≠ []) (hstep : m.step = some m') :
    m'.world.popped = m.world.popped ∧ m'.world.discards ≠ [] := by
  rcases hm.moves_or_rests hstep with ⟨t, head, stack, turn, new, w', hmoves⟩ | hrests
  · have hpopped : m'.world.popped = w'.popped := World.trace_congr _ hmoves.history
    have hdropped : m'.world.discards = w'.discards := World.trace_congr _ hmoves.history
    rw [hpopped, hdropped]
    cases queueStep_rule hmoves.rule with
    | same hsame => exact ⟨hsame.popped, by rw [hsame.discards]; exact hdiscards⟩
    | opens _ _ hpop hdisc => exact ⟨hpop, by rw [hdisc]; exact hdiscards⟩
    | pops hbefore =>
        rw [h.discarded hdiscards] at hbefore
        cases hbefore
    | discards _ hdisc hpop => exact ⟨hpop, hdisc⟩
    | refuses _ _ hpop _ hdisc => exact ⟨hpop, by rw [hdisc]; exact hdiscards⟩
  · have hsame := World.SameQueue.of_minor hrests.session hrests.history
    exact ⟨hsame.popped, by rw [hsame.discards]; exact hdiscards⟩

end Machine

namespace TestSetup

/-- A label that is being written or asserted was taken. -/
theorem Reaches.taken (h : setup.Reaches g m) : m.Taken := by
  refine (Machine.Steps.invariant (P := fun m => m.Sound ∧ m.Taken) h
    ⟨sound_machine setup g, ?_⟩ ?_).2
  · intro t fs hfs f hf label hlabel
    rw [frames_machine] at hfs
    split at hfs
    · cases hfs
      rw [List.mem_singleton.mp hf] at hlabel
      cases hlabel
    · cases hfs
  · rintro m m' hstep ⟨hsound, htaken⟩
    exact ⟨hsound.step hstep, htaken.step hsound hstep⟩

/-- Nothing is ever taken again once the queue was dropped by a command. -/
theorem Reaches.popped_of_discards (h : setup.Reaches g m) (hdiscards : m.world.discards ≠ [])
    (hsteps : m.Steps m') : m'.world.popped = m.world.popped := by
  have hopened : ∃ labels, m.Opened labels := by
    rcases h.preparing_or_opened with hprep | ⟨labels, -, hopen⟩
    · exact absurd hprep.discards hdiscards
    · exact ⟨labels, hopen⟩
  obtain ⟨labels, hopen⟩ := hopened
  refine (Machine.Steps.invariant
    (P := fun m' => m'.Sound ∧ m'.Opened labels ∧ m'.world.discards ≠ [] ∧
      m'.world.popped = m.world.popped)
    hsteps ⟨h.sound, hopen, hdiscards, rfl⟩ ?_).2.2.2
  rintro m₁ m₂ hstep ⟨hsound, hopen, hdisc, hpop⟩
  obtain ⟨hpop', hdisc'⟩ := hopen.popped_of_discards hsound hdisc hstep
  exact ⟨hsound.step hstep, hopen.step hsound hstep, hdisc', hpop'.trans hpop⟩

end TestSetup

end HotSpec
