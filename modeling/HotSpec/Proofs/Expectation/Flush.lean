import HotSpec.Proofs.Expectation.Race
import HotSpec.Proofs.Expectation.Queue

/-!
# All pending expectations are asserted in the end

The task that loads the page hands it over at most once.  From then on it asserts all that is
pending before it may come to a value, whatever the script does: so where the run phase ends without
a failure, nothing is pending any more unless a command has dropped it.

Main definitions:

- `Frame.hands`: how often a frame may still hand the page over.
- `Frame.owes`: whether a frame leads to an assertion of all that is pending.
- `Machine.Loading`: how far the load of the page is.

Main results:

- Theorem `Rule.hands_le`: no rule hands the page over more often than its head may.
- Theorem `Loads.step`: every step keeps the load on its way.
- Theorem `Reaches.popped_of_passed`: the end of a run phase without a failure.
-/

namespace HotSpec

/-! ## Frames of the load -/

/-- How often deeds hand the page over. -/
def handsIn : List Deed → Nat
  | [] => 0
  | .handOver _ :: ds => handsIn ds + 1
  | _ :: ds => handsIn ds

@[simp]
theorem handsIn_nil : handsIn [] = 0 := rfl

@[simp]
theorem handsIn_chore (c : Chore) (ds : List Deed) : handsIn (.chore c :: ds) = handsIn ds := rfl

@[simp]
theorem handsIn_openPage (ds : List Deed) : handsIn (.openPage :: ds) = handsIn ds := rfl

@[simp]
theorem handsIn_handOver (first : Option Command) (ds : List Deed) :
    handsIn (.handOver first :: ds) = handsIn ds + 1 := rfl

@[simp]
theorem handsIn_chores (cs : List Chore) : handsIn (cs.map Deed.chore) = 0 := by
  induction cs with
  | nil => rfl
  | cons c cs ih => exact ih

theorem handsIn_steps (steps : List LoadStep) (ds : List Deed) :
    handsIn (steps.map LoadStep.deed ++ ds) = handsIn ds := by
  induction steps with
  | nil => rfl
  | cons step steps ih => cases step <;> exact ih

/-- An environment hands a page over at most once. -/
theorem Environment.handsIn_loadDeeds (e : Environment) (url : String) (first : Option Command) :
    handsIn (e.loadDeeds url first) ≤ 1 := by
  unfold loadDeeds
  simp only [handsIn_steps]
  split
  · next steps _ =>
      have hrest := handsIn_steps steps []
      rw [List.append_nil] at hrest
      rw [handsIn_handOver, hrest]
      exact Nat.le_refl 1
  · exact Nat.zero_le 1

/-- How often work may hand the page over. -/
def Work.hands : Work → Nat
  | .load _ | .inPage _ => 1
  | .deeds ds => handsIn ds
  | _ => 0

/-- How often a frame may hand the page over. -/
def Frame.hands : Frame → Nat
  | .begin work => work.hands
  | .deeds ds => handsIn ds
  | _ => 0

/-- How often frames may hand the page over. -/
def handsOf (fs : List Frame) : Nat := (fs.map Frame.hands).sum

@[simp]
theorem handsOf_nil : handsOf [] = 0 := rfl

@[simp]
theorem handsOf_cons (f : Frame) (fs : List Frame) : handsOf (f :: fs) = f.hands + handsOf fs := by
  simp [handsOf]

@[simp]
theorem handsOf_append (fs fs' : List Frame) : handsOf (fs ++ fs') = handsOf fs + handsOf fs' := by
  simp [handsOf]

theorem handsIn_of_chores {ds : List Deed} (h : ds.all Deed.isChore = true) : handsIn ds = 0 := by
  induction ds with
  | nil => rfl
  | cons d ds ih =>
      rw [List.all_cons, Bool.and_eq_true] at h
      cases d with
      | chore c => exact ih h.2
      | openPage | handOver first => cases h.1

/-- Before the page is loaded no frame can hand it over. -/
theorem Frame.hands_of_early {f : Frame} (h : f.isEarly = true) : f.hands = 0 := by
  cases f with
  | begin work =>
      cases work with
      | deeds ds => exact handsIn_of_chores h
      | load | inPage => cases h
      | _ => rfl
  | deeds ds => exact handsIn_of_chores h
  | _ => rfl

/-- Whether a frame passes on every outcome but a value, and does nothing else about it. -/
def Frame.isThrough : Frame → Bool
  | .pageDone | .deeds _ | .unloaded | .flushed => true
  | _ => false

/-- Whether a frame leads to an assertion of all that is pending. -/
def Frame.owes : Frame → Bool
  | .opened _ | .firstDone | .scriptDone => true
  | .begin (.drain none false _) | .written none false _ _ | .asserted none false _ => true
  | _ => false

variable {head : Head} {w w' : World} {turn : Turn}

theorem Calls.hands_le {frames : List Frame} (h : Calls head frames) :
    handsOf frames ≤ head.first.hands := by
  cases h with
  | opened h => cases h <;> simp [Frame.hands, Work.hands]
  | handOver => simp [Frame.hands, Work.hands, Head.first, Nat.add_comm]
  | _ => simp [Frame.hands, Work.hands, Head.first]

theorem Commands.hands {phase : Phase} {c : Command} {frames : List Frame}
    (h : Commands phase c frames) : handsOf frames = 0 := by
  cases h <;> simp [Frame.hands, Work.hands]

/-- No rule hands the page over more often than its head may. -/
theorem Rule.hands_le (h : Rule head w turn w') : handsOf turn.frames ≤ head.first.hands := by
  cases h with
  | asks h =>
      cases h with
      | start =>
          change handsOf [.begin (.deeds (List.map Deed.chore _)), _, _] ≤ _
          simp [Frame.hands, Work.hands]
      | _ => simp [Turn.frames, Frame.hands]
  | call hcall h => exact hcall.hands_le
  | @resume p g reply adv _ _ h =>
      unfold resumed
      split <;> simp [Turn.reply, Turn.frames, Frame.hands, Work.hands]
  | commanded hp hy hcall h =>
      change handsOf (.begin _ :: _) ≤ _
      rw [hcall.hands]
      exact Nat.zero_le _
  | load h =>
      simpa [Turn.frames, Frame.hands, Work.hands, Head.first] using
        w.environment.handsIn_loadDeeds _ _
  | ready hlabel h => cases h <;> simp [Turn.frames, Frame.hands, Work.hands]
  | _ => simp [Turn.frames, Turn.done, Move.lastLabel, Frame.hands, Work.hands]

/-! ## What is owed -/

/-- The page that a rule may still hand over is under frames that cannot, and passes every failure
on. -/
def Hands (fs : List Frame) : Prop :=
  handsOf fs = 0 ∨ ∃ above f below, fs = above ++ f :: below ∧ handsOf above = 0 ∧ f.hands ≤ 1 ∧
    (∀ f ∈ below, f.isThrough = true) ∧ handsOf below = 0

theorem Hands.append {fs below : List Frame} (h : Hands fs)
    (hbelow : ∀ f ∈ below, f.isThrough = true) (hhands : handsOf below = 0) :
    Hands (fs ++ below) := by
  rcases h with hzero | ⟨above, f, rest, rfl, habove, hf, hrest, hnone⟩
  · exact .inl (by rw [handsOf_append, hzero, hhands])
  · refine .inr ⟨above, f, rest ++ below, by simp, habove, hf, ?_, ?_⟩
    · intro f' hf'
      rcases List.mem_append.mp hf' with hf' | hf'
      · exact hrest f' hf'
      · exact hbelow f' hf'
    · rw [handsOf_append, hnone, hhands]

theorem Hands.under {above fs : List Frame} (h : Hands fs) (habove : handsOf above = 0) :
    Hands (above ++ fs) := by
  rcases h with hzero | ⟨above', f, below, rfl, habove', hf, hbelow, hhands⟩
  · exact .inl (by rw [handsOf_append, habove, hzero])
  · refine .inr ⟨above ++ above', f, below, (List.append_assoc ..).symm, ?_, hf, hbelow, hhands⟩
    rw [handsOf_append, habove, habove']

/-- The page may be handed over by a frame, or by one under it. -/
theorem Hands.cases_cons {f : Frame} {fs : List Frame} (h : Hands (f :: fs)) :
    f.hands = 0 ∧ Hands fs ∨ f.hands ≤ 1 ∧ (∀ f ∈ fs, f.isThrough = true) ∧ handsOf fs = 0 := by
  rcases h with hzero | ⟨above, f', below, heq, habove, hf, hbelow, hhands⟩
  · rw [handsOf_cons] at hzero
    exact .inl ⟨Nat.eq_zero_of_add_eq_zero_right hzero,
      .inl (Nat.eq_zero_of_add_eq_zero_left hzero)⟩
  · cases above with
    | nil =>
        obtain ⟨rfl, rfl⟩ := List.cons.inj heq
        exact .inr ⟨hf, hbelow, hhands⟩
    | cons a above =>
        obtain ⟨rfl, rfl⟩ := List.cons.inj heq
        rw [handsOf_cons] at habove
        exact .inl ⟨Nat.eq_zero_of_add_eq_zero_right habove,
          .inr ⟨above, f', below, rfl, Nat.eq_zero_of_add_eq_zero_left habove, hf, hbelow, hhands⟩⟩

theorem Hands.tail {f : Frame} {fs : List Frame} (h : Hands (f :: fs)) : Hands fs :=
  h.cases_cons.elim And.right fun hf => .inl hf.2.2

/-- A frame that can hand the page over does so once, and those under it cannot. -/
theorem Hands.of_head {f : Frame} {fs : List Frame} (h : Hands (f :: fs)) (hf : f.hands ≠ 0) :
    f.hands = 1 ∧ (∀ f ∈ fs, f.isThrough = true) ∧ handsOf fs = 0 := by
  rcases h.cases_cons with ⟨hzero, -⟩ | ⟨hle, hbelow⟩
  · exact absurd hzero hf
  · exact ⟨Nat.le_antisymm hle (Nat.pos_of_ne_zero hf), hbelow⟩

/-- A frame that cannot hand the page over is followed by such frames. -/
theorem Rule.hands_idle (h : Rule head w turn w') (hzero : head.first.hands = 0) :
    handsOf turn.frames = 0 := by
  have hle := h.hands_le
  rw [hzero] at hle
  exact Nat.le_zero.mp hle

/-- A frame that may hand the page over once is followed by such a frame, until the page is handed
over. -/
theorem Rule.hands (h : Rule head w turn w') (hhands : head.first.hands = 1)
    (hready : ∀ first, head ≠ .work (.inPage first)) : Hands turn.frames := by
  have hone {f : Frame} {frames : List Frame} (hf : f.hands ≤ 1)
      (hframes : ∀ f ∈ frames, f.isThrough = true) (hnone : handsOf frames = 0) :
      Hands (f :: frames) := .inr ⟨[], f, frames, rfl, rfl, hf, hframes, hnone⟩
  have htwo {f f' : Frame} (hf : f.hands = 0) (hf' : f'.hands ≤ 1) : Hands [f, f'] :=
    .inr ⟨[f], f', [], rfl, by simpa using hf, hf', by simp, rfl⟩
  cases h with
  | asks h => cases h <;> cases hhands
  | reply r hhead h => exact .inl rfl
  | pass hf h => exact .inl rfl
  | call hcall h =>
      cases hcall with
      | chore => exact hone (Nat.le_of_eq hhands) (by simp) rfl
      | nap => exact htwo rfl (Nat.le_of_eq hhands)
      | openPage => exact hone (Nat.le_of_eq hhands) (by simp) rfl
      | beforeLoad => exact htwo rfl (Nat.le_of_eq hhands)
      | @handOver first ds =>
          have hzero : handsIn ds = 0 := Nat.succ.inj hhands
          exact hone (Nat.le_refl 1) (by simp [Frame.isThrough]) (by simp [Frame.hands, hzero])
      | deeds | begin => exact hone (Nat.le_of_eq hhands) (by simp) rfl
      | _ => cases hhands
  | load h =>
      exact hone (w.environment.handsIn_loadDeeds _ _) (by simp [Frame.isThrough]) rfl
  | ready => exact absurd rfl (hready _)
  | checked => exact absurd rfl (hready _)
  | unchecked => exact absurd rfl (hready _)
  | _ => cases hhands

/-- Frames that lead to an assertion of all that is pending, and pass every failure on. -/
def Owes (fs : List Frame) : Prop :=
  ∃ above f below, fs = above ++ f :: below ∧ f.owes = true ∧ ∀ f ∈ below, f.isThrough = true

theorem Owes.append {fs below : List Frame} (h : Owes fs)
    (hbelow : ∀ f ∈ below, f.isThrough = true) : Owes (fs ++ below) := by
  obtain ⟨above, f, rest, rfl, hf, hrest⟩ := h
  refine ⟨above, f, rest ++ below, by simp, hf, ?_⟩
  intro f' hf'
  rcases List.mem_append.mp hf' with hf' | hf'
  · exact hrest f' hf'
  · exact hbelow f' hf'

theorem Owes.under {fs : List Frame} (h : Owes fs) (above : List Frame) : Owes (above ++ fs) := by
  obtain ⟨above', f, below, rfl, hf, hbelow⟩ := h
  exact ⟨above ++ above', f, below, (List.append_assoc ..).symm, hf, hbelow⟩

theorem Owes.cons {f : Frame} {fs : List Frame} (h : Owes fs) : Owes (f :: fs) := h.under [f]

theorem Owes.cases_cons {f : Frame} {fs : List Frame} (h : Owes (f :: fs)) :
    Owes fs ∨ f.owes = true ∧ ∀ f ∈ fs, f.isThrough = true := by
  obtain ⟨above, f', below, heq, hf, hbelow⟩ := h
  cases above with
  | nil =>
      obtain ⟨rfl, rfl⟩ := List.cons.inj heq
      exact .inr ⟨hf, hbelow⟩
  | cons a above =>
      obtain ⟨-, rfl⟩ := List.cons.inj heq
      exact .inl ⟨above, f', below, rfl, hf, hbelow⟩

theorem owes_single {f : Frame} {frames : List Frame} (hf : f.owes = true)
    (hframes : ∀ f ∈ frames, f.isThrough = true) : Owes (f :: frames) := ⟨[], f, frames, rfl, hf, hframes⟩

theorem Begins.owes {first : Option Command} {frames : List Frame} (h : Begins first frames) :
    Owes frames := by
  cases h <;> exact (owes_single rfl (by simp)).cons

/-- A page that is ready leads to an assertion of all that is pending, or fails. -/
theorem Rule.owes_of_ready {first : Option Command} (h : Rule (.work (.inPage first)) w turn w') :
    (Owes turn.frames ∧ handsOf turn.frames = 0 ∧ w.SameQueue w') ∨
      ∃ f, turn = .give (.fault f) := by
  cases h with
  | asks h => cases h
  | reply r hhead => cases hhead
  | call hcall => cases hcall
  | ready hlabel h =>
      refine .inl ⟨h.owes, ?_, .record w rfl rfl rfl⟩
      cases h <;> rfl
  | checked hlabel h => exact .inl ⟨(owes_single rfl (by simp)).cons, rfl, .record w rfl rfl rfl⟩
  | unchecked f => exact .inr ⟨f, rfl⟩

theorem replies_of_owes (howes : head.first.owes = true) : head.replies = false := by
  cases head with
  | work work => cases work <;> simp_all [Head.first, Frame.owes, Head.replies]
  | frame f o => cases f <;> simp_all [Head.first, Frame.owes, Head.replies]

/-- What a frame owes is owed by those that follow it, unless it fails, or nothing is pending any
more. -/
theorem Rule.owes (h : Rule head w turn w') (howes : head.first.owes = true) :
    Owes turn.frames ∨ (∃ o, turn = .give o ∧ o.isValue = false) ∨
      (w.session.pending = none ∨ w.session.pending = some []) ∧ w.SameQueue w' := by
  cases h with
  | asks h => cases h <;> cases howes
  | reply r hhead h =>
      rw [replies_of_owes howes] at hhead
      cases hhead
  | @pass f o _ _ hf =>
      refine .inr (.inl ⟨o, rfl, ?_⟩)
      cases o with
      | value v =>
          change f.owes = true at howes
          cases f with
          | pageDone | slept => cases howes
          | _ => cases hf
      | _ => rfl
  | call hcall h =>
      cases hcall with
      | opened h => exact .inl h.owes
      | firstDone => exact .inl (owes_single rfl (by simp)).cons
      | scriptDone => exact .inl (owes_single rfl (by simp [Frame.isThrough]))
      | begin => exact .inl (owes_single howes (by simp))
      | _ => cases howes
  | drained hpending => exact .inr (.inr ⟨hpending, .refl w⟩)
  | @popped until? last label e queue _ h => cases until? <;> cases howes
  | @writing until? last label e queue _ h =>
      cases until? with
      | none => exact .inl (owes_single rfl (by simp)).cons
      | some l => cases howes
  | @written until? already label e v _ =>
      exact .inl (owes_single (f := .asserted until? already label) (by
        cases until? <;> cases already <;> first | rfl | cases howes) (by simp)).cons
  | assertedLast => cases howes
  | @assertedNext until? already label v _ h =>
      exact .inl (owes_single (f := .begin (.drain until? already (some label))) (by
        cases until? <;> cases already <;> first | rfl | cases howes) (by simp))
  | @assertedNot until? already label o _ h =>
      refine .inr (.inl ⟨o, rfl, ?_⟩)
      cases o with
      | value v => exact absurd rfl (h v)
      | _ => rfl
  | _ => cases howes

/-- A failure passes the frames that are left. -/
theorem Rule.through {f : Frame} {o : Outcome} (h : Rule (.frame f o) w turn w')
    (hf : f.isThrough = true) (ho : o.isValue = false) : turn = .give o := by
  cases h with
  | pass => rfl
  | asks h => cases h <;> cases hf
  | reply r hhead =>
      cases f with
      | unloaded =>
          change o.isValue = true at hhead
          rw [ho] at hhead
          cases hhead
      | pageDone | deeds | flushed => cases hhead
      | _ => cases hf
  | call hcall =>
      cases hcall with
      | flushed | deeds => cases ho
      | _ => cases hf
  | _ => cases hf

/-! ## Machines -/

/-- Whether the pending expectations were not lost but by a command. -/
def World.Kept (w : World) : Prop := w.session.pending = none → w.discards ≠ []

/-- Whether nothing is pending any more. -/
def World.Dry (w : World) : Prop := w.discards ≠ [] ∨ w.session.pending = some []

theorem World.Kept.of_same (h : w.Kept) (hsame : w.SameQueue w') : w'.Kept := by
  intro hnone
  rw [hsame.discards]
  exact h (hsame.pending.symm.trans hnone)

theorem World.Dry.of_same (h : w.Dry) (hsame : w.SameQueue w') : w'.Dry := by
  unfold Dry
  rw [hsame.discards, hsame.pending]
  exact h

/-- How far the load of the page is, which is the work of the second task. -/
inductive Machine.Loading (m : Machine) (load : FutureId) : Prop
  | before {fs : List Frame} (hframes : m.frames 1 = some fs) (hfs : Hands fs)
      (hready : .ready ∉ m.world.events) (hkept : m.world.Kept)
  | owing {fs : List Frame} (hframes : m.frames 1 = some fs) (hfs : Owes fs)
      (hhands : handsOf fs = 0) (hkept : m.world.Kept)
  | dry {fs : List Frame} (hframes : m.frames 1 = some fs) (hhands : handsOf fs = 0)
      (hdry : m.world.Dry)
  | failing {fs : List Frame} {o : Outcome} (hcurrent : m.current = some (1, .outcome o fs))
      (ho : o.isValue = false) (hfs : ∀ f ∈ fs, f.isThrough = true)
      (hopen : m.world.scheduler.outcome? load = none)
  | failed {o : Outcome} (houtcome : m.world.scheduler.outcome? load = some o)
      (ho : o.isValue = false)

/-- A machine whose second task loads the page, and no other does. -/
structure Machine.Loads (m : Machine) (load : FutureId) : Prop where
  kind : m.world.scheduler.kind load = .task 1
  others : ∀ t, t ≠ 1 → ∀ fs, m.frames t = some fs → handsOf fs = 0
  opened : ∀ f fs, m.frames 1 = some (f :: fs) → m.world.scheduler.outcome? load = none
  loading : m.Loading load

namespace Machine

variable {m m' : Machine} {t : TaskId} {stack : List Frame} {new : List (List Frame)}
  {labels : List String} {load : FutureId}

/-- A rule that does not begin with the page neither loses what is pending nor brings it back. -/
theorem Opened.kept_or_dry (h : m.Opened labels) (hmoves : m.Moves t head stack turn new w' m')
    (hhead : ∀ first, head ≠ .work (.inPage first)) :
    (m.world.Kept → m'.world.Kept) ∧ (m.world.Dry → m'.world.Dry) := by
  have hdiscards : m'.world.discards = w'.discards := World.trace_congr _ hmoves.history
  have hpending : m'.world.session.pending = w'.session.pending := by rw [hmoves.session]
  unfold World.Kept World.Dry
  rw [hdiscards, hpending]
  cases queueStep_rule hmoves.rule with
  | same hsame =>
      rw [hsame.discards, hsame.pending]
      exact ⟨id, id⟩
  | opens =>
      have hno := h.resets t _ hmoves.before _ (List.mem_cons_self ..)
      cases hno
  | pops hbefore hafter hpop hopen hdisc =>
      refine ⟨fun _ hnone => ?_, ?_⟩
      · rw [hafter] at hnone
        cases hnone
      · rintro (hdropped | hempty)
        · exact .inl (by rw [hdisc]; exact hdropped)
        · rw [hbefore] at hempty
          cases hempty
  | discards _ hdisc => exact ⟨fun _ _ => hdisc, fun _ => .inl hdisc⟩
  | refuses => exact absurd rfl (hhead _)

/-- The page is ready when the task that loads it says so. -/
theorem inPage_of_ready (h : Event.ready.isOf head = true) : ∃ first, head = .work (.inPage first) := by
  cases head with
  | work work =>
      cases work with
      | inPage first => exact ⟨first, rfl⟩
      | _ => cases h
  | frame f o => cases h

theorem not_inPage (hzero : head.first.hands = 0) (first : Option Command) :
    head ≠ .work (.inPage first) := by
  rintro rfl
  cases hzero

/-- The page gets ready by nothing else. -/
theorem Moves.not_ready (h : m.Moves t head stack turn new w' m') (hready : .ready ∉ m.world.events)
    (hhead : ∀ first, head ≠ .work (.inPage first)) : .ready ∉ m'.world.events := by
  intro he
  rcases h.mem_events he with hold | hof
  · exact hready hold
  · obtain ⟨first, hfirst⟩ := inPage_of_ready hof
    exact hhead first hfirst

/-- A task other than the one that loads the page leaves the load alone. -/
theorem Loads.moves_other (h : m.Loads load) (hm : m.Sound) (hopened : m.Opened labels)
    (hmoves : m.Moves t head stack turn new w' m') (ht : t ≠ 1) : m'.Loading load := by
  have hlt : 1 < m.world.scheduler.tasks.length :=
    (hm.threads_current hmoves.current).lt_of_ending h.kind
  have hframes : m'.frames 1 = m.frames 1 := hmoves.frames_of_ne (Ne.symm ht) hlt
  have hhands : head.first.hands = 0 := by
    have hzero := h.others t ht _ hmoves.before
    rw [handsOf_cons] at hzero
    exact Nat.eq_zero_of_add_eq_zero_right hzero
  have hhead := not_inPage hhands
  obtain ⟨hkeep, hdry⟩ := hopened.kept_or_dry hmoves hhead
  cases h.loading with
  | before hfs hown hready hkept =>
      exact .before (hframes.trans hfs) hown (hmoves.not_ready hready hhead) (hkeep hkept)
  | owing hfs hown hnone hkept => exact .owing (hframes.trans hfs) hown hnone (hkeep hkept)
  | dry hfs hnone hdried => exact .dry (hframes.trans hfs) hnone (hdry hdried)
  | failing hcurrent =>
      rw [hmoves.current] at hcurrent
      exact absurd (congrArg Prod.fst (Option.some.inj hcurrent)) ht
  | failed houtcome ho => exact .failed (hmoves.grows.settled _ _ houtcome) ho

/-- A load that a task has to go on with is not over. -/
theorem Loads.still_open (h : m.Loads load) (hmoves : m.Moves 1 head stack turn new w' m') :
    m'.world.scheduler.outcome? load = none := by
  rw [hmoves.ended load 1 h.kind]
  exact h.opened _ _ hmoves.before

theorem Moves.gives {o : Outcome} (h : m.Moves t head stack (.give o) new w' m') :
    m'.current = some (t, .outcome o stack) := h.next

/-- Until the page is handed over, no label is lost. -/
theorem Loads.moves_before (h : m.Loads load) (hopened : m.Opened labels)
    (hmoves : m.Moves 1 head stack turn new w' m') (hown : Hands (head.first :: stack))
    (hready : .ready ∉ m.world.events) (hkept : m.world.Kept) : m'.Loading load := by
  have hbefore (hhead : ∀ first, head ≠ .work (.inPage first))
      (hrest : Hands (turn.frames ++ stack)) : m'.Loading load :=
    .before hmoves.frames_self hrest (hmoves.not_ready hready hhead)
      ((hopened.kept_or_dry hmoves hhead).1 hkept)
  by_cases hzero : head.first.hands = 0
  · exact hbefore (not_inPage hzero) (hown.tail.under (hmoves.rule.hands_idle hzero))
  · obtain ⟨hone, hbelow, hhands⟩ := hown.of_head hzero
    by_cases hpage : ∃ first, head = .work (.inPage first)
    · obtain ⟨first, rfl⟩ := hpage
      rcases hmoves.rule.owes_of_ready with ⟨howes, hfew, hqueue⟩ | ⟨f, rfl⟩
      · exact .owing hmoves.frames_self (howes.append hbelow) (by rw [handsOf_append, hfew, hhands])
          (hkept.of_same (hqueue.of_eq hmoves.session hmoves.history))
      · exact .failing hmoves.gives rfl hbelow (h.still_open hmoves)
    · have hhead (first : Option Command) : head ≠ .work (.inPage first) :=
        fun heq => hpage ⟨first, heq⟩
      exact hbefore hhead ((hmoves.rule.hands hone hhead).append hbelow hhands)

/-- What is owed is asserted, or a failure is passed on. -/
theorem Loads.moves_owing (h : m.Loads load) (hopened : m.Opened labels)
    (hmoves : m.Moves 1 head stack turn new w' m') (howes : Owes (head.first :: stack))
    (hhands : handsOf (head.first :: stack) = 0) (hkept : m.world.Kept) : m'.Loading load := by
  rw [handsOf_cons] at hhands
  have hzero := Nat.eq_zero_of_add_eq_zero_right hhands
  have hfew : handsOf (turn.frames ++ stack) = 0 := by
    rw [handsOf_append, hmoves.rule.hands_idle hzero, Nat.eq_zero_of_add_eq_zero_left hhands]
  have hkept' := (hopened.kept_or_dry hmoves (not_inPage hzero)).1 hkept
  rcases howes.cases_cons with hrest | ⟨hf, hbelow⟩
  · exact .owing hmoves.frames_self (hrest.under turn.frames) hfew hkept'
  · rcases hmoves.rule.owes hf with howes | ⟨o, rfl, ho⟩ | ⟨hpending, hqueue⟩
    · exact .owing hmoves.frames_self (howes.append hbelow) hfew hkept'
    · exact .failing hmoves.gives ho hbelow (h.still_open hmoves)
    · refine .dry hmoves.frames_self hfew
        (World.Dry.of_same ?_ (hqueue.of_eq hmoves.session hmoves.history))
      exact hpending.imp_left hkept

/-- The task that loads the page goes on with the load. -/
theorem Loads.moves_load (h : m.Loads load) (hopened : m.Opened labels)
    (hmoves : m.Moves 1 head stack turn new w' m') : m'.Loading load := by
  have hbefore := hmoves.before
  cases h.loading with
  | before hfs hown hready hkept =>
      cases hbefore.symm.trans hfs
      exact h.moves_before hopened hmoves hown hready hkept
  | owing hfs howes hhands hkept =>
      cases hbefore.symm.trans hfs
      exact h.moves_owing hopened hmoves howes hhands hkept
  | dry hfs hhands hdry =>
      cases hbefore.symm.trans hfs
      rw [handsOf_cons] at hhands
      have hzero := Nat.eq_zero_of_add_eq_zero_right hhands
      refine .dry hmoves.frames_self ?_ ((hopened.kept_or_dry hmoves (not_inPage hzero)).2 hdry)
      rw [handsOf_append, hmoves.rule.hands_idle hzero, Nat.eq_zero_of_add_eq_zero_left hhands]
  | @failing fs o hcurrent ho hfs _ =>
      cases fs with
      | nil =>
          have heq := hmoves.current.symm.trans hcurrent
          cases head <;> cases heq
      | cons f fs =>
          obtain ⟨-, rfl, rfl⟩ := hmoves.head_eq hcurrent
          obtain rfl := hmoves.rule.through (hfs f (List.mem_cons_self ..)) ho
          exact .failing hmoves.gives ho (fun f' hf' => hfs f' (List.mem_cons_of_mem _ hf'))
            (h.still_open hmoves)
  | failed houtcome ho => exact .failed (hmoves.grows.settled _ _ houtcome) ho

/-- Every step keeps the load on its way. -/
theorem Loads.step (h : m.Loads load) (hm : m.Sound) (hopened : m.Opened labels)
    (hstep : m.step = some m') : m'.Loads load := by
  rcases hm.moves_or_rests hstep with ⟨t, head, stack, turn, new, w', hmoves⟩ | hrests
  · refine ⟨hmoves.grows.task h.kind, ?_, ?_, ?_⟩
    · intro u hu fs hfs
      rcases hmoves.frames_cases hfs with ⟨rfl, rfl⟩ | ⟨-, hfs⟩ | ⟨-, hnew⟩
      · have hzero := h.others u hu _ hmoves.before
        rw [handsOf_cons] at hzero
        have hturn := hmoves.rule.hands_le
        rw [Nat.eq_zero_of_add_eq_zero_right hzero] at hturn
        rw [handsOf_append, Nat.le_zero.mp hturn, Nat.eq_zero_of_add_eq_zero_left hzero]
      · exact h.others u hu fs hfs
      · obtain ⟨p, sub, rfl⟩ := hopened.begins hmoves hnew
        rfl
    · intro f fs hfs
      rw [hmoves.ended load 1 h.kind]
      rcases hmoves.frames_old (hm.threads.lt_of_ending h.kind) hfs with ⟨rfl, -⟩ | ⟨-, hfs⟩
      · exact h.opened _ _ hmoves.before
      · exact h.opened f fs hfs
    · by_cases ht : t = 1
      · subst ht
        exact h.moves_load hopened hmoves
      · exact h.moves_other hm hopened hmoves ht
  · have hqueue := World.SameQueue.of_minor hrests.session hrests.history
    refine ⟨hrests.grows.task h.kind, ?_, ?_, ?_⟩
    · intro u hu fs hfs
      rw [hrests.frames] at hfs
      exact h.others u hu fs hfs
    · intro f fs hfs
      rw [hrests.frames] at hfs
      rcases hrests.ended load 1 h.kind with hsame | ⟨o, hcurrent, -⟩
      · rw [hsame]
        exact h.opened f fs hfs
      · rw [frames_current hcurrent] at hfs
        cases hfs
    · have hframes := hrests.frames 1
      cases h.loading with
      | before hfs hown hready hkept =>
          refine .before (hframes.trans hfs) hown ?_ (hkept.of_same hqueue)
          intro he
          exact (hrests.mem_events he).elim hready (by simp [Event.isMinor])
      | owing hfs hown hnone hkept =>
          exact .owing (hframes.trans hfs) hown hnone (hkept.of_same hqueue)
      | dry hfs hnone hdry => exact .dry (hframes.trans hfs) hnone (hdry.of_same hqueue)
      | @failing fs o hcurrent ho hfs hopen =>
          cases fs with
          | nil => exact .failed (hrests.finished load 1 o h.kind hopen hcurrent) ho
          | cons f fs => exact absurd hcurrent hrests.not_frame
      | failed houtcome ho => exact .failed (hrests.grows.settled _ _ houtcome) ho

/-- Where the load has come to a value after the page was ready, nothing is pending any more. -/
theorem Loads.dry (h : m.Loads load) (hready : .ready ∈ m.world.events)
    (hvalue : ∃ v, m.world.scheduler.outcome? load = some (.value v)) : m.world.Dry := by
  obtain ⟨v, hv⟩ := hvalue
  cases h.loading with
  | before _ _ hnot => exact absurd hready hnot
  | owing hfs howes =>
      obtain ⟨above, f, below, rfl, -, -⟩ := howes
      have hopen : m.world.scheduler.outcome? load = none := by
        cases above with
        | nil => exact h.opened _ _ hfs
        | cons a above => exact h.opened _ _ hfs
      rw [hopen] at hv
      cases hv
  | dry _ _ hdry => exact hdry
  | failing _ _ _ hopen =>
      rw [hopen] at hv
      cases hv
  | failed houtcome ho =>
      cases hv.symm.trans houtcome
      cases ho

/-- The load of the page begins when the environment has started anew. -/
theorem Preparing.loads {first : Option Command} {v : Value} (h : m.Preparing)
    (hmoves : m.Moves 0 (.frame (.reset first) (.value v)) stack turn new w' m') :
    m'.Loads m.world.scheduler.futures.length := by
  have hturn : handsOf turn.frames = 0 := Nat.le_zero.mp hmoves.rule.hands_le
  have hstack : handsOf stack = 0 := by
    have hzero (f : Frame) (hf : f ∈ stack) : f.hands = 0 :=
      Frame.hands_of_early (h.early _ hmoves.before f (List.mem_cons_of_mem _ hf))
    clear hmoves
    induction stack with
    | nil => rfl
    | cons f fs ih =>
        rw [handsOf_cons, hzero f (List.mem_cons_self ..),
          ih fun f' hf' => hzero f' (List.mem_cons_of_mem _ hf')]
  have hframes : m'.frames 1 = some [.begin (.load first)] :=
    (h.frames_iff hmoves Nat.one_ne_zero).mpr ⟨rfl, rfl⟩
  refine ⟨(h.racing hmoves).kind, ?_, ?_, .before hframes ?_ ?_ ?_⟩
  · intro u hu fs hfs
    by_cases hzero : u = 0
    · subst hzero
      cases hmoves.frames_self.symm.trans hfs
      rw [handsOf_append, hturn, hstack]
    · exact absurd ((h.frames_iff hmoves hzero).mp hfs).1 hu
  · intro f fs _
    rw [hmoves.outcome?]
    cases World.asks_of_reset hmoves.rule with
    | opened =>
        refine (Scheduler.outcome?_gather _ _ _).trans ?_
        change (m.world.scheduler.newFuture _).2.outcome? _ = _
        rw [Scheduler.outcome?_newFuture, Scheduler.outcome?_length]
  · exact .inr ⟨[], _, [], rfl, rfl, Nat.le_refl 1, by simp, rfl⟩
  · intro he
    rcases hmoves.mem_events he with hbefore | hof
    · exact h.fresh.1 hbefore
    · cases hof
  · intro hnone
    rw [hmoves.session] at hnone
    cases World.asks_of_reset hmoves.rule with
    | opened => cases hnone

end Machine

/-! ## Runs -/

namespace TestSetup

variable {setup : TestSetup} {g : Generator} {m : Machine} {labels : List String}

/-- Once the queue was opened, the page is loaded in a race against all that the test heeds. -/
theorem Reaches.racing (h : setup.Reaches g m) :
    m.Preparing ∨ ∃ load members, m.Racing load members ∧ m.Loads load ∧
      ∀ f, m.world.Heeds f → f ∈ members := by
  induction h with
  | refl => exact .inl (preparing_machine setup g)
  | @tail m₁ m₂ hfirst hlast ih =>
      have hreach : setup.Reaches g m₁ := hfirst
      have hm := hreach.sound
      rcases ih with hprep | ⟨load, members, hracing, hloads, hheeds⟩
      · rcases hprep.step hm hlast with ⟨-, hprep'⟩ | ⟨⟨t, first, v, fs, hcurrent⟩, -⟩
        · exact .inl hprep'
        · rcases hm.moves_or_rests hlast with ⟨u, head, stack, turn, new, w', hmoves⟩ | hrests
          · obtain ⟨rfl, rfl, rfl⟩ := hmoves.head_eq hcurrent
            have hlt := hmoves.lt hm
            rw [hprep.tasks] at hlt
            cases Nat.lt_one_iff.mp hlt
            refine .inr ⟨_, _, hprep.racing hmoves, hprep.loads hmoves, fun f hf => ?_⟩
            exact World.mem_racers ((hm.heeds_of_started hlast (hprep.started hmoves.before)).mp hf)
          · exact absurd hcurrent hrests.not_frame
      · obtain ⟨labels, hopened⟩ : ∃ labels, m₁.Opened labels := by
          rcases hreach.preparing_or_opened with hprep | ⟨labels, -, hopened⟩
          · have hlt := (hm.threads).lt_of_ending hloads.kind
            rw [hprep.tasks] at hlt
            exact absurd hlt (Nat.lt_irrefl 1)
          · exact ⟨labels, hopened⟩
        obtain ⟨parent, hit, hspared⟩ := hreach.spared
        refine .inr ⟨load, members, hracing.step hm hspared hopened hlast,
          hloads.step hm hopened hlast, fun f hf => ?_⟩
        exact hheeds f ((hm.heeds_of_started hlast hopened.started).mp hf)

/-- Where the run phase has ended without a failure after the page was ready, all expectations were
asserted, unless a command has dropped them. -/
theorem Reaches.popped_of_passed (h : setup.Reaches g m) (hopens : setup.Opens g labels m)
    (hpassed : .passed ∈ m.world.events) (hready : .ready ∈ m.world.events)
    (hdiscards : m.world.discards = []) : m.world.popped = labels := by
  rcases h.racing with hprep | ⟨load, members, hracing, hloads, -⟩
  · exact absurd hready hprep.fresh.1
  · obtain ⟨rest, hrest, hpending⟩ := hopens.opened.queue
    rcases hloads.dry hready (hracing.race.won hpassed).value with hno | hempty
    · exact absurd hdiscards hno
    · unfold Session.pendingLabels at hpending
      rw [hempty] at hpending
      rcases hpending with hnone | hsome
      · cases hnone
      · have hnil : rest = [] := (Option.some.inj hsome).symm
        rw [hrest, hnil, List.append_nil]

end TestSetup

end HotSpec
