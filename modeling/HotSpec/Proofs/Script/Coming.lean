import HotSpec.Proofs.Script.Preparation

/-!
# Until the page is handed over

The environment loads the page for the command that has asked for it, and hands it over with that command,
as long as it hands it over at all.  Until then the script is left alone.

Main definitions:

- `handed?`: the command with which deeds hand a page over.
- `Machine.Coming`: where the task that loads the page stands before the test begins on it.

Main results:

- Theorem `Coming.moves_self`: the page begins with the command that has asked for it.
-/

namespace HotSpec

variable {r : Registry} {talk : Talk} {m m' : Machine}

/-! ## Frames -/

/-- The command with which deeds hand the page over. -/
def handed? : List Deed → Option (Option Command)
  | [] => none
  | .handOver first :: _ => some first
  | _ :: ds => handed? ds

theorem handed?_steps (steps : List LoadStep) (ds : List Deed) :
    handed? (steps.map LoadStep.deed ++ ds) = handed? ds := by
  induction steps with
  | nil => rfl
  | cons step steps ih => cases step <;> exact ih

/-- An environment hands the page over with the command that it was asked to load the page for. -/
theorem Environment.handed?_loadDeeds (e : Environment) (url : String) (first : Option Command) :
    ∀ first', handed? (e.loadDeeds url first) = some first' → first' = first := by
  unfold loadDeeds
  intro first' h
  rw [handed?_steps] at h
  split at h
  · exact (Option.some.inj h).symm
  · cases h

/-- Whether frames that come after the test on the page pass on every outcome but a value, and do not
hand the page over. -/
def Closing (fs : List Frame) : Prop := (∀ f ∈ fs, f.isThrough = true) ∧ handsOf fs = 0

theorem Closing.cons {f : Frame} {fs : List Frame} (h : Closing (f :: fs)) :
    f.isThrough = true ∧ Closing fs := by
  have hzero := h.2
  rw [handsOf_cons] at hzero
  exact ⟨h.1 f (List.mem_cons_self ..), fun f' hf' => h.1 f' (List.mem_cons_of_mem _ hf'),
    Nat.eq_zero_of_add_eq_zero_left hzero⟩

theorem Closing.foreign {fs : List Frame} (h : Closing fs) : Foreign fs := by
  refine ⟨fun f hf => ?_, fun f hf => ?_⟩
  · have hthrough := h.1 f hf
    cases f with
    | deeds ds =>
        obtain ⟨before, after, rfl⟩ := List.append_of_mem hf
        have hzero := h.2
        rw [handsOf_append, handsOf_cons] at hzero
        have hdeeds : handsIn ds = 0 :=
          Nat.eq_zero_of_add_eq_zero_right (Nat.eq_zero_of_add_eq_zero_left hzero)
        simpa [Frame.isForeign] using hdeeds
    | pageDone | unloaded | flushed => rfl
    | _ => cases hthrough
  · have hthrough := h.1 f (List.mem_of_getLast? hf)
    cases f with
    | begin work => cases hthrough
    | _ => rfl

/-- What becomes of deeds: they fail, or go on, or hand the page over. -/
theorem Rule.deeds {head : Head} {w w' : World} {turn : Turn} {ds : List Deed}
    (h : Rule head w turn w') (hfirst : head.first = .begin (.deeds ds) ∨ head.first = .deeds ds) :
    (∃ o, turn = .give o) ∨
    (∃ above f ds', turn.frames = above ++ [f] ∧ Foreign above ∧
      (f = .begin (.deeds ds') ∨ f = .deeds ds') ∧ handsIn ds' = handsIn ds ∧
      handed? ds' = handed? ds) ∨
    ∃ first ds', turn = .call (.inPage first) [.pageDone, .deeds ds'] ∧
      ds = .handOver first :: ds' := by
  cases h with
  | asks h => cases h <;> rcases hfirst with heq | heq <;> cases heq
  | reply r | pass => exact .inl ⟨_, rfl⟩
  | call hcall h =>
      cases hcall with
      | chore | openPage | deeds | begin =>
          rcases hfirst with heq | heq <;> cases heq
          exact .inr (.inl ⟨[], _, _, rfl, foreign_nil, .inl rfl, rfl, rfl⟩)
      | nap =>
          rcases hfirst with heq | heq <;> cases heq
          exact .inr (.inl ⟨[_], _, _, rfl, foreign_single rfl rfl, .inr rfl, rfl, rfl⟩)
      | beforeLoad =>
          rcases hfirst with heq | heq <;> cases heq
          exact .inr (.inl ⟨[_], _, _, rfl, foreign_single rfl rfl, .inr rfl, rfl, rfl⟩)
      | handOver =>
          rcases hfirst with heq | heq <;> cases heq
          exact .inr (.inr ⟨_, _, rfl, rfl⟩)
      | _ => rcases hfirst with heq | heq <;> cases heq
  | _ => rcases hfirst with heq | heq <;> cases heq

/-! ## Machines -/

/-- Where the task that loads the page stands before the test begins on it, for a given command. -/
inductive Machine.Coming (m : Machine) (first : Option Command) : Prop
  | fresh (h : m.frames 1 = some [.begin (.load first)]) (hturn : m.current.map Prod.fst ≠ some 1)
      (hwait : m.world.scheduler.awaiting 1 = none) (hready : .ready ∉ m.world.events)
  | given {v : Value} (h : m.current = some (1, .outcome (.value v) [.begin (.load first)]))
      (hready : .ready ∉ m.world.events)
  | loads (h : m.current = some (1, .work (.load first) [])) (hready : .ready ∉ m.world.events)
  /-- The page is being loaded. -/
  | loading {above : List Frame} {f : Frame} {ds : List Deed}
      (h : m.frames 1 = some (above ++ [f, .unloaded])) (habove : Foreign above)
      (hf : f = .begin (.deeds ds) ∨ f = .deeds ds) (hone : handsIn ds ≤ 1)
      (hfirst : ∀ first', handed? ds = some first' → first' = first)
      (hready : .ready ∉ m.world.events)
  /-- The page will not be handed over. -/
  | missed {above : List Frame} (h : m.frames 1 = some (above ++ [.unloaded]))
      (habove : Foreign above) (hready : .ready ∉ m.world.events)
  | inPage {below : List Frame} (h : m.current = some (1, .work (.inPage first) below))
      (hbelow : Closing below)
  /-- The expectation of the initial label is being asserted. -/
  | opens {above below : List Frame} (h : m.frames 1 = some (above ++ .opened first :: below))
      (habove : Foreign above) (hbelow : Closing below)

namespace Machine

variable {t : TaskId} {head : Head} {stack : List Frame} {turn : Turn} {new : List (List Frame)}
  {w' : World} {labels : List String} {load : FutureId} {first : Option Command}

/-- A step that leaves all frames is none of a task that has something to do. -/
theorem Rests.not_current {c : Control} (h : m.Rests m') (hc : c.frames ≠ []) :
    m.current ≠ some (t, c) := by
  intro hcurrent
  rcases h.before with hidle | ⟨u, o, hout⟩
  · cases hidle.symm.trans hcurrent
  · cases hout.symm.trans hcurrent
    exact hc rfl

theorem Moves.work_eq {u : TaskId} {work : Work} {fs : List Frame}
    (h : m.Moves t head stack turn new w' m') (hcurrent : m.current = some (u, .work work fs)) :
    t = u ∧ head = .work work ∧ stack = fs := by
  have heq := h.current.symm.trans hcurrent
  cases head with
  | frame f o => cases heq
  | work work' =>
      cases heq
      exact ⟨rfl, rfl, rfl⟩

/-- A step that leaves all frames leaves the page where it is. -/
theorem Coming.rests (h : m.Coming first) (hrests : m.Rests m')
    (hunstopped : ∀ o fs, m'.current = some (1, .outcome o fs) → o ≠ .stopped) :
    m'.Coming first := by
  have hready (hnot : .ready ∉ m.world.events) : .ready ∉ m'.world.events := fun he =>
    (hrests.mem_events he).elim hnot (by simp [Event.isMinor])
  cases h with
  | fresh hfs hturn hwait hnot =>
      by_cases hcurrent : m'.current.map Prod.fst = some 1
      · obtain ⟨⟨u, c⟩, hc, rfl⟩ := Option.map_eq_some_iff.mp hcurrent
        obtain ⟨-, o, fs, rfl⟩ := hrests.current _ _ hc
        have hfs' := (frames_current hc).symm.trans ((hrests.frames 1).trans hfs)
        cases hfs'
        rcases hrests.given 1 o _ hc with ⟨rfl, -⟩ | ⟨rfl, -⟩ | ⟨i, hi, -⟩
        · exact .given hc (hready hnot)
        · exact absurd rfl (hunstopped _ _ hc)
        · cases hwait.symm.trans hi
      · refine .fresh ((hrests.frames 1).trans hfs) hcurrent ?_ (hready hnot)
        rw [hrests.awaiting, if_neg hcurrent]
        exact hwait
  | loading hfs habove hf hone hfirst hnot =>
      exact .loading ((hrests.frames 1).trans hfs) habove hf hone hfirst (hready hnot)
  | missed hfs habove hnot => exact .missed ((hrests.frames 1).trans hfs) habove (hready hnot)
  | opens hfs habove hbelow => exact .opens ((hrests.frames 1).trans hfs) habove hbelow
  | given hcurrent | loads hcurrent | inPage hcurrent =>
      exact absurd hcurrent (hrests.not_current (by simp [Control.frames]))

/-- A task other than the one that loads the page leaves that where it is. -/
theorem Coming.moves_other (h : m.Coming first) (hloads : m.Loads load)
    (hmoves : m.Moves t head stack turn new w' m') (ht : t ≠ 1)
    (hframes : m'.frames 1 = m.frames 1) : m'.Coming first := by
  have hready (hnot : .ready ∉ m.world.events) : .ready ∉ m'.world.events := by
    have hzero := hloads.others t ht _ hmoves.before
    rw [handsOf_cons] at hzero
    exact hmoves.not_ready hnot (not_inPage (Nat.eq_zero_of_add_eq_zero_right hzero))
  cases h with
  | fresh hfs hturn hwait hnot =>
      refine .fresh (hframes.trans hfs) ?_ ?_ (hready hnot)
      · rw [hmoves.next]
        cases turn.control stack with
        | none => simp
        | some c => simpa using ht
      · rw [hmoves.awaiting, if_neg (Ne.symm ht)]
        exact hwait
  | loading hfs habove hf hone hfirst hnot =>
      exact .loading (hframes.trans hfs) habove hf hone hfirst (hready hnot)
  | missed hfs habove hnot => exact .missed (hframes.trans hfs) habove (hready hnot)
  | opens hfs habove hbelow => exact .opens (hframes.trans hfs) habove hbelow
  | given hcurrent | loads hcurrent | inPage hcurrent =>
      have heq := hmoves.current.symm.trans hcurrent
      exact absurd (congrArg Prod.fst (Option.some.inj heq)) ht

end Machine

/-! ## Steps -/

open Machine

variable {setup : TestSetup} {g : Generator} {labels : List String} {load : FutureId}
  {first : Option Command} {head : Head} {stack : List Frame}

/-- Frames that leave the script alone make a step in a smooth test. -/
theorem TestSetup.Smooth.foreign_step {t : TaskId} {f : Frame} {above below : List Frame}
    (hsmooth : setup.Smooth g) (hreach : setup.Reaches g m) (h : Foreign (f :: above))
    (hstep : m.step = some m') (hcurrent : m.current = some (t, head.control stack))
    (hfs : head.first :: stack = f :: above ++ below) (hstarted : m.world.session.started = true)
    (hlt : scriptNumber < m.world.generators.length) :
    m.words = [] ∧ ∃ above', m'.frames t = some (above' ++ below) ∧ Foreign above' := by
  refine h.step hreach.sound hstep hcurrent hfs ?_ hstarted hlt
  intro hruns
  cases head with
  | frame f o => cases hruns
  | work work =>
      cases work with
      | sub p v =>
          cases v with
          | generator number name => exact hsmooth.alone m hreach _ _ _ _ _ hcurrent hruns
          | _ => cases hruns
      | _ => cases hruns

theorem Foreign.not_inPage {above : List Frame} {f : Frame} (h : Foreign (f :: above))
    (hf : head.first = f) (first : Option Command) : head ≠ .work (.inPage first) := by
  rintro rfl
  have hforeign := h.frames f (List.mem_cons_self ..)
  rw [← hf] at hforeign
  cases hforeign

/-- A step with which the page is still on its way, or begins with the command that has asked for it. -/
def Machine.Comes (m' : Machine) (first : Option Command) : Prop :=
  m'.Coming first ∨ ∃ work frames below, Begins first (.begin work :: frames) ∧
    m'.current = some (1, .work work (frames ++ below)) ∧ Closing below

section Self

variable {turn : Turn} {new : List (List Frame)} {w' : World} {above below : List Frame}

/-- The deeds that load the page are done one after the other, up to the one that hands it over. -/
theorem Machine.Moves.loading {f : Frame} {ds : List Deed}
    (hmoves : m.Moves 1 head stack turn new w' m') (hfs : m.frames 1 = some [f, .unloaded])
    (hf : f = .begin (.deeds ds) ∨ f = .deeds ds) (hone : handsIn ds ≤ 1)
    (hfirst : ∀ first', handed? ds = some first' → first' = first)
    (hnot : .ready ∉ m.world.events) : m.words = [] ∧ m'.Coming first := by
  obtain ⟨hhead, rfl⟩ := hmoves.first_eq hfs
  have hsilent : head.first.isSilent = true := by
    rw [hhead]
    rcases hf with rfl | rfl <;> rfl
  have hpage (first : Option Command) : head ≠ .work (.inPage first) := by
    rintro rfl
    rcases hf with rfl | rfl <;> cases hhead
  have hready := hmoves.not_ready hnot hpage
  have hframes := hmoves.frames_self
  refine ⟨words_of_silent hmoves.current hsilent, ?_⟩
  rcases hmoves.rule.deeds (hhead ▸ hf) with ⟨o, rfl⟩ |
    ⟨above, f', ds', heq, habove', hf', hhands, hfirst'⟩ | ⟨first', ds', rfl, rfl⟩
  · exact .missed hframes foreign_nil hready
  · rw [heq, List.append_assoc] at hframes
    exact .loading hframes habove' hf' (hhands ▸ hone) (hfirst' ▸ hfirst) hready
  · obtain rfl := hfirst first' rfl
    have hzero : handsIn ds' = 0 := Nat.le_zero.mp (Nat.le_of_succ_le_succ hone)
    exact .inPage hmoves.next ⟨by simp [Frame.isThrough], by simp [Frame.hands, hzero]⟩

/-- A page that is handed over begins with the command, after what is expected initially. -/
theorem Machine.Moves.inPage (hreach : setup.Reaches g m) (hsmooth : setup.Smooth g)
    (hmoves : m.Moves 1 head stack turn new w' m')
    (hcurrent : m.current = some (1, .work (.inPage first) below)) (hbelow : Closing below) :
    m.words = [] ∧ m'.Comes first := by
  obtain ⟨-, rfl, rfl⟩ := hmoves.work_eq hcurrent
  refine ⟨words_of_silent hmoves.current rfl, ?_⟩
  cases hmoves.rule with
  | asks h => cases h
  | call hcall h => cases hcall
  | reply r hhead => cases hhead
  | ready hlabel hbegins => exact .inr ⟨_, _, _, hbegins, hmoves.next, hbelow⟩
  | checked hlabel h =>
      have hopens : m'.frames 1 =
          some ([.begin (.drain (some _) true none)] ++ .opened first :: stack) := hmoves.frames_self
      exact .inl (.opens hopens (foreign_single rfl rfl) hbelow)
  | @unchecked first label other queue _ fault hlabel hpending hother =>
      have hchecked := hsmooth.checks m hreach _ _ _ _ hcurrent hlabel
      unfold Session.ensureFirst at hchecked
      rw [hpending] at hchecked
      simp [hother] at hchecked

/-- Once what is expected initially was asserted, the page begins with the command. -/
theorem Machine.Moves.opens (hreach : setup.Reaches g m) (hsmooth : setup.Smooth g)
    (hmoves : m.Moves 1 head stack turn new w' m') (hfs : m.frames 1 = some (.opened first :: below))
    (hbelow : Closing below) : m.words = [] ∧ m'.Comes first := by
  obtain ⟨o, rfl, rfl⟩ := hmoves.frame_eq hfs (by simp)
  have hcurrent := hmoves.current
  refine ⟨words_of_silent hcurrent rfl, .inr ?_⟩
  have hvalue := hsmooth.opens m hreach _ _ _ _ hcurrent
  cases hmoves.rule with
  | asks h => cases h
  | call hcall h =>
      cases hcall with
      | opened hbegins => exact ⟨_, _, _, hbegins, hmoves.next, hbelow⟩
  | reply r hhead => cases hhead
  | pass hf =>
      change (!o.isValue) = true at hf
      rw [hvalue] at hf
      cases hf

end Self

/-- The page is loaded, until it begins with the command that has asked for it. -/
theorem Machine.Coming.moves_self (h : m.Coming first) (hreach : setup.Reaches g m)
    (hsmooth : setup.Smooth g) (hstarted : m.world.session.started = true)
    (hlt : scriptNumber < m.world.generators.length) (hstep : m.step = some m')
    (hcurrent : m.current = some (1, head.control stack)) : m.words = [] ∧ m'.Comes first := by
  obtain ⟨new, hmoves⟩ := hreach.sound.moves_of_head hstep hcurrent
  generalize (head.run.run m.world).1 = turn at hmoves
  generalize (head.run.run m.world).2 = w' at hmoves
  have habove {f : Frame} {above below : List Frame} (h : Foreign (f :: above))
      (hfs : m.frames 1 = some (f :: above ++ below)) :=
    hsmooth.foreign_step hreach h hstep hcurrent
      (Option.some.inj (hmoves.before.symm.trans hfs)) hstarted hlt
  cases h with
  | fresh hfs hturn =>
      rw [hcurrent] at hturn
      exact absurd rfl hturn
  | given hcurrent' hnot =>
      obtain ⟨-, rfl, rfl⟩ := hmoves.head_eq hcurrent'
      refine ⟨words_of_silent hcurrent rfl, .inl (.loads ?_ (hmoves.not_ready hnot (by simp)))⟩
      cases hmoves.rule with
      | asks h => cases h
      | call hcall h =>
          cases hcall
          exact hmoves.next
      | reply r hhead => cases hhead
      | pass hf => cases hf
  | loads hcurrent' hnot =>
      obtain ⟨-, rfl, rfl⟩ := hmoves.work_eq hcurrent'
      refine ⟨words_of_silent hcurrent rfl, .inl ?_⟩
      cases hmoves.rule with
      | asks h => cases h
      | call hcall h => cases hcall
      | reply r hhead => cases hhead
      | load h =>
          have hdeeds : m'.frames 1 = some ([] ++ [.begin (.deeds _), .unloaded]) :=
            hmoves.frames_self
          exact .loading hdeeds foreign_nil (.inl rfl) (Environment.handsIn_loadDeeds _ _ _)
            (Environment.handed?_loadDeeds _ _ _) (hmoves.not_ready hnot (by simp))
  -- Where frames that leave the script alone are on top, these go on first.
  | @loading above f ds hfs hforeign hf hone hfirst hnot =>
      cases above with
      | cons f' above =>
          obtain ⟨hwords, above', hfs', habove'⟩ := habove hforeign hfs
          have hready := hmoves.not_ready hnot (hforeign.not_inPage (hmoves.first_eq hfs).1)
          exact ⟨hwords, .inl (.loading hfs' habove' hf hone hfirst hready)⟩
      | nil =>
          obtain ⟨hwords, hcoming⟩ := hmoves.loading hfs hf hone hfirst hnot
          exact ⟨hwords, .inl hcoming⟩
  | @missed above hfs hforeign hnot =>
      cases above with
      | cons f above =>
          obtain ⟨hwords, above', hfs', habove'⟩ := habove hforeign hfs
          have hready := hmoves.not_ready hnot (hforeign.not_inPage (hmoves.first_eq hfs).1)
          exact ⟨hwords, .inl (.missed hfs' habove' hready)⟩
      | nil =>
          obtain ⟨o, rfl, rfl⟩ := hmoves.frame_eq hfs (by simp)
          exact absurd (hsmooth.loads m hreach _ _ _ hcurrent) hnot
  | inPage hcurrent' hbelow => exact hmoves.inPage hreach hsmooth hcurrent' hbelow
  | @opens above below hfs hforeign hbelow =>
      cases above with
      | cons f above =>
          obtain ⟨hwords, above', hfs', habove'⟩ := habove hforeign hfs
          exact ⟨hwords, .inl (.opens hfs' habove' hbelow)⟩
      | nil => exact hmoves.opens hreach hsmooth hfs hbelow

end HotSpec
