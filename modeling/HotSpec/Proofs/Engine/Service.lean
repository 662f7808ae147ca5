import HotSpec.Proofs.Engine.Prompt

/-!
# Whoever waits gets a turn

What is in the queue is handled once all that stands before it has been, as long as the turns that begin
meanwhile come to their ends.  So a task that waits for others goes on as soon as they allow it.

Main definitions:

- `Machine.Leads`: a machine that comes to one of a kind.
- `Machine.Brief`: machines whose turns come to their ends.
- `Machine.Parked`: a task that waits for a future.

Main results:

- Theorem `Brief.handled`: what is in the queue is handled.
- Theorem `Brief.turn`: a task goes on that waits for several futures which allow it.
-/

namespace HotSpec

namespace Machine

variable {m m' : Machine} {P Q : Machine → Prop} {t : TaskId} {f : FutureId} {fs : List Frame}

/-! ## Runs that come to something -/

/-- Whether a machine comes to one of a kind. -/
def Leads (m : Machine) (Q : Machine → Prop) : Prop := ∃ m', m.Steps m' ∧ Q m'

theorem Leads.here (h : Q m) : m.Leads Q := ⟨m, .refl m, h⟩

theorem Leads.next (hstep : m.step = some m') (h : m'.Leads Q) : m.Leads Q := by
  obtain ⟨m₁, hsteps, hQ⟩ := h
  exact ⟨m₁, (Steps.single hstep).trans hsteps, hQ⟩

theorem Leads.bind (h : m.Leads P) (hnext : ∀ m', P m' → m'.Leads Q) : m.Leads Q := by
  obtain ⟨m₁, hsteps₁, hP⟩ := h
  obtain ⟨m₂, hsteps₂, hQ⟩ := hnext m₁ hP
  exact ⟨m₂, hsteps₁.trans hsteps₂, hQ⟩

/-! ## Tasks that wait -/

/-- Whether a task waits for a future, and what it goes on with. -/
structure Parked (m : Machine) (t : TaskId) (f : FutureId) (fs : List Frame) : Prop where
  frames : m.frames t = some fs
  awaits : m.world.scheduler.awaiting t = some f

/-- A task waits until it gets its turn, which it does once the future is settled. -/
theorem Parked.step (h : m.Parked t f fs) (hm : m.Sound) (hstep : m.step = some m') :
    m'.Parked t f fs ∨
      m.world.scheduler.outcome? f ≠ none ∧ ∃ o, m'.current = some (t, .outcome o fs) := by
  rcases hm.moves_or_rests hstep with ⟨u, head, stack, turn, new, w', hmoves⟩ | hrests
  · have hut : t ≠ u := by
      rintro rfl
      have hnone := ((hm.threads_current hmoves.current).busy t rfl).1
      cases h.awaits.symm.trans hnone
    refine .inl ⟨?_, ?_⟩
    · rw [hmoves.frames_of_ne hut (hm.lt_of_frames h.frames)]
      exact h.frames
    · rw [hmoves.awaiting, if_neg hut]
      exact h.awaits
  · by_cases hcurrent : m'.current.map Prod.fst = some t
    · obtain ⟨⟨u, c⟩, hc, rfl⟩ := Option.map_eq_some_iff.mp hcurrent
      obtain ⟨-, o, fs', rfl⟩ := hrests.current _ _ hc
      have hfs := (frames_current hc).symm.trans ((hrests.frames _).trans h.frames)
      cases hfs
      exact .inr ⟨hrests.due _ _ f hc h.awaits, o, hc⟩
    · refine .inl ⟨(hrests.frames t).trans h.frames, ?_⟩
      rw [hrests.awaiting, if_neg hcurrent]
      exact h.awaits

/-- A task that waits is woken where the scheduler says so. -/
theorem Parked.woken {s : Scheduler (List Frame) Job} (h : m.Parked t f fs) (hm : m.Sound)
    (hidle : m.current = none) (hnext : m.world.scheduler.next = some (.wake t f, s))
    (hstep : m.step = some m') : ∃ o, m'.current = some (t, .outcome o fs) := by
  rcases h.step hm hstep with hparked | ⟨-, hturn⟩
  · rw [step_of_idle hidle, hnext] at hstep
    cases hstep
    have hsignals : ({ m.world with scheduler := s } : World).Signals :=
      hm.signals.mono (extends_takes (Scheduler.takes_next hnext)) rfl rfl rfl
    exact absurd rfl (((proceeds_handle hsignals).2 t f hparked.awaits).2 f)
  · exact hturn

/-! ## News -/

/-- What a future has still to be told of becomes less. -/
theorem Sound.left (hm : m.Sound) (hstep : m.step = some m') {n : Nat}
    (hn : (m.world.scheduler.kind f).left? = some n) :
    ∃ n', n' ≤ n ∧ (m'.world.scheduler.kind f).left? = some n' := by
  cases hcurrent : m.current with
  | some c => exact (hm.proceeds hcurrent hstep).1.left f n hn
  | none =>
      rw [step_of_idle hcurrent] at hstep
      obtain ⟨⟨handle, s⟩, hnext, rfl⟩ := Option.map_eq_some_iff.mp hstep
      have htakes := Scheduler.takes_next hnext
      have hsignals : ({ m.world with scheduler := s } : World).Signals :=
        hm.signals.mono (extends_takes htakes) rfl rfl rfl
      rw [← htakes.kind] at hn
      exact (proceeds_handle hsignals).1.left f n hn

end Machine

/-- A future that is told of another one has one less to be told of. -/
theorem Scheduler.left_tell {Stack Job : Type} {s : Scheduler Stack Job} {g i : FutureId} {n : Nat}
    (hn : (s.kind g).left? = some n) : ((s.tell g i).kind g).left? = some (n - 1) := by
  have hlt : g < s.futures.length := lt_of_left hn
  have hkind {k : FutureKind} (o : Outcome) {c : Prop} [Decidable c] :
      (if c then (s.setKind g k).settle g o else s.setKind g k).kind g = k := by
    split
    · rw [kind_settle, kind_setKind k hlt, if_pos rfl]
    · rw [kind_setKind k hlt, if_pos rfl]
  cases hk : s.kind g with
  | firstFault members left =>
      rw [hk] at hn
      cases hn
      rw [tell_firstFault hk, hkind]
      rfl
  | all members left stopping =>
      rw [hk] at hn
      cases hn
      rw [tell_all hk, hkind]
      rfl
  | signal | released | task t =>
      rw [hk] at hn
      cases hn

/-! ## Queues -/

namespace Machine

variable {m m' : Machine} {P Q R : Machine → Prop} {t : TaskId} {f : FutureId} {fs : List Frame}

/-- Machines that stay what they are and whose turns come to their ends. -/
structure Brief (P : Machine → Prop) : Prop where
  sound : ∀ m, P m → m.Sound
  prompt : ∀ m, P m → m.Prompt
  step : ∀ m m', P m → m.step = some m' → P m'
  ends : ∀ m, P m → m.Leads fun m' => m'.current = none

/-- A turn comes to its end, unless something else comes about before. -/
theorem Brief.rest (h : Brief P) (hP : P m) (hR : R m)
    (hstep : ∀ m m', P m → R m → m.step = some m' → R m' ∨ Q m') :
    (m.Leads fun m' => P m' ∧ Q m') ∨
    m.Leads fun m' => P m' ∧ R m' ∧ m'.current = none ∧
      ∃ more, m'.world.scheduler.queue = m.world.scheduler.queue ++ more := by
  obtain ⟨m₀, hsteps, hidle⟩ := h.ends m hP
  have hhere {m : Machine} (hP : P m) (hR : R m) (hidle : m.current = none) :
      m.Leads fun m' => P m' ∧ R m' ∧ m'.current = none ∧
        ∃ more, m'.world.scheduler.queue = m.world.scheduler.queue ++ more :=
    .here ⟨hP, hR, hidle, [], (List.append_nil _).symm⟩
  -- The turn is over at the latest where the run is between two turns.
  induction hsteps using Relation.ReflTransGen.head_induction_on with
  | refl => exact .inr (hhere hP hR hidle)
  | @head m m₁ hstep₁ hlater ih =>
      cases hcurrent : m.current with
      | none => exact .inr (hhere hP hR hcurrent)
      | some c =>
          have hP₁ := h.step m m₁ hP hstep₁
          rcases hstep m m₁ hP hR hstep₁ with hR₁ | hQ₁
          · obtain ⟨more₁, hqueue₁⟩ := ((h.sound m hP).proceeds hcurrent hstep₁).1.queue
            rcases ih hP₁ hR₁ with hleads | hleads
            · exact .inl (hleads.next hstep₁)
            · refine .inr ((hleads.next hstep₁).bind fun m₂ => ?_)
              rintro ⟨hP₂, hR₂, hidle, more₂, hqueue₂⟩
              exact .here ⟨hP₂, hR₂, hidle, more₁ ++ more₂, by rw [hqueue₂, hqueue₁, List.append_assoc]⟩
          · exact .inl (.next hstep₁ (.here ⟨hP₁, hQ₁⟩))

/-- What is in the queue is handled, unless something else comes about before. -/
theorem Brief.handled (h : Brief P) {handle : Handle Job} (hP : P m) (hR : R m)
    (hmem : handle ∈ m.world.scheduler.queue)
    (hstep : ∀ m m', P m → R m → m.step = some m' → R m' ∨ Q m')
    (hlast : ∀ m m' s, P m → R m → m.current = none → m.world.scheduler.next = some (handle, s) →
      m.step = some m' → Q m') : m.Leads fun m' => P m' ∧ Q m' := by
  obtain ⟨before, behind, hqueue⟩ := List.append_of_mem hmem
  clear hmem
  -- What stands before it becomes less whenever something is handled, and never more.
  induction before generalizing m behind with
  | nil =>
      rcases h.rest hP hR hstep with hleads | hleads
      · exact hleads
      · refine hleads.bind fun m₁ ⟨hP₁, hR₁, hidle, more, hqueue₁⟩ => ?_
        rw [hqueue] at hqueue₁
        obtain ⟨s, -, hnext, -⟩ := Scheduler.next_of_queue hqueue₁
        have hstep₁ : m₁.step = some (Machine.handle { m₁.world with scheduler := s } handle) := by
          rw [step_of_idle hidle, hnext]
          rfl
        exact .next hstep₁ (.here ⟨h.step _ _ hP₁ hstep₁, hlast _ _ s hP₁ hR₁ hidle hnext hstep₁⟩)
  | cons first before ih =>
      rcases h.rest hP hR hstep with hleads | hleads
      · exact hleads
      · refine hleads.bind fun m₁ ⟨hP₁, hR₁, hidle, more, hqueue₁⟩ => ?_
        rw [hqueue] at hqueue₁
        obtain ⟨s, more', hnext, hs⟩ := Scheduler.next_of_queue hqueue₁
        have hstep₁ : m₁.step = some (Machine.handle { m₁.world with scheduler := s } first) := by
          rw [step_of_idle hidle, hnext]
          rfl
        have hP₂ := h.step _ _ hP₁ hstep₁
        have hsignals : ({ m₁.world with scheduler := s } : World).Signals :=
          (h.sound _ hP₁).signals.mono (extends_takes (Scheduler.takes_next hnext)) rfl rfl rfl
        rcases hstep _ _ hP₁ hR₁ hstep₁ with hR₂ | hQ₂
        · obtain ⟨more'', hqueue₂⟩ := (@proceeds_handle first _ hsignals).1.queue
          refine .next hstep₁ (ih hP₂ hR₂ (behind ++ more ++ more' ++ more'') ?_)
          rw [hqueue₂, hs]
          simp
        · exact .next hstep₁ (.here ⟨hP₂, hQ₂⟩)

/-- A task that waits for a settled future gets its turn. -/
theorem Brief.wakes (h : Brief P) (hP : P m) (hparked : m.Parked t f fs)
    (hsettled : m.world.scheduler.outcome? f ≠ none) :
    m.Leads fun m' => P m' ∧ ∃ o, m'.current = some (t, .outcome o fs) := by
  refine h.handled (R := (·.Parked t f fs)) hP hparked
    ((h.prompt m hP).wake (h.sound m hP) hparked.awaits hsettled) ?_ ?_
  · intro m₁ m₂ hP₁ hparked₁ hstep
    exact (hparked₁.step (h.sound _ hP₁) hstep).imp_right And.right
  · intro m₁ m₂ s hP₁ hparked₁ hidle hnext hstep
    exact hparked₁.woken (h.sound _ hP₁) hidle hnext hstep

/-- A future that waits for others is settled, as long as there are news for it whenever it is open. -/
theorem Brief.settles (h : Brief P) (hP : P m) (hparked : m.Parked t f fs)
    (hgroup : (m.world.scheduler.kind f).isGroup = true)
    (hnews : ∀ m, P m → m.Parked t f fs → m.world.scheduler.outcome? f = none →
      ∃ i, .told f i ∈ m.world.scheduler.queue) :
    m.Leads fun m' => P m' ∧ m'.Parked t f fs ∧ m'.world.scheduler.outcome? f ≠ none := by
  obtain ⟨n, hn⟩ := Option.isSome_iff_exists.mp hgroup
  clear hgroup
  -- Whatever it is told leaves less to be told.
  induction n using Nat.strongRecOn generalizing m with
  | ind n ih =>
      by_cases hopen : m.world.scheduler.outcome? f = none
      swap
      · exact .here ⟨hP, hparked, hopen⟩
      obtain ⟨i, hi⟩ := hnews m hP hparked hopen
      let waits (m : Machine) : Prop := m.Parked t f fs ∧ m.world.scheduler.outcome? f = none ∧
        ∃ n', n' ≤ n ∧ (m.world.scheduler.kind f).left? = some n'
      let told (m : Machine) : Prop := m.Parked t f fs ∧
        (m.world.scheduler.outcome? f ≠ none ∨
          ∃ n', n' < n ∧ (m.world.scheduler.kind f).left? = some n')
      have hkept (m₁ m₂ : Machine) (hP₁ : P m₁) (hwaits : waits m₁) (hstep : m₁.step = some m₂) :
          m₂.Parked t f fs := by
        obtain ⟨hparked₁, hopen₁, -⟩ := hwaits
        exact (hparked₁.step (h.sound _ hP₁) hstep).resolve_right fun hturn =>
          hturn.1 hopen₁
      have hleads : m.Leads fun m' => P m' ∧ told m' := by
        refine h.handled (R := waits) hP ⟨hparked, hopen, n, Nat.le_refl n, hn⟩ hi ?_ ?_
        · intro m₁ m₂ hP₁ hwaits hstep
          have hparked₂ := hkept m₁ m₂ hP₁ hwaits hstep
          obtain ⟨-, -, n₁, hle₁, hn₁⟩ := hwaits
          obtain ⟨n₂, hle₂, hn₂⟩ := (h.sound _ hP₁).left hstep hn₁
          by_cases hopen₂ : m₂.world.scheduler.outcome? f = none
          · exact .inl ⟨hparked₂, hopen₂, n₂, Nat.le_trans hle₂ hle₁, hn₂⟩
          · exact .inr ⟨hparked₂, .inl hopen₂⟩
        · intro m₁ m₂ s hP₁ hwaits hidle hnext hstep
          refine ⟨hkept m₁ m₂ hP₁ hwaits hstep, .inr ?_⟩
          obtain ⟨-, hopen₁, n₁, hle₁, hn₁⟩ := hwaits
          have hpos : n₁ ≠ 0 := by
            rintro rfl
            exact (h.prompt _ hP₁).going f ⟨hopen₁, hn₁⟩
          rw [step_of_idle hidle, hnext] at hstep
          cases hstep
          refine ⟨n₁ - 1, Nat.lt_of_lt_of_le (Nat.sub_one_lt hpos) hle₁, Scheduler.left_tell ?_⟩
          rw [(Scheduler.takes_next hnext).kind]
          exact hn₁
      refine hleads.bind fun m₁ ⟨hP₁, hparked₁, hdone⟩ => ?_
      rcases hdone with hsettled | ⟨n₁, hlt, hn₁⟩
      · exact .here ⟨hP₁, hparked₁, hsettled⟩
      · exact ih n₁ hlt hP₁ hparked₁ hn₁

/-- A task that waits for several futures gets its turn, as long as there are news for it. -/
theorem Brief.turn (h : Brief P) (hP : P m) (hparked : m.Parked t f fs)
    (hgroup : (m.world.scheduler.kind f).isGroup = true)
    (hnews : ∀ m, P m → m.Parked t f fs → m.world.scheduler.outcome? f = none →
      ∃ i, .told f i ∈ m.world.scheduler.queue) :
    m.Leads fun m' => P m' ∧ ∃ o, m'.current = some (t, .outcome o fs) :=
  (h.settles hP hparked hgroup hnews).bind fun _ ⟨hP', hparked', hsettled⟩ =>
    h.wakes hP' hparked' hsettled

end Machine

end HotSpec
