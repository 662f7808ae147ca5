import HotSpec.Proofs.Engine.Acts

/-!
# Epochs of counted events

A counter is shared by all effects of one kind.  Each effect says what to expect from then on, and
begins a new epoch: the time up to the next effect, or up to the end.  What a counter makes of an
event, and of the end, depends on the epoch alone, that is on what the effect expects and on the
events since.

Main definitions:

- `Counted`: what can happen to a counter.
- `Epoch`, `epochs`, `leading`: the epochs of a history, and the events before the first one.
- `Epoch.after?`: the epoch that is open after something more has happened.
- `History`: what happens to a world, with the world that each happening came upon.

Main results:

- Theorem `getLast?_epochs_append`: a happening changes the open epoch only.
- Theorem `forall_events_iff`: what holds of each event when it happens, by epochs.
- Theorem `History.standing`: what the happenings so far have made of a world, by the open epoch.
-/

namespace HotSpec

/-- What can happen to a counter: an effect says what to expect from then on, an event takes place, or
something happens elsewhere. -/
inductive Counted (ε α : Type)
  | expects (expected : ε)
  | event (event : α)
  | elsewhere

/-- The time from an effect to the next one: what it expects, and the events in that time. -/
structure Epoch (ε α : Type) where
  expected : ε
  events : List α

section

variable {ε α : Type} {past rest : List (Counted ε α)} {a : α} {e : ε}

/-! ## The epochs of a history -/

/-- The events before the first effect. -/
def leading : List (Counted ε α) → List α
  | [] => []
  | .expects _ :: _ => []
  | .event a :: rest => a :: leading rest
  | .elsewhere :: rest => leading rest

/-- The epochs of a history, each with the events up to the next effect. -/
def epochs : List (Counted ε α) → List (Epoch ε α)
  | [] => []
  | .expects e :: rest => ⟨e, leading rest⟩ :: epochs rest
  | .event _ :: rest => epochs rest
  | .elsewhere :: rest => epochs rest

/-- An epoch with one event more. -/
def Epoch.add (epoch : Epoch ε α) (a : α) : Epoch ε α :=
  { epoch with events := epoch.events ++ [a] }

/-- The epoch that is open after something more has happened, if there is one. -/
def Epoch.after? (current : Option (Epoch ε α)) : Counted ε α → Option (Epoch ε α)
  | .expects e => some ⟨e, []⟩
  | .event a => current.map (·.add a)
  | .elsewhere => current

theorem leading_append_of_nil (h : epochs past = []) (rest : List (Counted ε α)) :
    leading (past ++ rest) = leading past ++ leading rest := by
  induction past with
  | nil => rfl
  | cons x past ih =>
    cases x with
    | expects e => cases h
    | event a => exact congrArg (a :: ·) (ih h)
    | elsewhere => exact ih h

/-- Once there is an epoch, the events before the first one are known. -/
theorem leading_append_of_ne_nil (h : epochs past ≠ []) (rest : List (Counted ε α)) :
    leading (past ++ rest) = leading past := by
  induction past with
  | nil => exact absurd rfl h
  | cons x past ih =>
    cases x with
    | expects e => rfl
    | event a => exact congrArg (a :: ·) (ih h)
    | elsewhere => exact ih h

theorem epochs_append_of_nil (h : epochs past = []) (rest : List (Counted ε α)) :
    epochs (past ++ rest) = epochs rest := by
  induction past with
  | nil => rfl
  | cons x past ih =>
    cases x with
    | expects e => cases h
    | event a => exact ih h
    | elsewhere => exact ih h

/-- What follows a history goes on with its last epoch. -/
theorem epochs_append_of_concat {front : List (Epoch ε α)} {last : Epoch ε α}
    (h : epochs past = front ++ [last]) (rest : List (Counted ε α)) :
    epochs (past ++ rest) =
      front ++ ⟨last.expected, last.events ++ leading rest⟩ :: epochs rest := by
  induction past generalizing front with
  | nil => simp [epochs] at h
  | cons x past ih =>
    cases x with
    | event a => exact ih h
    | elsewhere => exact ih h
    | expects e =>
      rw [epochs] at h
      rw [List.cons_append, epochs]
      cases front with
      | nil =>
        obtain ⟨rfl, hnil⟩ := List.cons.inj h
        rw [leading_append_of_nil hnil, epochs_append_of_nil hnil]
        rfl
      | cons first front =>
        obtain ⟨rfl, hmore⟩ := List.cons.inj h
        have hne : epochs past ≠ [] := by simp [hmore]
        rw [leading_append_of_ne_nil hne, ih hmore]
        rfl

/-- A happening changes the open epoch only. -/
theorem getLast?_epochs_append (past : List (Counted ε α)) (x : Counted ε α) :
    (epochs (past ++ [x])).getLast? = Epoch.after? (epochs past).getLast? x := by
  rcases List.eq_nil_or_concat' (epochs past) with hnil | ⟨front, last, hlast⟩
  · rw [epochs_append_of_nil hnil, hnil]
    cases x <;> rfl
  · rw [epochs_append_of_concat hlast, hlast, List.getLast?_concat]
    cases x <;> simp [epochs, leading, Epoch.after?, Epoch.add]

/-! ## Events by epochs -/

/-- A list with one item more is cut where it was cut before, or at its last item. -/
theorem forall_cut_concat {β : Type} {P : List β → β → Prop} (past : List β) (x : β) :
    (∀ before y after, past ++ [x] = before ++ y :: after → P before y) ↔
      (∀ before y after, past = before ++ y :: after → P before y) ∧ P past x := by
  constructor
  · intro h
    refine ⟨fun before y after hcut => h before y (after ++ [x]) (by simp [hcut]), ?_⟩
    exact h past x [] rfl
  · rintro ⟨hpast, hx⟩ before y after hcut
    rcases List.eq_nil_or_concat' after with rfl | ⟨rest, z, rfl⟩
    · obtain ⟨rfl, heq⟩ := List.append_inj' hcut rfl
      exact List.singleton_inj.mp heq ▸ hx
    · rw [← List.cons_append, ← List.append_assoc] at hcut
      exact hpast before y rest (List.append_inj' hcut rfl).1

/-- What holds of each event of an epoch, by the events before it, holds with one event more if it also
holds of that one. -/
theorem Epoch.forall_events_add {p : List α → α → Prop} (epoch : Epoch ε α) (a : α) :
    (∀ earlier b later, (epoch.add a).events = earlier ++ b :: later → p earlier b) ↔
      (∀ earlier b later, epoch.events = earlier ++ b :: later → p earlier b) ∧
        p epoch.events a :=
  forall_cut_concat epoch.events a

theorem forall_event_concat {P : List (Counted ε α) → α → Prop} (past : List (Counted ε α))
    (x : Counted ε α) :
    (∀ before a after, past ++ [x] = before ++ .event a :: after → P before a) ↔
      (∀ before a after, past = before ++ .event a :: after → P before a) ∧
        ∀ a, x = .event a → P past a := by
  have hcut := forall_cut_concat (P := fun before y => ∀ a, y = .event a → P before a) past x
  constructor
  · intro h
    obtain ⟨hpast, hx⟩ := hcut.mp fun before y after hy a ha => h before a after (ha ▸ hy)
    exact ⟨fun before a after ha => hpast before _ after ha a rfl, hx⟩
  · rintro ⟨hpast, hx⟩ before a after ha
    exact hcut.mpr ⟨fun before y after hy a ha => hpast before a after (ha ▸ hy), hx⟩
      before _ after ha a rfl

/-- What holds of each event when it happens, by what its epoch expects and the events before it in
the epoch, can be read off the epochs. -/
theorem forall_events_iff {p : ε → List α → α → Prop} (past : List (Counted ε α)) :
    (∀ before a after, past = before ++ .event a :: after →
        ∀ epoch, (epochs before).getLast? = some epoch → p epoch.expected epoch.events a) ↔
      ∀ epoch ∈ epochs past, ∀ earlier a later, epoch.events = earlier ++ a :: later →
        p epoch.expected earlier a := by
  -- by the last happening, which adds one event at most, and to the open epoch only
  induction past using List.reverseRecOn with
  | nil => simp [epochs]
  | append_singleton past x ih =>
    rw [forall_event_concat
      (P := fun before a => ∀ epoch, (epochs before).getLast? = some epoch →
        p epoch.expected epoch.events a), ih]
    rcases List.eq_nil_or_concat' (epochs past) with hnil | ⟨front, last, hlast⟩
    · rw [epochs_append_of_nil hnil, hnil]
      cases x <;> simp [epochs, leading]
    · rw [epochs_append_of_concat hlast, hlast]
      cases x with
      | event a =>
        have hadd := last.forall_events_add (p := p last.expected) a
        simp only [Epoch.add] at hadd
        simp only [leading, epochs, List.forall_mem_append, List.forall_mem_singleton,
          List.getLast?_concat, Option.some.injEq, Counted.event.injEq, forall_eq', hadd, and_assoc]
      | expects e => simp [epochs, leading, or_imp, forall_and]
      | elsewhere => simp [epochs, leading]

/-- Nothing happens before the first effect if and only if there is an open epoch at each event. -/
theorem leading_eq_nil_iff (past : List (Counted ε α)) :
    leading past = [] ↔
      ∀ before a after, past = before ++ .event a :: after → (epochs before).getLast? ≠ none := by
  induction past using List.reverseRecOn with
  | nil => simp [leading]
  | append_singleton past x ih =>
    rw [forall_event_concat (P := fun before _ => (epochs before).getLast? ≠ none), ← ih]
    rcases List.eq_nil_or_concat' (epochs past) with hnil | ⟨front, last, hlast⟩
    · rw [leading_append_of_nil hnil, hnil]
      cases x <;> simp [leading]
    · have hne : epochs past ≠ [] := by simp [hlast]
      rw [leading_append_of_ne_nil hne]
      simp [hlast]

/-- What holds of the open epoch at each event, if there has to be one. -/
theorem forall_events_exists_iff {p : ε → List α → α → Prop} (past : List (Counted ε α)) :
    (∀ before a after, past = before ++ .event a :: after →
        ∃ epoch, (epochs before).getLast? = some epoch ∧ p epoch.expected epoch.events a) ↔
      leading past = [] ∧ ∀ epoch ∈ epochs past, ∀ earlier a later,
        epoch.events = earlier ++ a :: later → p epoch.expected earlier a := by
  rw [leading_eq_nil_iff, ← forall_events_iff]
  constructor
  · intro h
    refine ⟨fun before a after hcut => ?_, fun before a after hcut epoch hepoch => ?_⟩
    · obtain ⟨epoch, hepoch, -⟩ := h before a after hcut
      simp [hepoch]
    · obtain ⟨_, hopen, hp⟩ := h before a after hcut
      cases hopen.symm.trans hepoch
      exact hp
  · rintro ⟨hopen, hp⟩ before a after hcut
    obtain ⟨epoch, hepoch⟩ := Option.ne_none_iff_exists'.mp (hopen before a after hcut)
    exact ⟨epoch, hepoch, hp before a after hcut epoch hepoch⟩

end

/-! ## Histories -/

/-- What happens to a world, with the world that each happening came upon. -/
inductive History {κ : Type} (happens : World → κ → World → Prop) (w₀ : World) :
    List (World × κ) → World → Prop
  | nil : History happens w₀ [] w₀
  | snoc {past : List (World × κ)} {w w' : World} {x : κ} (h : History happens w₀ past w)
      (hlast : happens w x w') : History happens w₀ (past ++ [(w, x)]) w'

namespace History

variable {κ ε α : Type} {w₀ w : World}

/-- What has happened before a happening led to the world that it came upon. -/
theorem before {happens : World → κ → World → Prop} {before after : List (World × κ)} {w₁ : World}
    {x : κ} (h : History happens w₀ (before ++ (w₁, x) :: after) w) :
    History happens w₀ before w₁ := by
  generalize hpast : before ++ (w₁, x) :: after = past at h
  induction h generalizing after with
  | nil => simp at hpast
  | @snoc past w w' y h hlast ih =>
    rcases List.eq_nil_or_concat' after with rfl | ⟨rest, z, rfl⟩
    · obtain ⟨rfl, heq⟩ := List.append_inj' hpast rfl
      obtain ⟨rfl, -⟩ := Prod.mk.inj (List.singleton_inj.mp heq)
      exact h
    · rw [← List.cons_append, ← List.append_assoc] at hpast
      exact ih (List.append_inj' hpast rfl).1

/-- What the happenings so far have made of a world, by the open epoch. -/
theorem standing {happens : World → Counted ε α → World → Prop}
    {p : Option (Epoch ε α) → World → Prop} {past : List (World × Counted ε α)}
    (h : History happens w₀ past w) (h₀ : p none w₀)
    (hstep : ∀ {current w x w'}, p current w → happens w x w' → p (Epoch.after? current x) w') :
    p (epochs (past.map Prod.snd)).getLast? w := by
  induction h with
  | nil => exact h₀
  | snoc _ hlast ih =>
    rw [List.map_append, List.map_singleton, getLast?_epochs_append]
    exact hstep ih hlast

/-- What is said of each event, by what has happened before it, is said of the happenings alone. -/
theorem forall_event_map_iff {β : Type} {P : List (Counted ε α) → α → Prop}
    (past : List (β × Counted ε α)) :
    (∀ before b a after, past = before ++ (b, .event a) :: after → P (before.map Prod.snd) a) ↔
      ∀ before a after, past.map Prod.snd = before ++ .event a :: after → P before a := by
  constructor
  · intro h before a after hcut
    obtain ⟨before, rest, rfl, rfl, hrest⟩ := List.map_eq_append_iff.mp hcut
    obtain ⟨⟨b, x⟩, after, rfl, rfl, rfl⟩ := List.map_eq_cons_iff.mp hrest
    exact h before b a after rfl
  · rintro h before b a after rfl
    exact h _ a (after.map Prod.snd) (by simp)

end History

/-! ## Final checks -/

namespace World

/-- Whether a final check of a world fails the test. -/
def FailsCheck (w : World) (check : PostHook) : Prop :=
  ∃ i text, w.session.posts[i]? = some check ∧ ((Move.posts i).run w).1 = .fail (.failure text)

end World

namespace Engine

/-- To answer after something that gives nothing does not change the world any more. -/
theorem snd_exec_return {α : Type} (e : Engine Unit) (a : α) (w : World) :
    (exec (do e; return a) w).2 = (exec e w).2 := by
  rw [exec_bind]
  rcases exec e w with ⟨_ | _, w'⟩ <;> rfl

/-- The fail signal is seen by the scheduler only, and whoever has none yet fails. -/
theorem exec_signal_spec (fault : Fault) (w : World) :
    ((signal fault).exec w).2.session = w.session ∧ ((signal fault).exec w).2.site = w.site ∧
      (((signal fault).exec w).1 = .ok () ∨ ((signal fault).exec w).1 = .error fault) := by
  unfold signal
  rw [exec_bind, exec_get]
  dsimp only
  split
  · exact ⟨rfl, rfl, .inr rfl⟩
  · split
    · exact ⟨rfl, rfl, .inl rfl⟩
    · exact ⟨rfl, rfl, .inl rfl⟩

theorem exec_signalText_spec (text : Option String) (w : World) :
    ((signalText text).exec w).2.session = w.session ∧
      ((signalText text).exec w).2.site = w.site := by
  cases text with
  | none => exact ⟨rfl, rfl⟩
  | some text =>
    obtain ⟨hsession, hsite, -⟩ := exec_signal_spec (.failure text) w
    exact ⟨hsession, hsite⟩

/-- A check that has a text to fail with fails with it, and one that has none passes. -/
theorem exec_failWith (text : Option String) (w : World) :
    ((Move.failWith text).exec w).1 = text.elim (.ok ()) (.error <| .failure ·) ∧
      ((Move.failWith text).exec w).2.site = w.site := by
  cases text with
  | none => exact ⟨rfl, rfl⟩
  | some text =>
    obtain ⟨-, hsite, hresult⟩ := exec_signal_spec (.failure text) w
    change (exec (signal (.failure text) >>= fun _ => fail (.failure text)) w).1 = _ ∧
      (exec (signal (.failure text) >>= fun _ => fail (.failure text)) w).2.site = _
    rw [exec_bind]
    rcases hexec : (signal (.failure text)).exec w with ⟨result, w'⟩
    rw [hexec] at hsite hresult
    rcases hresult with rfl | rfl <;> exact ⟨rfl, hsite⟩

end Engine

namespace World

variable {w : World}

/-- A hook that does something at once: it fails with the text that this fails with, if any. -/
theorem run_ofEngine_then {e : Engine Unit} {text : Option String} (turn : Turn)
    (hresult : (e.exec w).1 = text.elim (.ok ()) (.error <| .failure ·)) :
    (Move.ofEngine do e; return turn).run w =
      (text.elim turn (.fail <| .failure ·), (e.exec w).2) := by
  rcases hexec : e.exec w with ⟨result, w'⟩
  obtain rfl : result = _ := hexec ▸ hresult
  have hrun : e w = (text.elim (.ok ()) (.error <| .failure ·), w') := hexec
  simp only [Move.ofEngine, StateT.run, bind, StateT.bind, ExceptT.run, ExceptT.bind, ExceptT.mk,
    hrun]
  cases text <;> rfl

/-- A check that is one of the last hooks fails if and only if it has a text to fail with. -/
theorem failsCheck_iff {check : PostHook} {e : Engine Unit} {text : Option String}
    (hposts : ∀ i, w.session.posts[i]? = some check → (Move.posts i).run w =
      (Move.ofEngine do e; return .call (.posts (i + 1)) []).run w)
    (hresult : (e.exec w).1 = text.elim (.ok ()) (.error <| .failure ·)) :
    w.FailsCheck check ↔ check ∈ w.session.posts ∧ text ≠ none := by
  constructor
  · rintro ⟨i, failure, hcheck, hfails⟩
    refine ⟨List.mem_of_getElem? hcheck, ?_⟩
    rintro rfl
    rw [hposts i hcheck, run_ofEngine_then _ hresult] at hfails
    cases hfails
  · rintro ⟨hmem, htext⟩
    obtain ⟨i, hi, hcheck⟩ := List.mem_iff_getElem.mp hmem
    have hcheck' : w.session.posts[i]? = some check := hcheck ▸ List.getElem?_eq_getElem hi
    obtain ⟨failure, rfl⟩ := Option.ne_none_iff_exists'.mp htext
    refine ⟨i, failure, hcheck', ?_⟩
    rw [hposts i hcheck', run_ofEngine_then _ hresult]
    rfl

end World

end HotSpec
