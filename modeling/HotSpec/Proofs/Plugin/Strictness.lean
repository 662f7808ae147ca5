import HotSpec.Plugin.Registry
import HotSpec.Proofs.Spec.Plain

/-!
# Strict registries

A strict registry refuses a handler that would take the place of another one.  It adds the handlers of a
plugin one after the other, so that those in front of the refused one stay, however the plugin came in.

Main definitions:

- `Registry.Admits`: handlers of which none takes the place of another one.
- `Registry.Registers`: what a strict registry makes of a list of handlers.
- `Registry.AllOrNothing`: a step that adds all handlers, or fails and changes nothing.

Main results:

- Theorem `registers_addAll`: a strict registry adds handlers up to the first that is refused.
- Theorem `Registers.allOrNothing_iff`: nothing is left of a refused plugin if and only if its first
  handler is the one that is refused.
- Theorem `strict_registration`: plugins that are added and entry points that are loaded.
-/

namespace HotSpec

/-- A table has a value for each of its keys and for no others. -/
theorem Table.has_iff {α : Type} {t : Table α} {key : String} : t.has key = true ↔ key ∈ t.keys := by
  constructor
  · intro h
    by_contra hnot
    simp [has, get?_of_notMem hnot] at h
  · intro h
    obtain ⟨v, hv⟩ := exists_of_mem_keys h
    simp [has, hv]

namespace Registry

variable {r : Registry} {h : Handler} {handlers before after : List Handler} {origin : String}
  {step : Step}

/-! ## New handlers -/

/-- Handlers of which none takes the place of another one: their types are new, and no two of them are
for the same type. -/
structure Admits (r : Registry) (handlers : List Handler) : Prop where
  fresh : ∀ h ∈ handlers, h.name ∉ r.handlers.keys
  distinct : (handlers.map Handler.name).Nodup

/-- A registry with handlers more, behind those that it has. -/
def including (r : Registry) (handlers : List Handler) : Registry :=
  { r with handlers := r.handlers ++ handlers.map fun h => (h.name, h.phases) }

theorem including_nil (r : Registry) : r.including [] = r := by
  simp [including]

theorem including_cons (r : Registry) (h : Handler) (handlers : List Handler) :
    (r.including [h]).including handlers = r.including (h :: handlers) := by
  simp [including]

theorem keys_including (r : Registry) (handlers : List Handler) :
    (r.including handlers).handlers.keys = r.handlers.keys ++ handlers.map Handler.name := by
  simp [including, Table.keys]

/-- A registry is changed by every handler that it takes. -/
theorem including_eq_self_iff : r.including handlers = r ↔ handlers = [] := by
  constructor
  · intro heq
    have hrows := congrArg Registry.handlers heq
    simpa [including] using hrows
  · rintro rfl
    exact including_nil r

theorem admits_nil (r : Registry) : r.Admits [] := ⟨by simp, List.nodup_nil⟩

/-- Handlers are admitted if the first one is and the others are behind it. -/
theorem admits_cons_iff :
    r.Admits (h :: handlers) ↔ h.name ∉ r.handlers.keys ∧ (r.including [h]).Admits handlers := by
  have hkeys (h' : Handler) : h'.name ∉ (r.including [h]).handlers.keys ↔
      h'.name ∉ r.handlers.keys ∧ h'.name ≠ h.name := by
    simp [keys_including]
  constructor
  · rintro ⟨hfresh, hdistinct⟩
    rw [List.map_cons, List.nodup_cons] at hdistinct
    refine ⟨hfresh h List.mem_cons_self, fun h' hh' => (hkeys h').mpr ⟨?_, ?_⟩, hdistinct.2⟩
    · exact hfresh h' (List.mem_cons_of_mem _ hh')
    · exact fun heq => hdistinct.1 (heq ▸ List.mem_map_of_mem hh')
  · rintro ⟨hnew, hfresh, hdistinct⟩
    refine ⟨List.forall_mem_cons.mpr ⟨hnew, fun h' hh' => ((hkeys h').mp (hfresh h' hh')).1⟩, ?_⟩
    rw [List.map_cons, List.nodup_cons]
    refine ⟨fun hmem => ?_, hdistinct⟩
    obtain ⟨h', hh', heq⟩ := List.mem_map.mp hmem
    exact ((hkeys h').mp (hfresh h' hh')).2 heq

/-- Handlers are not admitted if one of them takes the place of a handler that was there before. -/
theorem not_admits_of_taken (htaken : h.name ∈ (r.including before).handlers.keys) :
    ¬ r.Admits (before ++ h :: after) := by
  rintro ⟨hfresh, hdistinct⟩
  rw [keys_including, List.mem_append] at htaken
  rcases htaken with hkey | hname
  · exact hfresh h (by simp) hkey
  · rw [List.map_append, List.map_cons] at hdistinct
    exact List.disjoint_of_nodup_append hdistinct hname List.mem_cons_self

/-! ## One after the other -/

/-- What a strict registry makes of a list of handlers. -/
inductive Registers (r : Registry) (handlers : List Handler) (origin : String) : Step → Prop
  /-- No handler takes the place of another one, and all are added. -/
  | all (h : r.Admits handlers) : Registers r handlers origin (r.including handlers, .ok ())
  /-- A handler that takes the place of another one is refused, and those in front of it stay. -/
  | upTo {before after : List Handler} {h : Handler} (heq : handlers = before ++ h :: after)
      (hbefore : r.Admits before) (htaken : h.name ∈ (r.including before).handlers.keys) :
      Registers r handlers origin (r.including before, .error (.shadowing h.name origin))

theorem add_of_notMem (hnew : h.name ∉ r.handlers.keys) :
    r.add h.name h.phases origin = (r.including [h], .ok ()) := by
  have hhas : r.handlers.has h.name = false :=
    Bool.eq_false_iff.mpr fun hhas => hnew (Table.has_iff.mp hhas)
  simp [add, hhas, set, including, Table.put_of_notMem hnew]

theorem add_of_mem (hstrict : r.strict = true) (htaken : h.name ∈ r.handlers.keys) :
    r.add h.name h.phases origin = (r, .error (.shadowing h.name origin)) := by
  simp [add, Table.has_iff.mpr htaken, report, hstrict]

/-- A strict registry adds handlers up to the first one that is refused. -/
theorem registers_addAll (hstrict : r.strict = true) (origin : String) (handlers : List Handler) :
    r.Registers handlers origin (r.addAll origin handlers) := by
  induction handlers generalizing r with
  | nil =>
    have hall : r.Registers [] origin (r.including [], .ok ()) := .all r.admits_nil
    rwa [including_nil] at hall
  | cons h handlers ih =>
    unfold addAll
    by_cases htaken : h.name ∈ r.handlers.keys
    · rw [add_of_mem hstrict htaken]
      have hrefused : r.Registers (h :: handlers) origin
          (r.including [], .error (.shadowing h.name origin)) :=
        .upTo rfl r.admits_nil (by rwa [including_nil])
      rwa [including_nil] at hrefused
    · rw [add_of_notMem htaken]
      change r.Registers (h :: handlers) origin ((r.including [h]).addAll origin handlers)
      have hrest : (r.including [h]).Registers handlers origin
          ((r.including [h]).addAll origin handlers) := ih hstrict
      generalize (r.including [h]).addAll origin handlers = step at hrest ⊢
      cases hrest with
      | all hadmits =>
        rw [including_cons]
        exact .all (admits_cons_iff.mpr ⟨htaken, hadmits⟩)
      | upTo heq hbefore hlast =>
        rw [including_cons] at hlast ⊢
        exact .upTo (congrArg (h :: ·) heq) (admits_cons_iff.mpr ⟨htaken, hbefore⟩) hlast

/-! ## All or nothing -/

/-- A step that adds all handlers and replaces none, or fails and leaves the registry as it was. -/
def AllOrNothing (r : Registry) (handlers : List Handler) (step : Step) : Prop :=
  step = (r.including handlers, .ok ()) ∨ ∃ cause, step = (r, .error cause)

/-- Nothing is left of a refused list of handlers if and only if its first one is refused. -/
theorem Registers.allOrNothing_iff (hstep : r.Registers handlers origin step) :
    r.AllOrNothing handlers step ↔
      r.Admits handlers ∨ ∃ h, handlers.head? = some h ∧ h.name ∈ r.handlers.keys := by
  cases hstep with
  | all hadmits => exact ⟨fun _ => .inl hadmits, fun _ => .inl rfl⟩
  | @upTo before after h heq hbefore htaken =>
    have hnot : ¬ r.Admits handlers := heq ▸ not_admits_of_taken htaken
    constructor
    · rintro (hall | ⟨cause, hnothing⟩)
      · cases congrArg Prod.snd hall
      · obtain rfl := including_eq_self_iff.mp (congrArg Prod.fst hnothing)
        rw [including_nil] at htaken
        exact .inr ⟨h, by simp [heq], htaken⟩
    · rintro (hadmits | ⟨first, hfirst, hkey⟩)
      · exact absurd hadmits hnot
      · cases before with
        | nil => exact .inr ⟨_, by rw [including_nil]⟩
        | cons b before =>
          obtain rfl : b = first := by simpa [heq] using hfirst
          exact absurd hkey (hbefore.fresh b List.mem_cons_self)

/-- A strict registry takes a plugin in full if no handler of it takes the place of another one, whether
the plugin is added or loaded from an entry point.  Otherwise it refuses the first handler that does, and
keeps those in front of it: registration is all or nothing if and only if this handler is the first of
the plugin.  An entry point that yields no plugin changes nothing. -/
theorem strict_registration (hstrict : r.strict = true) (plugin : Plugin) :
    (∀ entry : Option EntryPoint,
      r.Registers plugin.handlers ((entry.map EntryPoint.origin).getD plugin.name)
        (r.addPlugin plugin entry) ∧
      (r.AllOrNothing plugin.handlers (r.addPlugin plugin entry) ↔ r.Admits plugin.handlers ∨
        ∃ h, plugin.handlers.head? = some h ∧ h.name ∈ r.handlers.keys)) ∧
    ∀ entry : EntryPoint,
      r.Registers plugin.handlers entry.origin (r.loadEntry entry (.plugin plugin)) ∧
      (r.AllOrNothing plugin.handlers (r.loadEntry entry (.plugin plugin)) ↔
        r.Admits plugin.handlers ∨
          ∃ h, plugin.handlers.head? = some h ∧ h.name ∈ r.handlers.keys) ∧
      ∀ loaded, (∀ plugin, loaded ≠ .plugin plugin) →
        ∃ cause, r.loadEntry entry loaded = (r, .error cause) := by
  have hadded (entry : Option EntryPoint) :
      r.Registers plugin.handlers ((entry.map EntryPoint.origin).getD plugin.name)
        (r.addPlugin plugin entry) := by
    cases entry <;> exact registers_addAll hstrict _ _
  have hloaded (entry : EntryPoint) :
      r.Registers plugin.handlers entry.origin (r.loadEntry entry (.plugin plugin)) :=
    hadded (some entry)
  refine ⟨fun entry => ⟨hadded entry, (hadded entry).allOrNothing_iff⟩,
    fun entry => ⟨hloaded entry, (hloaded entry).allOrNothing_iff, ?_⟩⟩
  intro loaded hother
  cases loaded with
  | plugin plugin => exact absurd rfl (hother plugin)
  | other | invalid | broken => exact ⟨_, by simp [loadEntry, report, hstrict]; rfl⟩

/-- A handler of the first phase that does nothing. -/
def idle (name : String) : Handler := ⟨name, some (.callback ⟨"f", [], none, none, .nothing⟩), none⟩

/-- A plugin whose first handler is for the type of a built-in command is refused in full. -/
theorem strict_registration_builtin :
    let plugin : Plugin := ⟨"p", 1, [idle "init", idle "new"]⟩
    (builtin true).strict = true ∧ (builtin true).AllOrNothing plugin.handlers
      ((builtin true).loadEntry ⟨"p", "p:plugin"⟩ (.plugin plugin)) :=
  ⟨rfl, ((strict_registration rfl _).2 _).2.1.mpr (.inr ⟨_, rfl, by decide⟩)⟩

/-- A plugin with two handlers for the same type is refused, but the first of them stays. -/
theorem plugin_partly_registered :
    let plugin : Plugin := ⟨"p", 1, [idle "a", idle "a"]⟩
    (empty true).strict = true ∧
      (empty true).addPlugin plugin none =
        ((empty true).including [idle "a"], .error (.shadowing "a" "p")) ∧
      ¬ (empty true).AllOrNothing plugin.handlers ((empty true).addPlugin plugin none) := by
  intro plugin
  have hstep : (empty true).addPlugin plugin none =
      ((empty true).including [idle "a"], .error (.shadowing "a" "p")) := rfl
  refine ⟨rfl, hstep, ?_⟩
  rintro (hall | ⟨cause, hnothing⟩)
  · rw [hstep] at hall
    cases congrArg Prod.snd hall
  · rw [hstep] at hnothing
    exact absurd (including_eq_self_iff.mp (congrArg Prod.fst hnothing)) (by simp)

end Registry

end HotSpec
