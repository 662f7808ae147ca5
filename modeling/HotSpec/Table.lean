/-!
# Ordered tables

Tables from texts to values that remember the order in which their keys were first put.  Putting a
key again changes its value and keeps its place.

Main results:

- `get?_put`: what a look-up finds after a put.
- `keys_put`: a put keeps the keys and their order, and appends a new key.
-/

namespace HotSpec

/-- An ordered table: its rows, by first insertion of their keys. -/
abbrev Table (α : Type) := List (String × α)

namespace Table

variable {α : Type}

/-- The keys, in order. -/
def keys (t : Table α) : List String := t.map Prod.fst

/-- The value of a key. -/
def get? (t : Table α) (key : String) : Option α := t.lookup key

/-- Whether a key has a value. -/
def has (t : Table α) (key : String) : Bool := (t.get? key).isSome

/-- Give a key a value, at its place or at the end. -/
def put : Table α → String → α → Table α
  | [], key, value => [(key, value)]
  | (k, v) :: rest, key, value =>
    if k = key then (k, value) :: rest else (k, v) :: put rest key value

/-- Put all rows of another table, in its order. -/
def merge (t : Table α) (rows : Table α) : Table α :=
  rows.foldl (fun t row => t.put row.1 row.2) t

/-- The table of some rows: later rows replace earlier ones of the same key. -/
def ofRows (rows : List (String × α)) : Table α := merge [] rows

/-- The table without a key. -/
def erase (t : Table α) (key : String) : Table α := t.filter fun row => row.1 ≠ key

@[simp]
theorem get?_nil (key : String) : get? ([] : Table α) key = none := rfl

theorem get?_cons (k key : String) (v : α) (t : Table α) :
    get? ((k, v) :: t) key = if k = key then some v else get? t key := by
  by_cases h : k = key
  · simp [get?, h]
  · have other : (key == k) = false := by simpa using fun e => h e.symm
    simp [get?, List.lookup_cons, other, h]

@[simp]
theorem get?_put (t : Table α) (k key : String) (v : α) :
    (t.put k v).get? key = if k = key then some v else t.get? key := by
  induction t with
  | nil => simp [put, get?_cons]
  | cons row rest ih =>
    obtain ⟨k', v'⟩ := row
    by_cases h : k' = k
    · by_cases hk : k = key <;> simp [put, get?_cons, h, hk]
    · by_cases hk : k' = key
      · subst hk
        have : ¬ k = k' := fun e => h e.symm
        simp [put, get?_cons, h, this]
      · simp [put, get?_cons, h, hk, ih]

theorem keys_put (t : Table α) (key : String) (v : α) :
    (t.put key v).keys = if key ∈ t.keys then t.keys else t.keys ++ [key] := by
  induction t with
  | nil => simp [put, keys]
  | cons row rest ih =>
    obtain ⟨k, v'⟩ := row
    by_cases h : k = key
    · simp [put, keys, h]
    · have : ¬ key = k := fun e => h e.symm
      simp only [keys] at ih
      by_cases hk : key ∈ rest.map Prod.fst <;> simp_all [put, keys]

theorem nodup_keys_put {t : Table α} (h : t.keys.Nodup) (key : String) (v : α) :
    (t.put key v).keys.Nodup := by
  rw [keys_put]
  split
  · exact h
  · next new => exact List.nodup_append.2 ⟨h, by simp, fun a ha b hb => by simp_all; grind⟩

/-- A row of a table in which a key was given a value is an old one, or the one of the key. -/
theorem mem_put {t : Table α} {key : String} {v : α} {row : String × α} (h : row ∈ t.put key v) :
    row ∈ t ∨ row = (key, v) := by
  induction t with
  | nil => exact .inr (List.mem_singleton.mp h)
  | cons first t ih =>
    obtain ⟨k, v'⟩ := first
    rw [put] at h
    split at h
    · next hkey =>
      rcases List.mem_cons.mp h with heq | h
      · exact .inr (by rw [heq, hkey])
      · exact .inl (List.mem_cons_of_mem _ h)
    · rcases List.mem_cons.mp h with heq | h
      · exact .inl (heq ▸ List.mem_cons_self)
      · exact (ih h).imp_left (List.mem_cons_of_mem _)

/-- The value of a key stands in a row of the key. -/
theorem mem_of_get? {t : Table α} {key : String} {v : α} (h : t.get? key = some v) :
    (key, v) ∈ t := by
  induction t with
  | nil => cases h
  | cons row t ih =>
    obtain ⟨k, v'⟩ := row
    rw [get?_cons] at h
    split at h
    · next hkey =>
      cases h
      exact hkey ▸ List.mem_cons_self
    · exact List.mem_cons_of_mem _ (ih h)

end Table

end HotSpec
