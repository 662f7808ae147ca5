import HotSpec.Proofs.Spec.Weave

/-!
# Sources of lists, one after the other

Sources are put together like the lists that they are made of: the texts follow each other, and the
values of the second source are moved behind the text of the first.  So a source is known from the
sources of the single parts of its list, wherever the list is cut.

Main definitions:

- `Source.append`: a source behind another one.
- `Source.ofPart`: the source of a single part.

Main results:

- Theorem `ofParts_append`: the source of a list that is put together.
- Theorem `source_of_append`: the same for what a spec is given as, with what it means for the order,
  the number and the places of the anchored values.
-/

namespace HotSpec.Spec

/-! ## Sources that follow each other -/

/-- An anchored value with a number of characters put in front of its text. -/
def Anchored.moved (n : Nat) (a : Anchored) : Anchored := ⟨n + a.index, a.value⟩

@[simp] theorem Anchored.moved_zero : Anchored.moved 0 = id := by
  funext a
  simp [Anchored.moved]

@[simp] theorem Anchored.moved_comp_moved (m n : Nat) :
    Anchored.moved m ∘ Anchored.moved n = Anchored.moved (m + n) := by
  funext a
  simp [Anchored.moved, Nat.add_assoc]

namespace Source

/-- A source behind another one. -/
def append (s t : Source) : Source :=
  ⟨s.text ++ t.text, s.values ++ t.values.map (Anchored.moved s.text.length)⟩

theorem nil_append (s : Source) : append ⟨[], []⟩ s = s := by
  simp [append]

theorem append_nil (s : Source) : append s ⟨[], []⟩ = s := by
  simp [append]

theorem append_assoc (s t u : Source) : (s.append t).append u = s.append (t.append u) := by
  simp [append]

/-- The source of a single part: a value that keeps its place is anchored, any other is text. -/
def ofPart (v : Value) : Source :=
  if isAnchoring v then ⟨[], [⟨0, v⟩]⟩ else ⟨v.plain.toList, []⟩

theorem ofPart_of_anchoring {v : Value} (h : isAnchoring v) : ofPart v = ⟨[], [⟨0, v⟩]⟩ :=
  if_pos h

theorem ofPart_of_plain {v : Value} (h : ¬isAnchoring v) : ofPart v = ⟨v.plain.toList, []⟩ :=
  if_neg h

theorem ofPart_text (s : String) : ofPart (.text s) = ⟨s.toList, []⟩ :=
  ofPart_of_plain (by simp [isAnchoring, Value.isCallable])

end Source

/-! ## Sources of mixed lists -/

/-- What is interpolated behind more text is only moved. -/
theorem interpolateAt_add (n offset : Nat) (strings : List String) (values : List Value) :
    interpolateAt (n + offset) strings values =
      ⟨(interpolateAt offset strings values).text,
        (interpolateAt offset strings values).values.map (Anchored.moved n)⟩ := by
  fun_induction interpolateAt offset strings values with
  | case1 => rfl
  | case2 offset s strings rest ih =>
    simp only [interpolateAt, Nat.add_assoc, ih, rest]
  | case3 offset s strings v values offset' hanchoring rest ih =>
    simp only [interpolateAt, hanchoring, if_true, Nat.add_assoc, List.map_cons, rest,
      Anchored.moved]
    rw [show n + (offset + s.length) = n + offset' from rfl, ih]
  | case4 offset s strings v values offset' hanchoring rest ih =>
    simp only [interpolateAt, hanchoring, if_false, Bool.false_eq_true, rest]
    rw [show n + offset + s.length + v.plain.length = n + (offset' + v.plain.length) by omega, ih]

/-- A text in front of a list is part of its first text. -/
theorem ofParts_text (s : String) (parts : List Value) :
    Source.ofParts (.text s :: parts) = (Source.ofPart (.text s)).append (Source.ofParts parts) := by
  obtain ⟨t, strings, hstrings⟩ := List.exists_cons_of_ne_nil (splitParts_ne_nil parts)
  have hsplit : splitParts (.text s :: parts) = ((s ++ t) :: strings, (splitParts parts).2) := by
    rw [splitParts, ← Prod.mk.eta (p := splitParts parts), hstrings]
  have hmoved := interpolateAt_add s.length 0 (t :: strings) (splitParts parts).2
  rw [Nat.add_zero] at hmoved
  simp only [Source.ofParts, interpolate, hsplit, hstrings, interpolateAt_append, Nat.zero_add,
    hmoved, Source.ofPart_text, Source.append, List.nil_append, String.length_toList]

/-- The source of a list is that of its first part with that of the others behind it. -/
theorem ofParts_cons (v : Value) (parts : List Value) :
    Source.ofParts (v :: parts) = (Source.ofPart v).append (Source.ofParts parts) := by
  by_cases htext : ∃ s, v = .text s
  · obtain ⟨s, rfl⟩ := htext
    exact ofParts_text s parts
  · have hsplit : splitParts (v :: parts) =
        ("" :: (splitParts parts).1, v :: (splitParts parts).2) := by
      rw [splitParts]
      exact fun s hs => htext ⟨s, hs⟩
    by_cases hanchoring : isAnchoring v
    · rw [Source.ofPart_of_anchoring hanchoring]
      simp [Source.ofParts, interpolate, hsplit, interpolateAt, hanchoring, Source.append]
    · have hmoved := interpolateAt_add v.plain.length 0 (splitParts parts).1 (splitParts parts).2
      rw [Nat.add_zero, ← String.length_toList] at hmoved
      rw [Source.ofPart_of_plain hanchoring]
      simp [Source.ofParts, interpolate, hsplit, interpolateAt, hanchoring, Source.append,
        ← String.length_toList, hmoved]

/-- The source of a list that is put together: the second source follows the first one. -/
theorem ofParts_append (xs ys : List Value) :
    Source.ofParts (xs ++ ys) = (Source.ofParts xs).append (Source.ofParts ys) := by
  induction xs with
  | nil => exact (Source.nil_append _).symm
  | cons v xs ih => rw [List.cons_append, ofParts_cons, ih, ofParts_cons, Source.append_assoc]

theorem ofParts_single (v : Value) : Source.ofParts [v] = Source.ofPart v := by
  rw [ofParts_cons]
  exact Source.append_nil _

/-- Values are anchored within the text of their source. -/
theorem index_le_ofParts (parts : List Value) :
    ∀ a ∈ (Source.ofParts parts).values, a.index ≤ (Source.ofParts parts).text.length := by
  induction parts with
  | nil => simp [Source.ofParts, interpolate, splitParts, interpolateAt]
  | cons v parts ih =>
    intro a ha
    rw [ofParts_cons] at ha ⊢
    by_cases hanchoring : isAnchoring v
    · simp only [Source.ofPart_of_anchoring hanchoring, Source.append, List.nil_append,
        List.length_nil, Anchored.moved_zero, List.map_id, List.singleton_append,
        List.mem_cons] at ha ⊢
      rcases ha with rfl | ha
      · exact Nat.zero_le _
      · exact ih a ha
    · simp only [Source.ofPart_of_plain hanchoring, Source.append, List.nil_append,
        List.mem_map, List.length_append] at ha ⊢
      obtain ⟨b, hb, rfl⟩ := ha
      exact Nat.add_le_add_left (ih b hb) _

/-! ## What a spec is given as -/

/-- The source of two lists, one after the other, is made of theirs: the texts follow each other and
each value of the second is moved by the length of the first text.  A text stands for itself, a value
that keeps its place is anchored at the start of an empty text, any other value is its own text.  So
the values of a source are in order, within the text and complete, and the text between two of them
is the one that was written there. -/
theorem source_of_append (xs ys : List Value) :
    (∃ s t : Source, Source.of (.list xs) = .ok s ∧ Source.of (.list ys) = .ok t ∧
      Source.of (.list (xs ++ ys)) =
        .ok ⟨s.text ++ t.text, s.values ++ t.values.map fun a => ⟨s.text.length + a.index, a.value⟩⟩ ∧
      (s.values.Pairwise fun a b => a.index ≤ b.index) ∧
      (∀ a ∈ s.values, 0 ≤ a.index ∧ a.index ≤ s.text.length) ∧
      s.values.map Anchored.value = xs.filter isAnchoring ∧
      weave 0 s.text s.values = written [] xs) ∧
    (∀ text : String, Source.of (.text text) = .ok ⟨text.toList, []⟩ ∧
      Source.of (.list [.text text]) = .ok ⟨text.toList, []⟩) ∧
    ∀ v : Value, Source.of (.list [v]) =
      .ok (if isAnchoring v then ⟨[], [⟨0, v⟩]⟩ else ⟨v.plain.toList, []⟩) := by
  have hof : ∀ parts, Source.of (.list parts) = .ok (Source.ofParts parts) := fun _ => rfl
  refine ⟨⟨Source.ofParts xs, Source.ofParts ys, hof xs, hof ys, ?_, sorted_ofParts xs,
    fun a ha => ⟨Nat.zero_le _, index_le_ofParts xs a ha⟩, values_ofParts xs, weave_ofParts xs⟩,
    fun text => ⟨rfl, ?_⟩, fun v => ?_⟩
  · rw [hof, ofParts_append]
    rfl
  · rw [hof, ofParts_single, Source.ofPart_text]
  · rw [hof, ofParts_single, Source.ofPart]

end HotSpec.Spec
