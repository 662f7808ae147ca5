import HotSpec.Engine.Asserting
import HotSpec.Proofs.Html.Cuts

/-!
# Pages behind a required prefix

A prefix that ends with a tag, and in which each preformatted element that is opened is closed again,
can be cut off a page: the page is brought into normal form as the prefix and the text behind it
are, one after the other.  So what is left of the page without its prefix is what a page would show
that never had one.

Main definitions:

- `ClosesElements`: the closer of each opener stands in the text.
- `World.AppShows`: the application has some HTML, and no element is in focus.

Main results:

- Theorem `ClosesElements.sealed`: nothing goes through the end of such a text.
- Theorem `stripPrefix_eq_ok_iff`: a prefix is left out of the texts that start with it.
- Theorem `normal_prefixed`: the prefix and the text behind it, in normal form and under test.
-/

namespace HotSpec.Html

open HotSpec.Text

variable {c : Char} {name text front rest : List Char}

/-! ## Texts that close their elements -/

/-- Each opener of a preformatted element is followed by its closer, with at least one character
between the two. -/
def ClosesElements (text : List Char) : Prop :=
  ∀ name ∈ preformattedNames, ∀ front rest, text = front ++ ('<' :: name ++ rest) →
    ∃ c body, rest = c :: body ∧ closer name <:+: body

theorem ClosesElements.of_append (h : ClosesElements (front ++ rest)) : ClosesElements rest := by
  rintro name hname before after rfl
  exact h name hname (front ++ before) after (by simp)

/-- What stands behind an opener and the character after it. -/
theorem drop_opener (name : List Char) (c : Char) (body : List Char) :
    ('<' :: name ++ c :: body).drop (name.length + 2) = body := by
  have hsplit : '<' :: name ++ c :: body = ('<' :: name ++ [c]) ++ body := by simp
  rw [hsplit]
  exact List.drop_left' (by simp)

/-- Whether a text closes its elements is read off what stands behind each place in it. -/
theorem closesElements_iff : ClosesElements text ↔ ∀ left ∈ text.tails, ∀ name ∈ preformattedNames,
    '<' :: name <+: left → closer name <:+: left.drop (name.length + 2) := by
  constructor
  · rintro h left hleft name hname ⟨rest, rfl⟩
    obtain ⟨front, rfl⟩ := (List.mem_tails _ _).mp hleft
    obtain ⟨c, body, rfl, hclose⟩ := h name hname front rest rfl
    rwa [drop_opener]
  · rintro h name hname front rest rfl
    have hleft := (List.mem_tails _ _).mpr (List.suffix_append front ('<' :: name ++ rest))
    have hclose := h _ hleft name hname (List.prefix_append _ _)
    cases rest with
    | nil =>
      have hlength := hclose.length_le
      simp [closer] at hlength
    | cons c body => exact ⟨c, body, rfl, by rwa [drop_opener] at hclose⟩

instance (text : List Char) : Decidable (ClosesElements text) :=
  decidable_of_iff _ closesElements_iff.symm

/-- A name in front of a text that ends with a `>` ends before that `>`. -/
theorem prefix_of_prefix_append (hplain : ∀ c ∈ name, isPlain c = true)
    (hlast : text.getLast? = some '>') (h : name <+: text ++ rest) : name <+: text := by
  rcases List.prefix_or_prefix_of_prefix h (List.prefix_append text rest) with hstarts | hstarts
  · exact hstarts
  · have hclose : '>' ∈ name := hstarts.subset (List.mem_of_getLast? hlast)
    exact absurd (hplain '>' hclose) (by decide)

/-- Where no element starts in a text that closes its elements, none starts with more text behind
it. -/
theorem ClosesElements.preformatted?_eq_none (h : ClosesElements (c :: text))
    (hlast : (c :: text).getLast? = some '>') (hnone : preformatted? (c :: text) = none)
    (rest : List Char) : preformatted? (c :: (text ++ rest)) = none := by
  by_cases hc : c = '<'
  · subst hc
    have htext : text.getLast? = some '>' := by
      cases text with
      | nil => cases hlast
      | cons d text => simpa using hlast
    refine preformatted?_eq_none_iff.mpr fun name hname d body hopen => ?_
    have hstarts : name <+: text ++ rest := hopen ▸ List.prefix_append name (d :: body)
    obtain ⟨more, rfl⟩ :=
      prefix_of_prefix_append (plain_of_mem_preformattedNames hname) htext hstarts
    obtain ⟨e, inner, rfl, hclose⟩ := h name hname [] more rfl
    exact absurd hclose (preformatted?_eq_none_iff.mp hnone name hname e inner rfl)
  · exact preformatted?_of_ne hc _

/-- Nothing goes through the end of a text that closes its elements and ends with a tag. -/
theorem ClosesElements.sealed (h : ClosesElements text)
    (hlast : text ≠ [] → text.getLast? = some '>') (rest : List Char) : Sealed rest text := by
  induction hlength : text.length using Nat.strong_induction_on generalizing text with
  | _ n ih =>
    cases text with
    | nil => exact .nil
    | cons c text =>
      have hclose := hlast (List.cons_ne_nil c text)
      cases hcut : preformatted? (c :: text) with
      | none =>
        have hmore : ClosesElements text :=
          ClosesElements.of_append (show ClosesElements ([c] ++ text) from h)
        refine .pass (h.preformatted?_eq_none hclose hcut rest)
          (ih text.length (by simp [← hlength]) hmore (fun hne => ?_) rfl)
        rwa [List.getLast?_cons_of_ne_nil hne] at hclose
      | some element =>
        obtain ⟨kept, left⟩ := element
        have hshort := length_of_preformatted? hcut
        rw [← append_preformatted? hcut] at h hclose
        refine .element hcut (ih left.length (hlength ▸ hshort) h.of_append (fun hne => ?_) rfl)
        rwa [List.getLast?_append_of_ne_nil _ hne] at hclose

/-! ## Prefixes that are left out -/

/-- A prefix is left out of the texts that start with it, and of no other ones. -/
theorem stripPrefix_eq_ok_iff {actual start rest : String} :
    stripPrefix actual start = .ok rest ↔ actual = start ++ rest := by
  have hstart : String.ofList (actual.toList.take start.length) = start ↔
      start.toList <+: actual.toList := by
    rw [← String.toList_inj, String.toList_ofList, List.prefix_iff_eq_take, String.length_toList,
      eq_comm]
  simp only [stripPrefix]
  constructor
  · intro h
    split at h
    · next hfound =>
      obtain rfl : String.ofList (actual.toList.drop start.length) = rest := Except.ok.inj h
      rw [hstart, List.prefix_iff_eq_append, String.length_toList] at hfound
      rw [← String.toList_inj, String.toList_append, String.toList_ofList, hfound]
    · cases h
  · rintro rfl
    rw [if_pos (hstart.mpr (by simp))]
    simp [← String.length_toList]

/-- The normal form of a page after a prefix that closes its elements and ends with a tag. -/
theorem normal_append {start : String} (hlast : start.toList.getLast? = some '>')
    (hcloses : ClosesElements start.toList) (body : String) :
    normal (start ++ body) = normal start ++ normal body := by
  rw [← String.toList_inj]
  simpa [normal] using
    normalChars_append (hcloses.sealed (fun _ => hlast) body.toList) (.inl hlast)

end HotSpec.Html

namespace HotSpec.World

open HotSpec.Html

variable {w : World} {html : String}

/-! ## The HTML under test -/

/-- The application of a page has some HTML, and no element of the page is in focus. -/
structure AppShows (w : World) (html : String) : Prop where
  html : w.site.elements.get? w.session.settings.appRoot = some html
  unfocused : w.session.settings.focus ≠ "" →
    w.site.elements.has w.session.settings.focus = false

theorem AppShows.tested (h : w.AppShows html) : w.tested = (w.session.settings.appRoot, false) := by
  unfold World.tested
  refine if_neg ?_
  rw [Bool.and_eq_true, not_and, Bool.not_eq_true]
  exact fun hfocus => h.unfocused (by simpa using hfocus)

/-- Without a prefix the HTML under test is the normal form of all there is. -/
theorem AppShows.rendered_eq (h : w.AppShows html)
    (hnone : w.session.settings.appPrefix.getD "" = "") : w.rendered = .ok (normal html) := by
  have hempty : normal "" = "" := by
    rw [normal, String.toList_empty, normalChars_of_blank rfl]
  unfold World.rendered
  rw [h.tested]
  simp only [h.html, Option.getD_some]
  split
  · next hnil => rw [hnil, hempty]
  · split
    · next start hstart =>
      rw [hstart, Option.getD_some] at hnone
      rw [if_neg (by simp [hnone])]
    · rfl

/-- With a prefix it is what is left of the normal form. -/
theorem AppShows.rendered_of_prefix {start : String} (h : w.AppShows html) (hhtml : html ≠ "")
    (hrequired : w.session.settings.appPrefix = some start) (hstart : start ≠ "") :
    w.rendered = (stripPrefix (normal html) (normal start)).mapError .mismatch := by
  unfold World.rendered
  rw [h.tested]
  simp only [h.html, Option.getD_some, hrequired]
  rw [if_neg hhtml, if_pos (by simpa using hstart)]

end HotSpec.World

namespace HotSpec.Html

/-! ## Pages behind a prefix -/

/-- A prefix that ends with a tag and closes its preformatted elements is left out of a page: the
normal form of the page is that of the prefix and that of the text behind it, so stripping the one
gives the other.  The HTML under test of an application behind such a required prefix is that of an
application that is asserted without one. -/
theorem normal_prefixed {start : String} (hlast : start.toList.getLast? = some '>')
    (hcloses : ClosesElements start.toList) (body : String) :
    normal (start ++ body) = normal start ++ normal body ∧
      stripPrefix (normal (start ++ body)) (normal start) = .ok (normal body) ∧
      ∀ w w' : World, w.AppShows (start ++ body) → w.session.settings.appPrefix = some start →
        w'.AppShows body → w'.session.settings.appPrefix.getD "" = "" →
        w.rendered = .ok (normal body) ∧ w'.rendered = w.rendered := by
  have happend := normal_append hlast hcloses body
  have hstrip : stripPrefix (normal (start ++ body)) (normal start) = .ok (normal body) :=
    stripPrefix_eq_ok_iff.mpr happend
  refine ⟨happend, hstrip, fun w w' hshows hrequired hshows' hnone => ?_⟩
  have hstart : start ≠ "" := by
    rintro rfl
    cases hlast
  have hhtml : start ++ body ≠ "" := by simp [hstart]
  have hrendered : w.rendered = .ok (normal body) := by
    rw [hshows.rendered_of_prefix hhtml hrequired hstart, hstrip]
    rfl
  exact ⟨hrendered, by rw [hrendered, hshows'.rendered_eq hnone]⟩

/-- A page whose application has some HTML, which may have to start with a prefix. -/
def appPage (start : Option String) (html : String) : World :=
  .start { (default : Environment) with elements := [("#app", html)] }
    (.start { Settings.standard with appPrefix := start } default none)

/-- The prefix holds an element with blanks of its own, and blanks stand on both sides of its end. -/
theorem normal_prefixed_pre :
    "<pre> a\n</pre> <main>".toList.getLast? = some '>' ∧
      ClosesElements "<pre> a\n</pre> <main>".toList ∧
      (appPage (some "<pre> a\n</pre> <main>") "<pre> a\n</pre> <main> <p> x").AppShows
        ("<pre> a\n</pre> <main>" ++ " <p> x") ∧
      (appPage none " <p> x").AppShows " <p> x" ∧
      (appPage (some "<pre> a\n</pre> <main>") "<pre> a\n</pre> <main> <p> x").rendered =
        .ok "<p>x" ∧
      (appPage none " <p> x").rendered = .ok "<p>x" := by
  have hlast : "<pre> a\n</pre> <main>".toList.getLast? = some '>' := by decide
  have hcloses : ClosesElements "<pre> a\n</pre> <main>".toList := by decide +kernel
  have hshows : (appPage (some "<pre> a\n</pre> <main>")
      "<pre> a\n</pre> <main> <p> x").AppShows ("<pre> a\n</pre> <main>" ++ " <p> x") :=
    ⟨by decide, fun _ => by decide⟩
  have hshows' : (appPage none " <p> x").AppShows " <p> x" := ⟨by decide, fun _ => by decide⟩
  have hbody : normal " <p> x" = "<p>x" := by decide +kernel
  obtain ⟨-, -, hworlds⟩ := normal_prefixed hlast hcloses " <p> x"
  obtain ⟨hrendered, hsame⟩ := hworlds _ _ hshows rfl hshows' rfl
  rw [hbody] at hrendered
  exact ⟨hlast, hcloses, hshows, hshows', hrendered, hsame.trans hrendered⟩

end HotSpec.Html
