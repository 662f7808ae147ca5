import HotSpec.Fault.Basic
import HotSpec.Proofs.Html.Trimming

/-!
# Decompositions by tokens

Tokens accept a text exactly if it is made of pieces that they take, one piece for each token, with
blanks in front of each piece and behind the last one.  What a pattern takes depends on all that
follows, so pieces are cut off from left to right, each in front of what it leaves.  There is one way
to do so at most: where it ends early, the mismatch names the first token that finds no piece, or the
text that is left over.

Main definitions:

- `Token.Takes`, `Token.Cuts`: the piece that a token takes, and what it leaves of a text.
- `Decomposes`: tokens cut a text one after the other.
- `Token.missing`: the mismatch of a token that finds no piece.

Main results:

- Theorem `matchRest?_suffix`: a pattern leaves an end of the text.
- Theorem `cuts_iff_leave?`: where the piece of a token ends is decided by the text.
- Theorem `matchTokens_decomposes`: which texts tokens accept, and what they say of the other ones.
-/

namespace HotSpec

/-! ## What patterns leave -/

namespace Regex

variable {flags : RegexFlags} {p q : Place} {k : Place → Option Place} {text left : List Char}

/-- Rounds go on at later places if each of them does. -/
theorem repeated_suffix {round : Place → (Place → Option Place) → Option Place} {greedy : Bool}
    (hround : ∀ {p q : Place} {k : Place → Option Place}, round p k = some q →
      ∃ p', p'.rest <:+ p.rest ∧ k p' = some q)
    {fuel least : Nat} {most : Option Nat} (h : repeated round greedy fuel least most p k = some q) :
    ∃ p', p'.rest <:+ p.rest ∧ k p' = some q := by
  induction fuel generalizing least most p with
  | zero => exact ⟨p, List.suffix_refl _, h⟩
  | succ fuel ih =>
    cases least with
    | succ least =>
      obtain ⟨p₁, hp₁, hmore⟩ := hround h
      obtain ⟨p₂, hp₂, hk⟩ := ih hmore
      exact ⟨p₂, hp₂.trans hp₁, hk⟩
    | zero =>
      have hnow (hk : k p = some q) : ∃ p', p'.rest <:+ p.rest ∧ k p' = some q :=
        ⟨p, List.suffix_refl _, hk⟩
      have hagain (hmore : (round p fun p' => if p'.rest.length < p.rest.length then
          repeated round greedy fuel 0 (most.map (· - 1)) p' k else none) = some q) :
          ∃ p', p'.rest <:+ p.rest ∧ k p' = some q := by
        obtain ⟨p₁, hp₁, hmore⟩ := hround hmore
        split at hmore
        · obtain ⟨p₂, hp₂, hk⟩ := ih hmore
          exact ⟨p₂, hp₂.trans hp₁, hk⟩
        · cases hmore
      rw [repeated] at h
      split at h
      · exact hnow h
      · split at h
        · exact (Option.or_eq_some_iff.mp h).elim hagain fun hk => hnow hk.2
        · exact (Option.or_eq_some_iff.mp h).elim hnow fun hmore => hagain hmore.2

theorem next?_suffix {c : Char} (h : p.next? = some (c, q)) : q.rest <:+ p.rest := by
  unfold Place.next? at h
  split at h
  · cases h
  · next c rest hrest =>
    cases h
    rw [hrest]
    exact List.suffix_cons c rest

/-- What follows a pattern is matched at a later place. -/
theorem run_suffix {node : Node} (h : node.run flags p k = some q) :
    ∃ p', p'.rest <:+ p.rest ∧ k p' = some q := by
  induction node generalizing p q k with
  | empty => exact ⟨p, List.suffix_refl _, h⟩
  | never => cases h
  | anyChar =>
    rw [Node.run] at h
    split at h
    · next c p' hp' =>
      split at h
      · cases h
      · exact ⟨p', next?_suffix hp', h⟩
    · cases h
  | oneOf negated sets =>
    rw [Node.run] at h
    split at h
    · next c p' hp' =>
      split at h
      · exact ⟨p', next?_suffix hp', h⟩
      · cases h
    · cases h
  | edge e =>
    rw [Node.run] at h
    split at h
    · exact ⟨p, List.suffix_refl _, h⟩
    · cases h
  | ahead negated body =>
    rw [Node.run] at h
    split at h
    · exact ⟨p, List.suffix_refl _, h⟩
    · cases h
  | seq first second ihfirst ihsecond =>
    obtain ⟨p₁, hp₁, hsecond⟩ := ihfirst h
    obtain ⟨p₂, hp₂, hk⟩ := ihsecond hsecond
    exact ⟨p₂, hp₂.trans hp₁, hk⟩
  | alt first second ihfirst ihsecond =>
    exact (Option.or_eq_some_iff.mp h).elim ihfirst fun hsecond => ihsecond hsecond.2
  | loop greedy least most body ih => exact repeated_suffix ih h

/-- A pattern leaves an end of the text. -/
theorem matchRest?_suffix {regex : Regex} (h : regex.matchRest? text = some left) :
    left <:+ text := by
  obtain ⟨p, hp, rfl⟩ := Option.map_eq_some_iff.mp h
  obtain ⟨p', hp', heq⟩ := run_suffix hp
  cases heq
  exact hp'

end Regex

namespace Html

open HotSpec.Text

variable {token : Token} {tokens before after : List Token} {text piece rest left : List Char}
  {actual : String} {position : Nat}

/-! ## Pieces -/

/-- A token takes a piece in front of what is left: a literal text takes itself, and a pattern what
it matches there. -/
inductive Token.Takes : Token → (piece left : List Char) → Prop
  | literal (text : String) (left : List Char) : Takes (.literal text) text.toList left
  | pattern {regex : Regex} {piece left : List Char}
      (h : regex.matchRest? (piece ++ left) = some left) : Takes (.pattern regex) piece left

/-- A token cuts a text: behind blanks, and where no blank comes next, it takes a piece. -/
def Token.Cuts (token : Token) (text left : List Char) : Prop :=
  ∃ gap piece, text = gap ++ (piece ++ left) ∧ blank gap = true ∧
    (∀ c, (piece ++ left).head? = some c → isBlank c = false) ∧ token.Takes piece left

/-- Tokens cut a text one after the other, each of them what the one before it has left. -/
inductive Decomposes : List Token → (text left : List Char) → Prop
  | nil (text : List Char) : Decomposes [] text text
  | cons {token : Token} {tokens : List Token} {text rest left : List Char}
      (hfirst : token.Cuts text rest) (hrest : Decomposes tokens rest left) :
      Decomposes (token :: tokens) text left

/-- What a token leaves of a text, if it takes a piece in front of it. -/
def Token.leave? : Token → List Char → Option (List Char)
  | .literal text, rest =>
    if rest.take text.length = text.toList then some (rest.drop text.length) else none
  | .pattern regex, rest => regex.matchRest? rest

/-- The piece of a token ends where the token itself says. -/
theorem leave?_eq_some_iff :
    token.leave? text = some left ↔ ∃ piece, text = piece ++ left ∧ token.Takes piece left := by
  cases token with
  | literal part =>
    rw [Token.leave?, ← String.length_toList, Option.ite_none_right_eq_some, Option.some.injEq]
    constructor
    · rintro ⟨htake, rfl⟩
      refine ⟨part.toList, ?_, .literal part _⟩
      conv_lhs => rw [← List.take_append_drop part.toList.length text, htake]
    · rintro ⟨piece, rfl, htakes⟩
      cases htakes
      exact ⟨List.take_left, List.drop_left⟩
  | pattern regex =>
    constructor
    · intro h
      obtain ⟨piece, rfl⟩ := Regex.matchRest?_suffix h
      exact ⟨piece, rfl, .pattern h⟩
    · rintro ⟨piece, rfl, htakes⟩
      cases htakes with
      | pattern h => exact h

/-- Where the piece of a token ends is decided by the text. -/
theorem cuts_iff_leave? : token.Cuts text left ↔ token.leave? (trimStart text) = some left := by
  rw [leave?_eq_some_iff]
  constructor
  · rintro ⟨gap, piece, rfl, hgap, hfirst, htakes⟩
    exact ⟨piece, by rw [trimStart_append_of_blank hgap, trimStart_eq_self_iff.mpr hfirst], htakes⟩
  · rintro ⟨piece, htrim, htakes⟩
    refine ⟨text.takeWhile isBlank, piece, ?_, blank_takeWhile text, ?_, htakes⟩
    · rw [← htrim, takeWhile_append_trimStart]
    · rw [← htrim]
      exact trimStart_eq_self_iff.mp (trimStart_idem text)

/-! ## Mismatches -/

/-- The mismatch of a token that finds no piece in front of a text. -/
def Token.missing (position : Nat) (rest : List Char) (actual : String) : Token → Mismatch
  | .literal text => .literal position text (String.ofList (rest.take text.length)) actual
  | .pattern regex => .pattern position regex.source (String.ofList rest) actual

/-- The text of such a mismatch names the position of the token. -/
theorem message_missing (token : Token) (position : Nat) (rest : List Char) (actual : String) :
    ∃ detail, (token.missing position rest actual).message =
      "token " ++ toString position ++ ": " ++ detail := by
  have hself (text : String) : toString text = text := rfl
  unfold Mismatch.message
  cases token with
  | literal text =>
    have hcolon : ": expected " = ": " ++ "expected " := by simp
    refine ⟨"expected " ++ (quoted text ++ (" but found " ++
      (quoted (String.ofList (rest.take text.length)) ++ (" in " ++ quoted actual)))), ?_⟩
    simp only [Token.missing, hself, hcolon, String.append_assoc]
  | pattern regex =>
    have hcolon : ": /" = ": " ++ "/" := by simp
    refine ⟨"/" ++ (regex.source ++ ("/ does not match " ++ (quoted (String.ofList rest) ++
      (" in " ++ quoted actual)))), ?_⟩
    simp only [Token.missing, hself, hcolon, String.append_assoc]

/-! ## Matching -/

/-- A token that takes a piece passes what it leaves on to the next one. -/
theorem meetTokens_of_cuts (h : token.Cuts text left) (actual : String) (position : Nat)
    (tokens : List Token) : meetTokens actual position (token :: tokens) text =
      meetTokens actual (position + 1) tokens left := by
  rw [cuts_iff_leave?] at h
  cases token with
  | literal part =>
    rw [Token.leave?, Option.ite_none_right_eq_some, Option.some.injEq] at h
    obtain ⟨htake, rfl⟩ := h
    rw [meetTokens]
    exact if_pos htake
  | pattern regex =>
    rw [Token.leave?] at h
    rw [meetTokens]
    simp only [h]

/-- A token that finds no piece fails. -/
theorem meetTokens_of_missing (h : ∀ left, ¬ token.Cuts text left) (actual : String)
    (position : Nat) (tokens : List Token) : meetTokens actual position (token :: tokens) text =
      .error (token.missing position (trimStart text) actual) := by
  have hnone : token.leave? (trimStart text) = none :=
    Option.eq_none_iff_forall_ne_some.mpr fun left hleft => h left (cuts_iff_leave?.mpr hleft)
  cases token with
  | literal part =>
    rw [Token.leave?] at hnone
    rw [meetTokens]
    exact if_neg fun htake => by simp [htake] at hnone
  | pattern regex =>
    rw [Token.leave?] at hnone
    rw [meetTokens]
    simp only [hnone]
    rfl

/-- Tokens that cut a text leave the rest of it to those behind them. -/
theorem meetTokens_of_decomposes (h : Decomposes before text rest) (actual : String)
    (position : Nat) (tokens : List Token) : meetTokens actual position (before ++ tokens) text =
      meetTokens actual (position + before.length) tokens rest := by
  induction h generalizing position with
  | nil text => rfl
  | @cons token before text middle rest hfirst _ ih =>
    rw [List.cons_append, meetTokens_of_cuts hfirst, ih, List.length_cons]
    congr 1
    omega

/-- Tokens that cut a text accept it, unless the last one leaves more than blanks. -/
theorem matchTokens_of_decomposes (h : Decomposes tokens actual.toList left) :
    matchTokens actual tokens = if blank left then .ok ()
      else .error (.trailing (String.ofList (trim left)) actual) := by
  have hmeet := meetTokens_of_decomposes h actual 0 []
  rw [List.append_nil] at hmeet
  rw [matchTokens, hmeet, meetTokens]

/-- A token that finds no piece behind those of the tokens before it fails, with its position. -/
theorem matchTokens_of_missing (hbefore : Decomposes before actual.toList rest)
    (hnone : ∀ left, ¬ token.Cuts rest left) (after : List Token) :
    matchTokens actual (before ++ token :: after) =
      .error (token.missing before.length (trimStart rest) actual) := by
  rw [matchTokens, meetTokens_of_decomposes hbefore, meetTokens_of_missing hnone, Nat.zero_add]

/-- Tokens cut a text, or one of them is the first that finds no piece. -/
theorem decomposes_or_missing (tokens : List Token) (text : List Char) :
    (∃ left, Decomposes tokens text left) ∨
      ∃ before token after rest, tokens = before ++ token :: after ∧
        Decomposes before text rest ∧ ∀ left, ¬ token.Cuts rest left := by
  induction tokens generalizing text with
  | nil => exact .inl ⟨text, .nil text⟩
  | cons token tokens ih =>
    by_cases hfirst : ∃ rest, token.Cuts text rest
    · obtain ⟨rest, hcuts⟩ := hfirst
      rcases ih rest with ⟨left, hleft⟩ | ⟨before, next, after, last, rfl, hbefore, hmissing⟩
      · exact .inl ⟨left, .cons hcuts hleft⟩
      · exact .inr ⟨token :: before, next, after, last, rfl, .cons hcuts hbefore, hmissing⟩
    · exact .inr ⟨[], token, tokens, text, rfl, .nil text, not_exists.mp hfirst⟩

/-- Tokens accept a text exactly if it is made of their pieces, one after the other, with blanks in
front of each of them and at the end.  Any other text fails with an assertion: it names the first
token that finds no piece behind those of the tokens before it, or the text that the last token has
left. -/
theorem matchTokens_decomposes (actual : String) (tokens : List Token) :
    (matchTokens actual tokens = .ok () ↔
      ∃ left, Decomposes tokens actual.toList left ∧ blank left = true) ∧
    (¬ (∃ left, Decomposes tokens actual.toList left ∧ blank left = true) →
      ∃ mismatch, matchTokens actual tokens = .error mismatch ∧
        (Fault.mismatch mismatch).kind = .assertion ∧
        ((∃ before token after rest detail, tokens = before ++ token :: after ∧
            Decomposes before actual.toList rest ∧ (∀ left, ¬ token.Cuts rest left) ∧
            mismatch = token.missing before.length (trimStart rest) actual ∧
            mismatch.message = "token " ++ toString before.length ++ ": " ++ detail) ∨
          ∃ left, Decomposes tokens actual.toList left ∧ blank left = false ∧
            mismatch = .trailing (String.ofList (trim left)) actual)) := by
  constructor
  · constructor
    · intro hok
      rcases decomposes_or_missing tokens actual.toList with
        ⟨left, hleft⟩ | ⟨before, token, after, rest, rfl, hbefore, hnone⟩
      · rw [matchTokens_of_decomposes hleft] at hok
        exact ⟨left, hleft, by_contra fun hne => by simp [hne] at hok⟩
      · rw [matchTokens_of_missing hbefore hnone] at hok
        cases hok
    · rintro ⟨left, hleft, hblank⟩
      rw [matchTokens_of_decomposes hleft, if_pos hblank]
  · intro hnot
    rcases decomposes_or_missing tokens actual.toList with
      ⟨left, hleft⟩ | ⟨before, token, after, rest, rfl, hbefore, hnone⟩
    · have hblank : blank left = false := by
        by_contra hne
        exact hnot ⟨left, hleft, by simpa using hne⟩
      have hfails := (matchTokens_of_decomposes hleft).trans (if_neg (by simp [hblank]))
      exact ⟨_, hfails, rfl, .inr ⟨left, hleft, hblank, rfl⟩⟩
    · obtain ⟨detail, hdetail⟩ := message_missing token before.length (trimStart rest) actual
      exact ⟨_, matchTokens_of_missing hbefore hnone after, rfl,
        .inl ⟨before, token, after, rest, detail, rfl, hbefore, hnone, rfl, hdetail⟩⟩

end Html

end HotSpec
