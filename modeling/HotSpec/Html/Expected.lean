import HotSpec.Html.Normal
import HotSpec.Regex.Basic

/-!
# Expected HTML

What a step expects of the rendered HTML: a text to be equal to, or tokens to be met from left to
right.  Matching tokens skips the blanks in front of each token, so that blanks which rendering
puts between two tokens do no harm.

Main definitions:

- `Expected.normal`: the normal form of an expectation.
- `Expected.check`: whether rendered HTML meets an expectation, and if not, why.
- `stripPrefix`: rendered HTML without a required prefix.
-/

namespace HotSpec.Html

open HotSpec.Text

/-! ## Expectations -/

/-- A token: a literal text or a pattern. -/
inductive Token
  | literal (text : String)
  | pattern (regex : Regex)
  deriving Repr, Inhabited

/-- Expected HTML. -/
inductive Expected
  | exact (text : String)
  | tokens (tokens : List Token)
  deriving Repr, Inhabited

/-- Whether a token is a literal text. -/
def Token.isLiteral : Token → Bool
  | .literal _ => true
  | .pattern _ => false

/-- The normal form of a token: none for a literal text of blanks. -/
def Token.normal? : Token → Option Token
  | .literal text => if Html.normal text = "" then none else some (.literal (Html.normal text))
  | .pattern regex => some (.pattern regex)

/-- The normal form of an expectation. -/
def Expected.normal : Expected → Expected
  | .exact text => .exact (Html.normal text)
  | .tokens ts => .tokens (ts.filterMap Token.normal?)

/-- The text of a literal token, nothing for a pattern. -/
def Token.text : Token → String
  | .literal text => text
  | .pattern _ => ""

/-- The expectation made of lines of tokens: a text where all tokens are literal. -/
def Expected.ofLines (lines : List (List Token)) : Expected :=
  let tokens := lines.flatten
  if tokens.all Token.isLiteral then .exact (Html.normal (String.join (tokens.map Token.text)))
  else (Expected.tokens tokens).normal

/-! ## Mismatches -/

/-- Why HTML does not meet an expectation. -/
inductive Mismatch
  | whole (expected found : String)
  | literal (position : Nat) (token found actual : String)
  | pattern (position : Nat) (source rest actual : String)
  | trailing (rest actual : String)
  | start (expected found : String)
  deriving Repr, DecidableEq

/-- The text of a mismatch. -/
def Mismatch.message : Mismatch → String
  | .whole expected found => s!"expected {quoted expected} but found {quoted found}"
  | .literal position token found actual =>
    s!"token {position}: expected {quoted token} but found {quoted found} in {quoted actual}"
  | .pattern position source rest actual =>
    s!"token {position}: /{source}/ does not match {quoted rest} in {quoted actual}"
  | .trailing rest actual => s!"unexpected trailing HTML {quoted rest} in {quoted actual}"
  | .start expected found =>
    s!"app HTML prefix: expected {quoted expected} but found {quoted found}"

/-! ## Matching -/

/-- Meet tokens from left to right, starting with the token of the given number. -/
def meetTokens (actual : String) : (position : Nat) → List Token → List Char → Except Mismatch Unit
  | _, [], rest =>
    if blank rest then .ok ()
    else .error (.trailing (String.ofList (trim rest)) actual)
  | position, token :: tokens, rest =>
    let rest := trimStart rest
    match token with
    | .literal text =>
      let size := text.length
      if rest.take size = text.toList then meetTokens actual (position + 1) tokens (rest.drop size)
      else .error (.literal position text (String.ofList (rest.take size)) actual)
    | .pattern regex =>
      match regex.matchRest? rest with
      | some left => meetTokens actual (position + 1) tokens left
      | none => .error (.pattern position regex.source (String.ofList rest) actual)

/-- Meet a list of tokens. -/
def matchTokens (actual : String) (tokens : List Token) : Except Mismatch Unit :=
  meetTokens actual 0 tokens actual.toList

/-- Meet an expectation. -/
def Expected.check (actual : String) : Expected → Except Mismatch Unit
  | .exact text => if actual = text then .ok () else .error (.whole text actual)
  | .tokens ts => matchTokens actual ts

/-- The HTML after a required prefix. -/
def stripPrefix (actual start : String) : Except Mismatch String :=
  let size := start.length
  let found := String.ofList (actual.toList.take size)
  if found = start then .ok (String.ofList (actual.toList.drop size))
  else .error (.start start found)

end HotSpec.Html
