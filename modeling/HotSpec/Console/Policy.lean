import HotSpec.Spec.Step

/-!
# Policies on console messages

Which console messages a test puts up with, and which messages a test waits for.

Main definitions:

- `Policy`, `Policy.ignores`, `Policy.extend`: what is ignored, and how commands change it.
- `ConsolePolicy`: the policies on warnings and on errors.
- `ConsoleMessage.meets`: whether a message is one that is waited for.

Main result:

- `ignores_extend_list`: a list of matchers only adds to what is ignored.
-/

namespace HotSpec

/-! ## Matchers -/

/-- What the text of a message is compared with: a text that it equals or a pattern in it. -/
inductive Matcher
  | text (text : String)
  | pattern (regex : Regex)
  deriving Inhabited

namespace Matcher

/-- Whether a text is accepted. -/
def accepts (text : String) : Matcher → Bool
  | .text t => t == text
  | .pattern r => r.occursIn text.toList

/-- A matcher as a value. -/
def toValue : Matcher → Value
  | .text t => .text t
  | .pattern r => .regex r

/-- The matcher that a value is, if it is one. -/
def ofValue? : Value → Option Matcher
  | .text t => some (.text t)
  | .regex r => some (.pattern r)
  | _ => none

end Matcher

/-! ## Policies -/

/-- What is ignored: everything, nothing, or what a list matches. -/
inductive Policy
  | flag (all : Bool)
  | list (matchers : List Matcher)
  deriving Inhabited

namespace Policy

/-- Whether a text is ignored. -/
def ignores (text : String) : Policy → Bool
  | .flag all => all
  | .list matchers => matchers.any (·.accepts text)

/-- The matchers of a policy; a flag has none. -/
def matchers : Policy → List Matcher
  | .flag _ => []
  | .list matchers => matchers

/-- A policy after a command: a flag takes its place, a list adds to its list. -/
def extend (current : Policy) : Policy → Policy
  | .flag all => .flag all
  | .list added => .list (current.matchers ++ added)

@[simp]
theorem ignores_list (text : String) (ms : List Matcher) :
    (Policy.list ms).ignores text = ms.any (·.accepts text) := rfl

theorem ignores_extend_list (text : String) (ms added : List Matcher) :
    ((Policy.list ms).extend (.list added)).ignores text =
      ((Policy.list ms).ignores text || (Policy.list added).ignores text) := by
  simp [extend, matchers, List.any_append]

/-- A policy as a value. -/
def toValue : Policy → Value
  | .flag all => .bool all
  | .list matchers => .list (matchers.map Matcher.toValue)

/-- The policy that a value is; items that match nothing are left out. -/
def ofValue : Value → Policy
  | .bool all => .flag all
  | .list items | .tuple items => .list (items.filterMap Matcher.ofValue?)
  | _ => .list []

end Policy

/-- The policies of a test on warnings and on errors of the console. -/
structure ConsolePolicy where
  warnings : Policy
  errors : Policy
  deriving Inhabited

namespace ConsolePolicy

/-- Nothing is ignored. -/
def strict : ConsolePolicy := ⟨.list [], .list []⟩

/-- Change the policy on errors or on warnings. -/
def extend (p : ConsolePolicy) (errors : Bool) (change : Policy) : ConsolePolicy :=
  if errors then { p with errors := p.errors.extend change }
  else { p with warnings := p.warnings.extend change }

/-- The text of the policies inside messages. -/
def shown (p : ConsolePolicy) : String :=
  "ConsolePolicy(ignore_warnings=" ++ p.warnings.toValue.shown ++ ", ignore_errors=" ++
    p.errors.toValue.shown ++ ")"

/-- How a message that is not ignored fails a test: as an error, as a warning or not at all. -/
def offence (p : ConsolePolicy) (m : ConsoleMessage) : Option Bool :=
  if m.type = "error" then if p.errors.ignores m.text then none else some true
  else if m.type = "warning" then if p.warnings.ignores m.text then none else some false
  else none

end ConsolePolicy

/-! ## Awaited messages -/

mutual

/-- Whether a message is the one that a value describes: by its text, by a pattern in its text, or
by a record of its type and its text. -/
def ConsoleMessage.meets (m : ConsoleMessage) : Value → Bool
  | .text t => t == m.text
  | .regex r => r.occursIn m.text.toList
  | .dict rows => meetsRows m rows
  | _ => false

/-- Whether a message has the type and the text that a record asks for; what is empty asks for
nothing. -/
def meetsRows (m : ConsoleMessage) : List (Value × Value) → Bool
  | [] => true
  | (.text "type", v) :: rows => (!v.truthy || v.same (.text m.type)) && meetsRows m rows
  | (.text "text", v) :: rows => (!v.truthy || m.meets v) && meetsRows m rows
  | _ :: rows => meetsRows m rows

end

end HotSpec
