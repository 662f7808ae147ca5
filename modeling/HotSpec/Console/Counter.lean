import HotSpec.Console.Policy

/-!
# Counted page events

What a test expects of the uncaught errors and of the loads of its page.  A counter counts the
events of an epoch, which is the time from one expectation to the next, and those of all epochs.

Main definitions:

- `Counter`, `Counter.reset`: a counter, and the start of a new epoch.
- `Counter.claim`, `Counter.missingError?`: errors as they come, and the final check.
- `Counter.load`, `Counter.wrongLoads?`: loads as they come, and the final check.
-/

namespace HotSpec

/-- What is expected of an event and how often it happened, in this epoch and in all. -/
structure Counter where
  expected : Value
  limit : Option Int
  message : Option String
  current : Nat
  total : Nat
  deriving Inhabited

namespace Counter

/-- The counter of a first epoch. -/
def start (expected : Value) (limit : Option Int) (message : Option String) : Counter :=
  ⟨expected, limit, message, 0, 0⟩

/-- The counter at the start of a new epoch. -/
def reset (c : Counter) (expected : Value) (limit : Option Int) (message : Option String) :
    Counter :=
  ⟨expected, limit, message, 0, c.total⟩

/-- The counter after one event more. -/
def tick (c : Counter) : Counter := { c with current := c.current + 1, total := c.total + 1 }

/-- The text of a failure: the given message if there is one. -/
def failure (c : Counter) (text : String) : String :=
  match c.message with
  | some message => if message = "" then text else message
  | none => text

/-! ## Errors -/

/-- Whether a text occurs in another one. -/
def occurs (part : List Char) : List Char → Bool
  | [] => part.isEmpty
  | c :: text => part.isPrefixOf (c :: text) || occurs part text

/-- Whether the text of an error is the expected one. -/
def meetsError (text : String) : Value → Except Fault Bool
  | .regex r => .ok (r.occursIn text.toList)
  | .text part => .ok (occurs part.toList text.toList)
  | v => .error (.usage (.badPattern v))

/-- Count an error, and claim it if it is expected. -/
def claim (c : Counter) (text : String) : Counter × Except Fault Bool :=
  let c := c.tick
  let c := { c with limit := c.limit.map (· - 1) }
  if c.limit.any (· < 0) then (c, .ok false)
  else
    match c.expected with
    | .bool expected => (c, .ok expected)
    | expected => (c, meetsError text expected)

/-- Why the errors of an epoch are too few, if they are. -/
def missingError? (c : Counter) : Option String :=
  match c.expected with
  | .bool false => none
  | expected =>
    if expected matches .bool true && c.current < 1 then
      some (c.failure s!"Expected page errors that didn't happen (total: {c.total})")
    else
      match c.limit with
      | some limit =>
        if 0 < limit then
          some (c.failure
            s!"Expected {limit} page errors, but there was {c.current} (total: {c.total})")
        else none
      | none => none

/-! ## Loads -/

/-- Whether no load is expected at all. -/
def expectsNone (c : Counter) : Bool := c.expected.same (.int 0)

/-- Whether a count exceeds an expected number. -/
def exceeds (count : Nat) (expected : Value) : Except Fault Bool :=
  match expected.number? with
  | some (.inl n) => .ok (n < count)
  | some (.inr x) => .ok (x < Float.ofNat count)
  | none => .error (.type (.notComparable expected.fullTypeName))

/-- Count a load; with the failure it is, if there are too many. -/
def load (c : Counter) : Counter × Except Fault (Option String) :=
  let c := c.tick
  match c.expected with
  | .bool true => (c, .ok none)
  | expected =>
    if c.expectsNone then
      (c, .ok (some (c.failure s!"Unexpected page load (total: {c.total})")))
    else
      (c, (exceeds c.current expected).map fun
        | true => some (c.failure
            s!"Expected {expected.plain} page loads, but we're at {c.current} (total: {c.total})")
        | false => none)

/-- Why the loads of an epoch are not as many as expected, if they are not. -/
def wrongLoads? (c : Counter) : Option String :=
  if c.expectsNone then none
  else
    match c.expected with
    | .bool true =>
      if c.current < 1 then
        some (c.failure s!"Expected more page loads that didn't happen (total: {c.total})")
      else none
    | expected =>
      if expected.same (.int c.current) then none
      else some (c.failure
        s!"Expected {expected.plain} page loads, but there was {c.current} (total: {c.total})")

end Counter

end HotSpec
