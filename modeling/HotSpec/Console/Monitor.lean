import HotSpec.Console.Policy

/-!
# The console monitor

The monitor listens to a page for as long as the page lives.  An unexpected message starts a burst:
all messages of a short time are collected, and then the monitor fails with all of them.  An error
of the page fails it at once.

Main definitions:

- `Monitor`: what the monitor has heard, and its verdict once there is one.
- `Monitor.Signal`, `Monitor.Reaction`: what comes in, and what the page and the clock are asked.
- `Monitor.step`: the monitor after a signal.

Main results:

- `verdict_step`: a verdict never changes.
- `run_append`: signals in a row.
-/

namespace HotSpec

/-- What the monitor has heard.  The verdict is nothing but a fault or its absence. -/
structure Monitor where
  attached : Bool
  messages : List ConsoleMessage
  buffering : Bool
  rejected : Bool
  verdict : Option (Option Fault)
  deriving Inhabited

namespace Monitor

/-- A monitor that has heard nothing. -/
def start : Monitor := ⟨false, [], false, false, none⟩

/-- What a monitor hears. -/
inductive Signal
  | message (message : ConsoleMessage)
  | pageError (text : String) (claimed : Bool)
  | error (fault : Fault)
  | expired (error : Bool)
  | close

/-- What a monitor asks for: to be taken off the page, and to be told when a burst is over, which
an error or else a warning started. -/
structure Reaction where
  detach : Bool
  timer : Option Bool
  deriving Repr, DecidableEq, Inhabited

/-- Nothing is asked for. -/
def Reaction.quiet : Reaction := ⟨false, none⟩

/-- A verdict, unless there is one. -/
def settle (m : Monitor) (verdict : Option Fault) : Monitor :=
  { m with verdict := some (m.verdict.getD verdict) }

/-- Fail, unless there is a verdict. -/
def reject (m : Monitor) (fault : Fault) : Monitor × Reaction :=
  ({ m with rejected := true }.settle (some fault), ⟨true, none⟩)

/-- Hear a message. -/
def hear (policy : ConsolePolicy) (m : Monitor) (message : ConsoleMessage) : Monitor × Reaction :=
  if m.rejected then (m, .quiet)
  else if m.buffering then ({ m with messages := m.messages ++ [message] }, .quiet)
  else
    match policy.offence message with
    | none => (m, .quiet)
    | some error =>
      ({ m with messages := m.messages ++ [message], buffering := true }, ⟨false, some error⟩)

/-- The monitor after a signal, under the policy in force. -/
def step (policy : ConsolePolicy) (m : Monitor) : Signal → Monitor × Reaction
  | .message message => m.hear policy message
  | .pageError text claimed => if claimed then (m, .quiet) else m.reject (.page text)
  | .error fault => m.reject fault
  | .expired error => m.reject (.console error m.messages)
  | .close => if m.rejected || m.buffering then (m, .quiet) else (m.settle none, ⟨true, none⟩)

/-- Attach the monitor to a page; it listens to one page only. -/
def attach (m : Monitor) : Except Fault Monitor :=
  if m.attached then .error (.usage .monitorAttached) else .ok { m with attached := true }

/-- The monitor after signals in a row, each under its policy. -/
def run (m : Monitor) (signals : List (ConsolePolicy × Signal)) : Monitor :=
  signals.foldl (fun m s => (m.step s.1 s.2).1) m

@[simp]
theorem run_nil (m : Monitor) : m.run [] = m := rfl

theorem run_cons (m : Monitor) (s : ConsolePolicy × Signal) (signals : List _) :
    m.run (s :: signals) = (m.step s.1 s.2).1.run signals := rfl

theorem run_append (m : Monitor) (first second : List (ConsolePolicy × Signal)) :
    m.run (first ++ second) = (m.run first).run second := List.foldl_append

/-- A verdict never changes. -/
theorem verdict_step {policy : ConsolePolicy} {m : Monitor} {v : Option Fault}
    (h : m.verdict = some v) (signal : Signal) : (m.step policy signal).1.verdict = some v := by
  cases signal <;> simp only [step, hear, reject, settle] <;> (repeat' split) <;> simp_all

end Monitor

/-- How a console line is echoed. -/
def ConsoleMessage.echo (m : ConsoleMessage) : String :=
  "[console:" ++ shortType m.type ++ "] " ++ m.text

end HotSpec
