import HotSpec.Session.Event

/-!
# The page

What a test sees of its page: the address, the elements with their HTML, those who listen to its
events, and the attributes that a path leads to.

Main definitions:

- `Site`: the page, with the files that it was built from.
- `Site.listen`, `Site.unlisten`: who listens to an event.
- `Site.install`: files written, and the application built again.
- `Site.reach`: what a path leads to.

Main results:

- `listenersOf_listen`, `listenersOf_unlisten`: who is told of an event once somebody listens to it, or
  does not listen any more.
-/

namespace HotSpec

/-- What a page tells. -/
inductive PageEvent
  | console (message : ConsoleMessage)
  | pageError (text : String)
  | error (kind : Option FaultKind) (text : String)
  | load
  deriving Repr, DecidableEq, Inhabited

/-- The name under which one listens to an event. -/
def PageEvent.name : PageEvent → String
  | .console _ => "console"
  | .pageError _ => "pageerror"
  | .error .. => "error"
  | .load => "load"

/-- Who listens to a page: the console monitor, a wait for a console message, which listens once, or
the counter of loads. -/
inductive Listener
  | monitor
  | wait (number : Nat)
  | loads
  deriving Repr, DecidableEq, Inhabited

/-- A page, with the files that it was built from and the number of writes so far. -/
structure Site where
  url : Value
  elements : Table String
  files : Table Value
  listeners : Table (List Listener)
  writes : Nat
  deriving Inhabited

namespace Site

/-! ## Listeners -/

/-- Who listens to an event. -/
def listenersOf (s : Site) (event : String) : List Listener := (s.listeners.get? event).getD []

/-- Listen to an event. -/
def listen (s : Site) (event : String) (l : Listener) : Site :=
  { s with listeners := s.listeners.put event (s.listenersOf event ++ [l]) }

/-- Stop listening to an event. -/
def unlisten (s : Site) (event : String) (l : Listener) : Site :=
  if s.listeners.has event then
    { s with listeners := s.listeners.put event ((s.listenersOf event).filter (· ≠ l)) }
  else s

theorem listenersOf_listen (s : Site) (event other : String) (l : Listener) :
    (s.listen event l).listenersOf other =
      if event = other then s.listenersOf event ++ [l] else s.listenersOf other := by
  unfold listen listenersOf
  rw [Table.get?_put]
  split <;> rfl

theorem listenersOf_unlisten (s : Site) (event other : String) (l : Listener) :
    (s.unlisten event l).listenersOf other =
      if event = other then (s.listenersOf event).filter (· ≠ l) else s.listenersOf other := by
  unfold unlisten
  split
  · unfold listenersOf
    rw [Table.get?_put]
    split <;> rfl
  · next hhas =>
    split
    · next heq =>
      subst heq
      have hnone : s.listeners.get? event = none := by simpa [Table.has] using hhas
      simp [listenersOf, hnone]
    · rfl

/-- How many listen to each event. -/
def listenerCounts (s : Site) : Table Nat := s.listeners.map fun row => (row.1, row.2.length)

/-! ## Elements -/

/-- HTML without its tags, inside a tag or outside.  A tag that is never closed is none. -/
def withoutTags : (inside : Bool) → List Char → List Char
  | _, [] => []
  | true, c :: rest => withoutTags (c ≠ '>') rest
  | false, c :: rest =>
    if c = '<' && rest.contains '>' then withoutTags true rest else c :: withoutTags false rest

/-- The text of an element, nothing if there is no such element. -/
def innerText (s : Site) (selector : String) : Value :=
  match s.elements.get? selector with
  | some html => .text (String.ofList (withoutTags false html.toList))
  | none => .nothing

/-! ## Files -/

/-- Write files; nothing as content removes a file. -/
def writeFiles (files changes : Table Value) : Table Value :=
  changes.foldl (fun files change =>
    match change.2 with
    | .nothing => files.erase change.1
    | content => files.put change.1 content) files

/-- The HTML built from the contents of some files. -/
def built (files : Table Value) (sources : List String) : String :=
  String.join (sources.map fun path => ((files.get? path).map Value.plain).getD "")

/-! ## Attributes -/

/-- What the page can be asked to do. -/
inductive Method
  | title
  | visit
  | click
  | evaluate
  | press
  | add
  | boom
  deriving Repr, DecidableEq, Inhabited

/-- What a path leads to. -/
inductive Attribute
  | value (value : Value)
  | method (method : Method)

/-- The attributes of the page. -/
def pageAttributes (s : Site) : Table Attribute := [
  ("url", .value s.url), ("keyboard", .value .keyboard), ("title", .method .title),
  ("goto", .method .visit), ("click", .method .click), ("evaluate", .method .evaluate),
  ("add", .method .add), ("boom", .method .boom)]

/-- The attributes of the keyboard. -/
def keyboardAttributes : Table Attribute := [
  ("layout", .value (.text "us")), ("press", .method .press)]

/-- An attribute of something. -/
def attributeOf? (s : Site) (name : String) : Attribute → Option Attribute
  | .value .page => s.pageAttributes.get? name
  | .value .keyboard => Table.get? keyboardAttributes name
  | _ => none

/-- Follow a path; where it ends too early, with the path that leads nowhere. -/
def follow (s : Site) (done : List String) (target : Attribute) :
    List String → Except (List String) Attribute
  | [] => .ok target
  | name :: path =>
    match s.attributeOf? name target with
    | some target => follow s (done ++ [name]) target path
    | none => .error (done ++ [name])

/-- What a path leads to from the page. -/
def reach (s : Site) (path : List String) : Except (List String) Attribute :=
  s.follow [] (.value .page) path

end Site

end HotSpec
