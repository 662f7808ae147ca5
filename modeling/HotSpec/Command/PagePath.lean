import HotSpec.Command.Request

/-!
# Paths into the page

Dotted paths as a test script writes them.
-/

namespace HotSpec

/-- The text of a path. -/
def shownPath (path : List String) : String := ".".intercalate ("page" :: path)

/-- The names of a dotted text; the empty text is the page itself. -/
def pathOf (text : String) : List String :=
  if text = "" then []
  else (Text.splitOn '.' text.toList).map String.ofList

/-- The path of the command that a dotted text stands for. -/
def readPath (text : String) : Except Fault (List String) :=
  match pageCommand (pathOf text) [] [] with
  | .ok (.page path ..) => .ok path
  | .ok _ => .ok []
  | .error fault => .error fault

end HotSpec
