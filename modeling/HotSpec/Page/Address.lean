import HotSpec.Text.Blank
import HotSpec.Text.Property

/-!
# Addresses

The addresses of pages: their parts, and a relative address resolved against the address of the
page that refers to it.

Main definitions:

- `Address.read?`, `Address.write`: the parts of an address and the address of parts.
- `Address.join?`: a relative address, resolved.
- `Address.origin?`: the origin at the start of an address.
-/

namespace HotSpec

/-- The parts of an address. -/
structure Address where
  scheme : List Char
  host : List Char
  path : List Char
  params : List Char
  query : List Char
  fragment : List Char
  deriving Repr, DecidableEq, Inhabited

namespace Address

/-! ## Schemes -/

/-- Schemes with a hierarchy of paths, against which others are resolved. -/
def relativeSchemes : List String := [
  "", "ftp", "http", "gopher", "nntp", "imap", "wais", "file", "https", "shttp", "mms", "prospero",
  "rtsp", "rtspu", "sftp", "svn", "svn+ssh", "ws", "wss"]

/-- Schemes whose addresses name a host. -/
def hostSchemes : List String := [
  "", "ftp", "http", "gopher", "nntp", "telnet", "imap", "wais", "file", "mms", "https", "shttp",
  "snews", "prospero", "rtsp", "rtspu", "rsync", "svn", "svn+ssh", "sftp", "nfs", "git", "git+ssh",
  "ws", "wss"]

/-- Schemes whose last path segment may have parameters. -/
def paramSchemes : List String := [
  "", "ftp", "hdl", "prospero", "http", "imap", "https", "shttp", "rtsp", "rtspu", "sip", "sips",
  "mms", "sftp", "tel"]

/-- Whether a scheme is in a list. -/
def inSchemes (scheme : List Char) (schemes : List String) : Bool :=
  schemes.contains (String.ofList scheme)

/-- Whether a character may stand in a scheme. -/
def isSchemeChar (c : Char) : Bool := c.isAlphanum || c == '+' || c == '-' || c == '.'

/-! ## Reading -/

/-- A text cut at the first of some characters; the character stays with the rest. -/
def cutAt (stops : List Char) (text : List Char) : List Char × List Char :=
  text.span fun c => !stops.contains c

/-- A text cut around the first of a character: nothing follows where it does not occur. -/
def splitAt (mark : Char) (text : List Char) : List Char × List Char :=
  let (before, rest) := cutAt [mark] text
  (before, rest.drop 1)

/-- An address without blanks and control characters in front and without breaks inside. -/
def clean (text : List Char) : List Char :=
  (text.dropWhile fun c => c.toNat ≤ 32).filter fun c => c ≠ '\t' && c ≠ '\r' && c ≠ '\n'

/-- The scheme in front of an address, in small letters, and what follows. -/
def readScheme (fallback : List Char) (text : List Char) : List Char × List Char :=
  match cutAt [':'] text with
  | (c :: scheme, ':' :: rest) =>
    if c.isAlpha && scheme.all isSchemeChar then ((c :: scheme).map Char.toLower, rest)
    else (fallback, text)
  | _ => (fallback, text)

/-- The path without the parameters of its last segment, and these. -/
def readParams (scheme path : List Char) : List Char × List Char :=
  if !inSchemes scheme paramSchemes then (path, [])
  else
    let last := (path.reverse.takeWhile (· ≠ '/')).reverse
    let (segment, params) := splitAt ';' last
    (path.take (path.length - last.length) ++ segment, params)

/-- The parts of an address, read under the scheme of the page that refers to it.  There are none
if the brackets of the host do not match. -/
def read? (fallback : List Char) (text : List Char) : Option Address :=
  let (scheme, rest) := readScheme fallback (clean text)
  let (host, rest) := match rest with
    | '/' :: '/' :: rest => cutAt ['/', '?', '#'] rest
    | rest => ([], rest)
  if host.contains '[' != host.contains ']' then none
  else
    let (rest, fragment) := splitAt '#' rest
    let (path, query) := splitAt '?' rest
    let (path, params) := readParams scheme path
    some ⟨scheme, host, path, params, query, fragment⟩

/-! ## Writing -/

/-- A mark and a part, or nothing for an empty part. -/
def marked (mark : Char) (part : List Char) : List Char :=
  if part.isEmpty then [] else mark :: part

/-- The address of parts. -/
def write (a : Address) : List Char :=
  let path := a.path ++ marked ';' a.params
  let slashes := ['/', '/']
  let named := !a.host.isEmpty || (!a.scheme.isEmpty && inSchemes a.scheme hostSchemes) ||
    slashes.isPrefixOf path
  let path := if !named then path
    else slashes ++ a.host ++ (if path.isEmpty || path.head? == some '/' then path else '/' :: path)
  let scheme := if a.scheme.isEmpty then [] else a.scheme ++ [':']
  scheme ++ path ++ marked '?' a.query ++ marked '#' a.fragment

/-! ## Joining -/

/-- The segments of a path once those that lead up and those that lead nowhere are followed. -/
def followDots : (done : List (List Char)) → List (List Char) → List (List Char)
  | done, [] => done.reverse
  | done, ['.', '.'] :: segments => followDots (done.drop 1) segments
  | done, ['.'] :: segments => followDots done segments
  | done, segment :: segments => followDots (segment :: done) segments

/-- Segments without the empty ones between the first and the last. -/
def dropEmpty : List (List Char) → List (List Char)
  | [] => []
  | first :: rest =>
    match rest.getLast? with
    | none => [first]
    | some last => first :: rest.dropLast.filter (!·.isEmpty) ++ [last]

/-- The segments of a directory. -/
def directory (path : List Char) : List (List Char) :=
  let segments := Text.splitOn '/' path
  if segments.getLast? == some [] then segments else segments.dropLast

/-- A path resolved against the path of a page. -/
def joinPath (base path : List Char) : List Char :=
  let segments :=
    if path.head? == some '/' then Text.splitOn '/' path
    else dropEmpty (directory base ++ Text.splitOn '/' path)
  let last := segments.getLast?
  let followed := followDots [] segments
  let followed := if last == some ['.'] || last == some ['.', '.'] then followed ++ [[]] else followed
  let joined := List.intercalate ['/'] followed
  if joined.isEmpty then ['/'] else joined

/-- An address resolved against that of a page. -/
def resolve (base a : Address) : Address :=
  let host := if inSchemes a.scheme hostSchemes then base.host else a.host
  if a.path.isEmpty && a.params.isEmpty then
    { a with host, path := base.path, params := base.params,
             query := if a.query.isEmpty then base.query else a.query }
  else { a with host, path := joinPath base.path a.path }

/-- The address that a text stands for on the page of a given address. -/
def join? (base text : String) : Option String :=
  if base = "" then some text
  else if text = "" then some base
  else do
    let page ← read? [] base.toList
    let a ← read? page.scheme text.toList
    if a.scheme != page.scheme || !inSchemes a.scheme relativeSchemes then some text
    else if inSchemes a.scheme hostSchemes && !a.host.isEmpty then
      some (String.ofList a.write)
    else some (String.ofList (resolve page a).write)

/-! ## Origins -/

/-- The origin at the start of an address: a word, a colon, two slashes and a host. -/
def origin? (text : String) : Option String :=
  let (word, rest) := text.toList.span Text.isWord
  match rest with
  | ':' :: '/' :: '/' :: rest =>
    some (String.ofList (word ++ [':', '/', '/'] ++ rest.takeWhile (· ≠ '/')))
  | _ => none

/-- Where a navigation leads on the page of a given address: a rooted address stays within the
origin of the page. -/
def target? (page text : String) : Option String :=
  if text.startsWith "/" then
    match origin? page with
    | some origin => some (origin ++ text)
    | none => join? page text
  else join? page text

end Address

end HotSpec
