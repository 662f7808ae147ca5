import HotSpec.Page.Site

/-!
# The live environment

The environment that builds and serves the application under test, given by what it does when it is
asked to start anew, to write files, and to load the page.  It may do anything at all at each of
these times; what it cannot do is to hand over its page more than once in a load.

Main definitions:

- `Chore`, `LoadStep`, `Loading`: what an environment does, at any time and while it loads a page.
- `Environment`: an environment, by how it builds and what it does when it is asked.
- `Deed`: a single thing done for the engine.
- `DevServer`: an environment with fixed delays and failures.
-/

namespace HotSpec

/-! ## Environments -/

/-- Something that an environment does on its own. -/
inductive Chore
  /-- Fail. -/
  | fail (given : GivenFault)
  /-- Let some time pass. -/
  | sleep (delay : Float)
  /-- Act on the page. -/
  | act (actions : List Action)
  /-- Remove all files. -/
  | clear
  /-- Write files and build the application. -/
  | install (files : Table Value)
  /-- Tell that the page is not needed any more. -/
  | leave

/-- What an environment does while it loads a page. -/
inductive LoadStep
  | chore (chore : Chore)
  /-- Let the engine prepare the page before it is loaded. -/
  | openPage

/-- How a page is loaded: what is done at first, and if the page is handed over then, what is done
after the engine has let go of it. -/
structure Loading where
  before : List LoadStep
  after : Option (List LoadStep)
  deriving Inhabited

/-- An environment: the page that it begins with, the elements that it builds from files, and what
it does when it is asked for something.  Writes are counted. -/
structure Environment where
  url : String
  elements : Table String
  build : Table Value → Table String → Table String
  reset : Table Value → List Chore
  write : Nat → Table Value → List Chore
  load : String → Loading
  deriving Inhabited

/-- A single thing that is done for the engine. -/
inductive Deed
  | chore (chore : Chore)
  /-- Let the engine prepare the page before it is loaded. -/
  | openPage
  /-- Hand the page over to the engine, which begins with a command if there is one. -/
  | handOver (first : Option Command)

/-- A step of a load as a deed. -/
def LoadStep.deed : LoadStep → Deed
  | .chore c => .chore c
  | .openPage => .openPage

namespace Environment

/-- The page that an environment begins with. -/
def site (e : Environment) : Site := ⟨.text e.url, e.elements, [], [], 0⟩

/-- Write files and build the application. -/
def install (e : Environment) (s : Site) (changes : Table Value) : Site :=
  let files := Site.writeFiles s.files changes
  { s with files, elements := e.build files s.elements }

/-- What is done to start anew with some files. -/
def resetDeeds (e : Environment) (files : Table Value) : List Deed := (e.reset files).map .chore

/-- What is done to write files. -/
def writeDeeds (e : Environment) (write : Nat) (files : Table Value) : List Deed :=
  (e.write write files).map .chore

/-- What is done to load a page. -/
def loadDeeds (e : Environment) (url : String) (first : Option Command) : List Deed :=
  let loading := e.load url
  loading.before.map LoadStep.deed ++
    match loading.after with
    | some steps => .handOver first :: steps.map LoadStep.deed
    | none => []

end Environment

/-! ## Servers with fixed behaviour -/

/-- What a server does at some of its writes, or at all of them. -/
structure WriteRule where
  write : Option Nat
  actions : List Action
  failure : Option GivenFault
  deriving Inhabited

/-- A server: the page that it begins with, the files that it builds the application from, and how
its work goes. -/
structure DevServer where
  url : String
  elements : Table String
  appRoot : String
  sources : List String
  static : Bool
  resetFailure : Option GivenFault
  writeRules : List WriteRule
  writeDelay : Option Float
  loadFailure : Option GivenFault
  loadDelay : Option Float
  opens : Bool
  loaded : List Action
  handsOver : Bool
  closed : List Action
  unloadFailure : Option GivenFault
  deriving Inhabited

namespace DevServer

/-- Build the application, unless the page never changes. -/
def build (s : DevServer) (files : Table Value) (elements : Table String) : Table String :=
  if s.static then elements else elements.put s.appRoot (Site.built files s.sources)

/-- A failure as a chore. -/
def failing (given : Option GivenFault) : List Chore := (given.map Chore.fail).toList

/-- A delay as a chore. -/
def sleeping (delay : Option Float) : List Chore := (delay.map Chore.sleep).toList

/-- What rules do at a write. -/
def ruleChores (write : Nat) (rules : List WriteRule) : List Chore :=
  (rules.filter fun rule => rule.write.all (· == write)).flatMap fun rule =>
    .act rule.actions :: failing rule.failure

/-- How a server loads its page. -/
def loading (s : DevServer) : Loading :=
  let first := (failing s.loadFailure ++ sleeping s.loadDelay).map LoadStep.chore ++
    (if s.opens then [.openPage] else []) ++ [.chore (.act [.load]), .chore (.act s.loaded)]
  let last := (.leave :: .act s.closed :: failing s.unloadFailure).map LoadStep.chore
  if s.handsOver then ⟨first, some last⟩ else ⟨first ++ last, none⟩

/-- A server as an environment. -/
def environment (s : DevServer) : Environment where
  url := s.url
  elements := s.elements
  build := s.build
  reset files := failing s.resetFailure ++ [.clear, .install files]
  write number files :=
    ruleChores number s.writeRules ++ sleeping s.writeDelay ++ [.install files]
  load _ := s.loading

end DevServer

end HotSpec
