import HotSpec.Proofs.Console.Epochs

/-!
# Errors of the page by epochs

Effects say which uncaught errors of the page are expected from then on: at least one, exactly one that
a pattern admits, or none.  All of them share one handler, one final check and one counter.  Whether an
error is claimed, and whether the check fails, depends on the epoch alone: on the last effect and the
errors since.

Main definitions:

- `ErrorPattern.Admits`: what a pattern is looked for in.
- `ExpectedErrors`, with `Claims` and `Met`: what an effect expects, the errors that are claimed for it,
  and whether it has got what it expects.
- `World.ErrorHappens`: effects, errors that the page tells, and what happens elsewhere.

Main results:

- Theorems `Counter.CountsErrors.snd_claim`, `Counter.CountsErrors.missingError?`: the counter of an
  epoch.
- Theorem `World.page_errors_by_epoch`: the errors that are claimed, the final check, and the tests that
  pass.
-/

namespace HotSpec

/-! ## Patterns -/

/-- A text occurs in another one if it is an infix of it. -/
theorem Counter.occurs_iff (part text : List Char) :
    Counter.occurs part text = true ↔ part <:+: text := by
  induction text with
  | nil => simp [Counter.occurs]
  | cons c text ih =>
    rw [Counter.occurs, Bool.or_eq_true, List.isPrefixOf_iff_prefix, ih, List.infix_cons_iff]

/-- A pattern occurs in a text if it matches at some place of it. -/
theorem Regex.occursFrom_iff (r : Regex) (first : Option Char) (text : List Char) :
    r.occursFrom first text = true ↔
      ∃ before rest, text = before ++ rest ∧
        (r.matchAt? ⟨before.getLast?.or first, rest⟩).isSome := by
  induction text generalizing first with
  | nil => simp [Regex.occursFrom]
  | cons c text ih =>
    have hlast (before : List Char) :
        (c :: before).getLast?.or first = before.getLast?.or (some c) := by
      rw [List.getLast?_cons]
      cases before.getLast? <;> rfl
    rw [Regex.occursFrom, Bool.or_eq_true, ih]
    constructor
    · rintro (hhere | ⟨before, rest, rfl, hlater⟩)
      · exact ⟨[], c :: text, rfl, hhere⟩
      · exact ⟨c :: before, rest, rfl, hlast before ▸ hlater⟩
    · rintro ⟨before, rest, hcut, hmatch⟩
      cases before with
      | nil =>
        obtain rfl : c :: text = rest := hcut
        exact .inl hmatch
      | cons b before =>
        obtain ⟨rfl, rfl⟩ := List.cons.inj hcut
        exact .inr ⟨before, rest, rfl, hlast before ▸ hmatch⟩

/-- What an expected error is recognised by: a text in it, or a regular expression. -/
inductive ErrorPattern
  | part (text : String)
  | regex (regex : Regex)

namespace ErrorPattern

/-- The value that an effect is given for a pattern. -/
def toValue : ErrorPattern → Value
  | .part text => .text text
  | .regex r => .regex r

/-- Whether a pattern admits the text of an error: it occurs somewhere in the text. -/
def Admits : ErrorPattern → String → Prop
  | .part s, text => s.toList <:+: text.toList
  | .regex r, text => ∃ before rest, text.toList = before ++ rest ∧
      (r.matchAt? ⟨before.getLast?, rest⟩).isSome

/-- The counter looks for a pattern as it should. -/
theorem meetsError_toValue (pattern : ErrorPattern) (text : String) :
    ∃ meets, Counter.meetsError text pattern.toValue = .ok meets ∧
      (meets = true ↔ pattern.Admits text) := by
  cases pattern with
  | part s => exact ⟨_, rfl, Counter.occurs_iff s.toList text.toList⟩
  | regex r => exact ⟨_, rfl, by simpa [Admits, Regex.occursIn] using r.occursFrom_iff none text.toList⟩

end ErrorPattern

/-! ## What is expected -/

/-- What an effect expects of the errors up to the next one: at least one, exactly one that a pattern
admits, or none. -/
inductive ExpectedErrors
  | any
  | one (pattern : ErrorPattern)
  | no

namespace ExpectedErrors

/-- What is expected, as a value. -/
def toValue : ExpectedErrors → Value
  | .any => .bool true
  | .one pattern => pattern.toValue
  | .no => .bool false

/-- The number of errors after which no more are claimed. -/
def limit? : ExpectedErrors → Option Int
  | .one _ => some 1
  | .any | .no => none

/-- Whether an error is claimed, by the errors before it in its epoch. -/
def Claims : ExpectedErrors → List String → String → Prop
  | .any, _, _ => True
  | .one pattern, earlier, text => earlier = [] ∧ pattern.Admits text
  | .no, _, _ => False

/-- Whether the errors of an epoch are those that had to happen. -/
def Met : ExpectedErrors → List String → Prop
  | .any, errors => errors ≠ []
  | .one _, errors => errors ≠ []
  | .no, _ => True

end ExpectedErrors

/-- The effects that begin an epoch of errors. -/
inductive Effect.ExpectsErrors : Effect → ExpectedErrors → Prop
  | any (message : Option String) : ExpectsErrors (.expectPageErrors message) .any
  | one (pattern : ErrorPattern) (message : Option String) :
      ExpectsErrors (.expectPageError pattern.toValue message) (.one pattern)
  | no (message : Option String) : ExpectsErrors (.expectNoPageError message) .no

theorem Effect.ExpectsErrors.eq_pageErrors {e : Effect} {expected : ExpectedErrors}
    (h : e.ExpectsErrors expected) :
    ∃ message, e = .pageErrors expected.toValue expected.limit? message := by
  cases h <;> exact ⟨_, rfl⟩

/-! ## The counter of an epoch -/

namespace Counter

/-- A counter with the errors of an epoch: its limit has gone down with each of them, below zero if
there are too many. -/
structure CountsErrors (c : Counter) (epoch : Epoch ExpectedErrors String) : Prop where
  expected : c.expected = epoch.expected.toValue
  limit : c.limit = epoch.expected.limit?.map (· - (epoch.events.length : Int))
  current : c.current = epoch.events.length

variable {c : Counter} {epoch : Epoch ExpectedErrors String}

theorem countsErrors_start (expected : ExpectedErrors) (message : Option String) :
    (start expected.toValue expected.limit? message).CountsErrors ⟨expected, []⟩ :=
  ⟨rfl, by simp [start], rfl⟩

/-- Nothing of the epochs before is left in a counter but the total. -/
theorem countsErrors_reset (c : Counter) (expected : ExpectedErrors) (message : Option String) :
    (c.reset expected.toValue expected.limit? message).CountsErrors ⟨expected, []⟩ :=
  ⟨rfl, by simp [reset], rfl⟩

/-- Every error is counted, whether it is claimed or not. -/
theorem fst_claim (c : Counter) (text : String) :
    (c.claim text).1 = { c.tick with limit := c.limit.map (· - 1) } := by
  unfold claim
  dsimp only [tick]
  split
  · rfl
  · split <;> rfl

theorem CountsErrors.fst_claim (h : c.CountsErrors epoch) (text : String) :
    (c.claim text).1.CountsErrors (epoch.add text) := by
  rw [Counter.fst_claim]
  refine ⟨h.expected, ?_, ?_⟩
  · change c.limit.map (· - 1) = _
    rw [h.limit, Option.map_map]
    congr 1
    funext limit
    simp [Epoch.add, Int.sub_sub]
  · simp [tick, Epoch.add, h.current]

/-- Beyond the limit no error is claimed. -/
theorem snd_claim_of_over {limit : Int} (hlimit : c.limit = some limit) (hover : limit < 1)
    (text : String) : (c.claim text).2 = .ok false := by
  have hbelow : limit - 1 < 0 := by omega
  simp [claim, tick, hlimit, hbelow]

/-- Within the limit a pattern is looked for in the error. -/
theorem snd_claim_of_pattern {pattern : ErrorPattern} (hlimit : c.limit = some 1)
    (hexpected : c.expected = pattern.toValue) (text : String) :
    (c.claim text).2 = meetsError text pattern.toValue := by
  unfold claim
  simp only [tick, hlimit, hexpected]
  cases pattern <;> rfl

/-- An error is claimed if its epoch says so. -/
theorem CountsErrors.snd_claim (h : c.CountsErrors epoch) (text : String) :
    ∃ claimed, (c.claim text).2 = .ok claimed ∧
      (claimed = true ↔ epoch.expected.Claims epoch.events text) := by
  obtain ⟨expected, errors⟩ := epoch
  obtain ⟨hexpected, hlimit, -⟩ := h
  cases expected with
  | any =>
    refine ⟨true, ?_, by simp [ExpectedErrors.Claims]⟩
    unfold claim
    simp only [tick, hlimit, hexpected]
    rfl
  | no =>
    refine ⟨false, ?_, by simp [ExpectedErrors.Claims]⟩
    unfold claim
    simp only [tick, hlimit, hexpected]
    rfl
  | one pattern =>
    cases errors with
    | nil =>
      obtain ⟨meets, hmeets, hadmits⟩ := pattern.meetsError_toValue text
      refine ⟨meets, (snd_claim_of_pattern hlimit hexpected text).trans hmeets, ?_⟩
      simpa [ExpectedErrors.Claims] using hadmits
    | cons first errors =>
      refine ⟨false, snd_claim_of_over hlimit ?_ text, by simp [ExpectedErrors.Claims]⟩
      simp only [List.length_cons]
      omega

/-- An error that a pattern admits is missing as long as the limit has not come down. -/
theorem missingError?_of_pattern {pattern : ErrorPattern} {limit : Int}
    (hlimit : c.limit = some limit) (hexpected : c.expected = pattern.toValue) :
    c.missingError? ≠ none ↔ 0 < limit := by
  unfold Counter.missingError?
  simp only [hlimit, hexpected]
  cases pattern <;> by_cases hleft : 0 < limit <;> simp [ErrorPattern.toValue, hleft]

/-- The final check has something to fail with if what was expected has not happened. -/
theorem CountsErrors.missingError? (h : c.CountsErrors epoch) :
    c.missingError? ≠ none ↔ ¬ epoch.expected.Met epoch.events := by
  obtain ⟨expected, errors⟩ := epoch
  obtain ⟨hexpected, hlimit, hcurrent⟩ := h
  cases expected with
  | any =>
    unfold Counter.missingError?
    simp only [hlimit, hexpected, hcurrent]
    cases errors <;> simp [ExpectedErrors.Met, ExpectedErrors.toValue, ExpectedErrors.limit?]
  | no =>
    unfold Counter.missingError?
    simp only [hexpected]
    simp [ExpectedErrors.Met, ExpectedErrors.toValue]
  | one pattern =>
    rw [missingError?_of_pattern hlimit hexpected]
    cases errors with
    | nil => simp [ExpectedErrors.Met]
    | cons first errors => simp [ExpectedErrors.Met]

end Counter

/-! ## Worlds -/

namespace World

variable {w w' w₀ : World} {epoch : Epoch ExpectedErrors String}
  {current : Option (Epoch ExpectedErrors String)}

/-- A world in which no effect has said what errors to expect. -/
structure ErrorsUnexpected (w : World) : Prop where
  errors : w.session.errors = none
  errorHandlers : w.session.errorHandlers = []
  posts : .checkErrors ∉ w.session.posts

/-- A world in an epoch of errors: there is one handler and one check, with a counter that has the
errors of the epoch. -/
structure ErrorsExpected (w : World) (epoch : Epoch ExpectedErrors String) : Prop where
  errors : ∃ c, w.session.errors = some c ∧ c.CountsErrors epoch
  errorHandlers : w.session.errorHandlers = [.counter]
  posts : .checkErrors ∈ w.session.posts

/-- How a world stands to the errors of its page, by the epoch that is open. -/
def AwaitsErrors (current : Option (Epoch ExpectedErrors String)) (w : World) : Prop :=
  current.elim w.ErrorsUnexpected w.ErrorsExpected

/-- Two worlds that stand to the errors of their page in the same way. -/
structure SameErrors (w w' : World) : Prop where
  errors : w'.session.errors = w.session.errors
  errorHandlers : w'.session.errorHandlers = w.session.errorHandlers
  posts : .checkErrors ∈ w'.session.posts ↔ .checkErrors ∈ w.session.posts

/-- A test starts without expectations of errors. -/
theorem errorsUnexpected_start (environment : Environment) (settings : Settings)
    (registry : Registry) (file : Option String) :
    (start environment (.start settings registry file)).ErrorsUnexpected :=
  ⟨rfl, rfl, List.not_mem_nil⟩

/-- What can happen to the errors of a page: an effect begins an epoch, the page tells an error to the
monitor, which asks the handlers, or something happens elsewhere. -/
inductive ErrorHappens : World → Counted ExpectedErrors String → World → Prop
  | expects {w : World} {e : Effect} {expected : ExpectedErrors} (h : e.ExpectsErrors expected) :
      ErrorHappens w (.expects expected) ((Engine.apply e).exec w).2
  | told {w : World} (text : String) :
      ErrorHappens w (.event text) ((Engine.deliver (.pageError text) .monitor).exec w).2
  | elsewhere {w w' : World} (h : w.SameErrors w') : ErrorHappens w .elsewhere w'

theorem AwaitsErrors.same (h : w.AwaitsErrors current) (hsame : w.SameErrors w') :
    w'.AwaitsErrors current := by
  cases current with
  | none =>
    exact ⟨hsame.errors.trans h.errors, hsame.errorHandlers.trans h.errorHandlers,
      fun hmem => h.posts (hsame.posts.mp hmem)⟩
  | some epoch =>
    exact ⟨hsame.errors.symm ▸ h.errors, hsame.errorHandlers.trans h.errorHandlers,
      hsame.posts.mpr h.posts⟩

/-- An effect begins an epoch without errors. -/
theorem AwaitsErrors.apply {e : Effect} {expected : ExpectedErrors} (h : w.AwaitsErrors current)
    (he : e.ExpectsErrors expected) :
    ((Engine.apply e).exec w).2.ErrorsExpected ⟨expected, []⟩ := by
  obtain ⟨message, rfl⟩ := he.eq_pageErrors
  have happly : ((Engine.apply (.pageErrors expected.toValue expected.limit? message)).exec w).2 =
      ((Engine.expectErrors expected.toValue expected.limit? message).exec w).2 :=
    Engine.snd_exec_return _ _ w
  rw [happly]
  unfold Engine.expectErrors
  rw [Engine.exec_bind, Engine.exec_get]
  cases current with
  | none =>
    simp only [h.errors, Engine.exec_change]
    exact ⟨⟨_, rfl, Counter.countsErrors_start expected message⟩,
      by simp [withSession, h.errorHandlers], by simp [withSession]⟩
  | some epoch =>
    obtain ⟨c, hc, -⟩ := h.errors
    simp only [hc, Engine.exec_change]
    exact ⟨⟨_, rfl, c.countsErrors_reset expected message⟩, h.errorHandlers, h.posts⟩

/-- The counter says whether an error is claimed, and counts it. -/
theorem exec_claim_counter {c : Counter} {text : String} {claimed : Bool}
    (hc : w.session.errors = some c) (hclaimed : (c.claim text).2 = .ok claimed) :
    (Engine.claim text [.counter]).exec w =
      (.ok claimed, w.withSession fun s => { s with errors := some (c.claim text).1 }) := by
  unfold Engine.claim Engine.claimBy
  simp only [Engine.exec_bind, Engine.exec_get, hc, hclaimed, Engine.exec_change,
    Engine.exec_ofExcept]
  cases claimed <;> rfl

/-- To tell the monitor of an error changes no more of the session than to ask the handlers. -/
theorem session_deliver_pageError (text : String) (w : World) :
    ((Engine.deliver (.pageError text) .monitor).exec w).2.session =
      ((Engine.claim text w.session.errorHandlers).exec w).2.session := by
  unfold Engine.deliver Engine.deliverMonitor
  simp only [Engine.exec_bind, Engine.exec_get]
  rcases (Engine.claim text w.session.errorHandlers).exec w with ⟨_ | claimed, w'⟩
  · rfl
  · exact session_tellMonitor w' _

/-- An error that nobody was to expect is not claimed. -/
theorem ErrorsUnexpected.claim (h : w.ErrorsUnexpected) (text : String) :
    (Engine.claim text w.session.errorHandlers).exec w = (.ok false, w) := by
  rw [h.errorHandlers]
  rfl

/-- In an epoch an error is claimed if the epoch says so, and belongs to it from then on. -/
theorem ErrorsExpected.claim (h : w.ErrorsExpected epoch) (text : String) :
    ∃ claimed, ((Engine.claim text w.session.errorHandlers).exec w).1 = .ok claimed ∧
      (claimed = true ↔ epoch.expected.Claims epoch.events text) ∧
      ((Engine.claim text w.session.errorHandlers).exec w).2.ErrorsExpected (epoch.add text) := by
  obtain ⟨c, hc, hcounts⟩ := h.errors
  obtain ⟨claimed, hresult, hclaims⟩ := hcounts.snd_claim text
  rw [h.errorHandlers, exec_claim_counter hc hresult]
  exact ⟨claimed, rfl, hclaims, ⟨_, rfl, hcounts.fst_claim text⟩, h.errorHandlers, h.posts⟩

/-- What happens next makes of a world what the epochs up to then and this one say. -/
theorem AwaitsErrors.step {x : Counted ExpectedErrors String} (h : w.AwaitsErrors current)
    (hx : w.ErrorHappens x w') : w'.AwaitsErrors (Epoch.after? current x) := by
  cases hx with
  | expects he => exact h.apply he
  | elsewhere hsame => exact h.same hsame
  | told text =>
    have hsession := session_deliver_pageError text w
    refine AwaitsErrors.same ?_ ⟨congrArg _ hsession, congrArg _ hsession, by rw [hsession]⟩
    cases current with
    | none =>
      have hnone : w.ErrorsUnexpected := h
      rwa [hnone.claim text]
    | some epoch =>
      obtain ⟨-, -, -, hepoch⟩ := ErrorsExpected.claim h text
      exact hepoch

/-- An error is claimed if there is an epoch that says so. -/
theorem AwaitsErrors.claim (h : w.AwaitsErrors current) (text : String) :
    ∃ claimed, ((Engine.claim text w.session.errorHandlers).exec w).1 = .ok claimed ∧
      (claimed = true ↔
        ∃ epoch, current = some epoch ∧ epoch.expected.Claims epoch.events text) := by
  cases current with
  | none =>
    have hnone : w.ErrorsUnexpected := h
    exact ⟨false, by rw [hnone.claim text], by simp⟩
  | some epoch =>
    obtain ⟨claimed, hresult, hclaims, -⟩ := ErrorsExpected.claim h text
    exact ⟨claimed, hresult, by simpa using hclaims⟩

theorem run_posts_checkErrors {i : Nat} (hi : w.session.posts[i]? = some .checkErrors) :
    (Move.posts i).run w =
      (Move.ofEngine do Move.checkErrors; return .call (.posts (i + 1)) []).run w := by
  simp only [Move.posts, StateT.run_bind, StateT.run_get, pure_bind, hi]

/-- The final check fails if there is an epoch that has not got what it expects. -/
theorem AwaitsErrors.failsCheck (h : w.AwaitsErrors current) :
    w.FailsCheck .checkErrors ↔
      ∃ epoch, current = some epoch ∧ ¬ epoch.expected.Met epoch.events := by
  rw [failsCheck_iff (fun _ => run_posts_checkErrors) (Engine.exec_failWith _ w).1]
  cases current with
  | none => simp [ErrorsUnexpected.posts h]
  | some epoch =>
    obtain ⟨c, hc, hcounts⟩ := ErrorsExpected.errors h
    simp [ErrorsExpected.posts h, hc, ← hcounts.missingError?]

/-! ## Histories -/

variable {past : List (World × Counted ExpectedErrors String)}

/-- A world stands to its errors as the last epoch says. -/
theorem awaitsErrors_of_history (h₀ : w₀.ErrorsUnexpected) (h : History ErrorHappens w₀ past w) :
    w.AwaitsErrors (epochs (past.map Prod.snd)).getLast? :=
  h.standing (p := AwaitsErrors) h₀ AwaitsErrors.step

/-- An error that is claimed is one that its epoch claims. -/
theorem claim_eq_true_iff {before after : List (World × Counted ExpectedErrors String)} {w₁ : World}
    {text : String} (h₀ : w₀.ErrorsUnexpected)
    (h : History ErrorHappens w₀ (before ++ (w₁, .event text) :: after) w) :
    ((Engine.claim text w₁.session.errorHandlers).exec w₁).1 = .ok true ↔
      ∃ epoch, (epochs (before.map Prod.snd)).getLast? = some epoch ∧
        epoch.expected.Claims epoch.events text := by
  obtain ⟨claimed, hresult, hclaims⟩ := (awaitsErrors_of_history h₀ h.before).claim text
  rw [hresult, ← hclaims, Except.ok.injEq]

/-- All errors are claimed if none came before the first effect and each epoch claims its own. -/
theorem forall_claim_iff (h₀ : w₀.ErrorsUnexpected) (h : History ErrorHappens w₀ past w) :
    (∀ before w₁ text after, past = before ++ (w₁, .event text) :: after →
        ((Engine.claim text w₁.session.errorHandlers).exec w₁).1 = .ok true) ↔
      leading (past.map Prod.snd) = [] ∧
      ∀ epoch ∈ epochs (past.map Prod.snd), ∀ earlier text later,
        epoch.events = earlier ++ text :: later → epoch.expected.Claims earlier text := by
  have hepochs := (History.forall_event_map_iff
    (P := fun before text => ∃ epoch, (epochs before).getLast? = some epoch ∧
      epoch.expected.Claims epoch.events text) past).trans
    (forall_events_exists_iff (p := ExpectedErrors.Claims) _)
  rw [← hepochs]
  constructor
  · rintro hclaimed before w₁ text after rfl
    exact (claim_eq_true_iff h₀ h).mp (hclaimed before w₁ text after rfl)
  · rintro hclaims before w₁ text after rfl
    exact (claim_eq_true_iff h₀ h).mpr (hclaims before w₁ text after rfl)

/-- Whatever effects there are and whatever errors the page tells, in whatever order: an error is
claimed if and only if its epoch says so, and no handler raises a fault of its own.  The final check
fails if and only if the last epoch expects an error and has none.  So all errors are claimed and the
check passes if and only if no error came before the first effect, each epoch has only errors that are
claimed, and the last one has got what it expects. -/
theorem page_errors_by_epoch (h₀ : w₀.ErrorsUnexpected) (h : History ErrorHappens w₀ past w) :
    (∀ before w₁ text after, past = before ++ (w₁, .event text) :: after →
      ∃ claimed, ((Engine.claim text w₁.session.errorHandlers).exec w₁).1 = .ok claimed ∧
        (claimed = true ↔ ∃ epoch, (epochs (before.map Prod.snd)).getLast? = some epoch ∧
          epoch.expected.Claims epoch.events text)) ∧
    (w.FailsCheck .checkErrors ↔
      ∃ epoch, (epochs (past.map Prod.snd)).getLast? = some epoch ∧
        ¬ epoch.expected.Met epoch.events) ∧
    ((∀ before w₁ text after, past = before ++ (w₁, .event text) :: after →
        ((Engine.claim text w₁.session.errorHandlers).exec w₁).1 = .ok true) ∧
      ¬ w.FailsCheck .checkErrors ↔
        leading (past.map Prod.snd) = [] ∧
        (∀ epoch ∈ epochs (past.map Prod.snd), ∀ earlier text later,
          epoch.events = earlier ++ text :: later → epoch.expected.Claims earlier text) ∧
        ∀ epoch, (epochs (past.map Prod.snd)).getLast? = some epoch →
          epoch.expected.Met epoch.events) := by
  have hcheck := (awaitsErrors_of_history h₀ h).failsCheck
  refine ⟨?_, hcheck, ?_⟩
  · rintro before w₁ text after rfl
    exact (awaitsErrors_of_history h₀ h.before).claim text
  · rw [forall_claim_iff h₀ h, hcheck, and_assoc]
    simp only [not_exists, not_and, not_not]

/-- An error that is expected once is claimed, also where no error is expected any more later. -/
theorem page_errors_pass_once : ∃ w₀ w past, w₀.ErrorsUnexpected ∧ History ErrorHappens w₀ past w ∧
    past.map Prod.snd = [.expects (.one (.part "boom")), .event "a boom", .expects .no] ∧
    (∀ before w₁ text after, past = before ++ (w₁, .event text) :: after →
      ((Engine.claim text w₁.session.errorHandlers).exec w₁).1 = .ok true) ∧
    ¬ w.FailsCheck .checkErrors := by
  let w₀ : World := start default (.start .standard default none)
  have h₀ : w₀.ErrorsUnexpected := errorsUnexpected_start _ _ _ _
  have h₁ : History ErrorHappens w₀ _ _ := .snoc .nil (.expects (.one (.part "boom") none))
  have h₂ : History ErrorHappens w₀ _ _ := .snoc h₁ (.told "a boom")
  have h₃ : History ErrorHappens w₀ _ _ := .snoc h₂ (.expects (.no none))
  have hclaims : ∀ earlier text later, ["a boom"] = earlier ++ text :: later →
      (ExpectedErrors.one (.part "boom")).Claims earlier text := by
    intro earlier text later hcut
    obtain ⟨rfl, rfl, rfl⟩ : earlier = [] ∧ text = "a boom" ∧ later = [] := by
      cases earlier <;> simp_all
    exact ⟨rfl, "a ".toList, [], by decide⟩
  refine ⟨w₀, _, _, h₀, h₃, rfl, (page_errors_by_epoch h₀ h₃).2.2.mpr ⟨rfl, ?_, ?_⟩⟩
  · intro epoch hepoch
    obtain rfl | rfl : epoch = ⟨.one (.part "boom"), ["a boom"]⟩ ∨ epoch = ⟨.no, []⟩ := by
      simpa [epochs, leading] using hepoch
    · exact hclaims
    · intro earlier text later hcut
      simp at hcut
  · rintro _ ⟨⟩
    trivial

end World

end HotSpec
