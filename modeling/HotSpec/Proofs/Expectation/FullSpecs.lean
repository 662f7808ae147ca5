import HotSpec.Proofs.Engine.Pages
import HotSpec.Proofs.Expectation.Plain

/-!
# The run of a full spec

A full spec without values is run from its reset to its last expectation: the sources are reset to the
files of its first label, the page is loaded, the first label is asserted on it as it is, and each
of the others after its files were written.  The run succeeds if all HTML that was read is what the
spec expects, and fails at the first that is not.

Main definitions:

- `CompiledSpec.filesFor`: the files of a label.
- `CompiledSpec.Wants`: the HTML that a spec expects for a label.
- `TestSetup.Waits`: a test of a full spec that waits for its page.

Main results:

- Theorem `shows_inPage`: the expectations of a full spec on its page.
- Theorem `shows_script`: a full spec up to the reset of its sources.
- Theorems `shows_waits`, `shows_page`: a full spec up to its page, and from there to its end.
- Theorem `full_spec_trace`: all that is seen of the run of a full spec, and how it ends.
-/

namespace HotSpec

open Machine World

theorem Asserted.forget {rows : List (String × Expectation)}
    {reads : List (String × Except Fault String)} {o : Outcome} (h : Asserted rows reads o) :
    Asserted rows reads o.forget := by
  induction h with
  | all => exact .all
  | met hplain _ ih => exact .met hplain ih
  | unmet hplain hread hfault => exact .unmet hplain hread hfault

namespace Machine

variable {w : World} {t : TaskId} {stack : List Frame} {label : String} {e : Expectation}
  {rows : List (String × Expectation)}

/-! ## On the page -/

/-- A script that has come to its end says nothing more. -/
theorem step_resume_ended {name : String} {answer : Value} {p : Processor}
    (hended : w.generators[0]? = some ⟨name, answer, .ended⟩) :
    step ⟨w, some (t, .work (.resume p 0 (.ok .nothing)) stack)⟩ =
      some ⟨w, some (t, .outcome .finished stack)⟩ := by
  have hadvance : w.advance 0 (.ok .nothing) = (.ends (.ok .nothing), w) := by
    unfold World.advance
    rw [hended]
  rw [step_resume, hadvance]
  rfl

/-- After the first label, a script that has come to its end leaves the others to be asserted. -/
theorem shows_opened {v : Value} {name : String} {answer : Value}
    (hended : w.generators[0]? = some ⟨name, answer, .ended⟩) :
    Shows ⟨w, some (t, .outcome (.value v) (.opened none :: stack))⟩ []
      ⟨w, some (t, .work (.drain none false none) (.flushed :: stack))⟩ := by
  have hopened : step ⟨w, some (t, .outcome (.value v) (.opened none :: stack))⟩ =
      some ⟨w, some (t, .work (.resume Move.onPage 0 (.ok .nothing)) (.scriptDone :: stack))⟩ := rfl
  have hresumed : step ⟨w, some (t, .work (.resume Move.onPage 0 (.ok .nothing))
      (.scriptDone :: stack))⟩ = some ⟨w, some (t, .outcome .finished (.scriptDone :: stack))⟩ :=
    step_resume_ended hended
  have hscript : step ⟨w, some (t, .outcome .finished (.scriptDone :: stack))⟩ =
      some ⟨w, some (t, .work (.drain none false none) (.flushed :: stack))⟩ := rfl
  exact (Shows.mute hopened rfl rfl).silently
    ((Shows.mute hresumed rfl rfl).silently (.mute hscript rfl rfl))

/-- Where nothing is to be done after the last label, the page is over. -/
theorem shows_flushed {o : Outcome} (ho : o.isStopped = false) (hposts : w.session.posts = []) :
    Shows ⟨w, some (t, .outcome o (.flushed :: stack))⟩ []
      ⟨w, some (t, .outcome o.forget stack)⟩ := by
  cases o with
  | stopped => cases ho
  | fault fault =>
      have hpass : step ⟨w, some (t, .outcome (.fault fault) (.flushed :: stack))⟩ =
          some ⟨w, some (t, .outcome (.fault fault) stack)⟩ := rfl
      exact .mute hpass rfl rfl
  | value v =>
      have hhooks : step ⟨w, some (t, .outcome (.value v) (.flushed :: stack))⟩ =
          some ⟨w, some (t, .work (.posts 0) stack)⟩ := rfl
      have hnone : w.session.posts[0]? = none := by simp [hposts]
      have hrun : (Move.posts 0).run w = (.done, w) := by
        simp only [Move.posts, StateT.run_bind, StateT.run_get, pure_bind, hnone]
        rfl
      have hend : step ⟨w, some (t, .work (.posts 0) stack)⟩ =
          some ⟨w, some (t, .outcome .finished stack)⟩ := by
        rw [step_work]
        simp only [Work.run, hrun]
        rfl
      exact (Shows.mute hhooks rfl rfl).silently (.mute hend rfl rfl)

/-- The first label is asserted on the page as it is, and each of the others after its files were
written, up to the first that is not met. -/
theorem shows_inPage {name : String} {answer : Value}
    (hpending : w.session.pending = some ((label, e) :: rows))
    (hinit : w.session.initLabel = some label) (hposts : w.session.posts = [])
    (hended : w.generators[0]? = some ⟨name, answer, .ended⟩)
    (hplain : ∀ row ∈ (label, e) :: rows, ∃ html, row.2.plain? = some html)
    (he : w.environment.Quiet)
    (hm : Machine.Sound ⟨w, some (t, .work (.inPage none) stack)⟩) (hl : w.Lone t) :
    ∃ w' read reads o, Shows ⟨w, some (t, .work (.inPage none) stack)⟩
        (.read label read :: writesAndReads (filesOf w) reads) ⟨w', some (t, .outcome o stack)⟩ ∧
      w.Flows w' ∧ Asserted ((label, e) :: rows) ((label, read) :: reads) o ∧
      o.isStopped = false := by
  obtain ⟨html, hhtml⟩ := hplain (label, e) (List.mem_cons_self ..)
  -- The label is the first that is pending.
  let w₁ := w.record .ready
  have hfirst : step ⟨w, some (t, .work (.inPage none) stack)⟩ =
      some ⟨w₁, some (t, .work (.drain (some label) true none) (.opened none :: stack))⟩ := by
    have hensure : w.session.ensureFirst label = (w.session, .ok ()) := by
      simp [Session.ensureFirst, hpending]
    have hrun : (Move.inPage none).run w =
        (.call (.drain (some label) true none) [.opened none], w₁) := by
      have hready : (w.record .ready).session = w.session := rfl
      simp only [Move.inPage, StateT.run_bind, StateT.run_modify, StateT.run_get, pure_bind, hready, hinit,
        hensure]
      rfl
    rw [step_work]
    simp only [Work.run, hrun]
    rfl
  have hdrain := step_drain w₁ t (.opened none :: stack) (some label) true none
  have hpop : w₁.session.pop? = some ((label, e), { w.session with pending := some rows }) := by
    simp [Session.pop?, w₁, World.record, hpending]
  rw [hpop] at hdrain
  simp only [if_true] at hdrain
  let w₂ : World := { w₁ with
    session := { w.session with pending := some rows }, history := .popped label :: w₁.history }
  have hflows₂ : w.Flows w₂ := flows_pop hl
  obtain ⟨o, hverify, hmet⟩ := shows_verify w₂ t label
    (.asserted (some label) true label :: .opened none :: stack) hhtml
  let w₃ := w₂.record (.asserting label)
  have hflows₃ : w.Flows w₃ := hflows₂.trans ((hflows₂.lone hl).aside w.site _).flows
  have hshows₃ := ((Shows.silent [.ready] hfirst rfl rfl (by simp [Event.sight?])).silently
    (.silent [.popped label] hdrain rfl rfl (by simp [Event.sight?]))).silently hverify
  rcases hmet with ⟨hmet, rfl⟩ | ⟨hunmet, fault, rfl, hkind⟩
  · -- The script has nothing more to say, and so the others are next.
    have hasserted := step_asserted w₃ t (.opened none :: stack) (some label) true label
      .nothing
    simp only [if_true] at hasserted
    let w₄ := w₃.record (.asserted label false)
    have hflows₄ : w.Flows w₄ := hflows₃.trans ((hflows₃.lone hl).aside w.site _).flows
    have hshows₄ := hshows₃.then_silently
      ((Shows.silent [.asserted label false] hasserted rfl rfl (by simp [Event.sight?])).silently
        (shows_opened hended))
    obtain ⟨w₅, reads, o, hdrained, hflows₅, hasserted⟩ := shows_drain (w := w₄) rfl
      (fun row hrow => hplain row (List.mem_cons_of_mem _ hrow)) he (hshows₄.sound hm)
      (hflows₄.lone hl)
    have hflows := hflows₄.trans hflows₅
    obtain ⟨pending, hd⟩ := hflows.drifts
    have hflushed : Shows ⟨w₅, some (t, .outcome o (.flushed :: stack))⟩ []
        ⟨w₅, some (t, .outcome o.forget stack)⟩ :=
      shows_flushed hasserted.isStopped (by rw [hd.session]; exact hposts)
    have hshows := (hshows₄.trans hdrained).then_silently hflushed
    rw [hmet, filesOf_flows hflows₄] at hshows
    exact ⟨w₅, .ok html, reads, o.forget, hshows, hflows, .met hhtml hasserted.forget,
      hasserted.forget.isStopped⟩
  · have hasserted : step ⟨w₃, some (t, .outcome (.fault fault)
        (.asserted (some label) true label :: .opened none :: stack))⟩ =
          some ⟨w₃.record (.asserted label true),
            some (t, .outcome (.fault fault) (.opened none :: stack))⟩ := rfl
    have hopened : step ⟨w₃.record (.asserted label true),
        some (t, .outcome (.fault fault) (.opened none :: stack))⟩ =
          some ⟨w₃.record (.asserted label true), some (t, .outcome (.fault fault) stack)⟩ := rfl
    have hshows := hshows₃.then_silently
      ((Shows.silent [.asserted label true] hasserted rfl rfl (by simp [Event.sight?])).silently
        (.mute hopened rfl rfl))
    exact ⟨_, _, [], .fault fault, hshows, hflows₃.trans ((hflows₃.lone hl).aside w.site _).flows,
      .unmet hhtml hunmet hkind, rfl⟩

/-! ## Before the page -/

/-- A command of a list is resolved in the first phase, and the list goes on with the value. -/
theorem shows_command {c : Command} {rest : List Command} {name : String} {answer v v' : Value}
    {w' : World} {phases : Phases} (new : List Event)
    (hgenerators : w.generators = [⟨name, answer, .commands (c :: rest)⟩])
    (hregistry : w.session.registry.get c.type = .ok phases) (hphases : phases.init = true)
    (hhandle : (Move.handle .prepare c).run { w with
      generators := [⟨name, answer, .commands rest⟩]
      history := .yielded 0 (.command c) :: w.history } = (.give (.value v'), w'))
    (hhistory : w'.history = new ++ .yielded 0 (.command c) :: w.history)
    (hnew : ∀ e ∈ new, e.sight? = none) :
    Shows ⟨w, some (t, .work (.resume (.phase .prepare) 0 (.ok v)) stack)⟩ []
      ⟨w', some (t, .work (.resume (.phase .prepare) 0 (.ok v')) stack)⟩ := by
  let w₁ : World := { w with
    generators := [⟨name, answer, .commands rest⟩]
    history := .yielded 0 (.command c) :: w.history }
  have hadvance : w.advance 0 (.ok v) = (.yields (.command c), w₁) := by
    unfold World.advance World.setProgress
    rw [hgenerators]
    rfl
  have hresume : step ⟨w, some (t, .work (.resume (.phase .prepare) 0 (.ok v)) stack)⟩ =
      some ⟨w₁, some (t, .work (.process (.phase .prepare) (.command c))
        (.answer (.phase .prepare) 0 :: stack))⟩ := by
    rw [step_resume, hadvance]
    rfl
  have hprocess : step ⟨w₁, some (t, .work (.process (.phase .prepare) (.command c))
      (.answer (.phase .prepare) 0 :: stack))⟩ =
        some ⟨w', some (t, .outcome (.value v') (.answer (.phase .prepare) 0 :: stack))⟩ := by
    have hrun : (Move.process (.phase .prepare) (.command c)).run w₁ = (.give (.value v'), w') := by
      have hsession : w₁.session = w.session := rfl
      simp only [Move.process, Yielded.toCommand, Move.resolve, StateT.run_bind, StateT.run_get, pure_bind,
        hsession, hregistry]
      simp only [Phases.has, hphases, if_true]
      exact hhandle
    rw [step_work]
    simp only [Work.run, hrun]
    rfl
  have hanswer : step ⟨w', some (t, .outcome (.value v') (.answer (.phase .prepare) 0 :: stack))⟩ =
      some ⟨w', some (t, .work (.resume (.phase .prepare) 0 (.ok v')) stack)⟩ := rfl
  exact (Shows.silent [_] hresume rfl rfl (by simp [Event.sight?])).silently
    ((Shows.silent new hprocess hhistory rfl hnew).silently (.mute hanswer rfl rfl))

end Machine

/-- The files of a label in a spec: its own contents, or else those for any label. -/
def CompiledSpec.filesFor (spec : CompiledSpec) (label : String) : Table Value :=
  spec.files.filterMap fun (path, variants) =>
    (Session.contentFor? variants label).map fun content => (path, .text content)

namespace CompiledSpec

theorem nodup_filesFor {spec : CompiledSpec} (h : spec.files.keys.Nodup) (label : String) :
    (spec.filesFor label).keys.Nodup := by
  refine h.sublist ?_
  unfold filesFor Table.keys
  induction spec.files with
  | nil => exact .slnil
  | cons row rows ih =>
      obtain ⟨path, variants⟩ := row
      rw [List.filterMap_cons]
      cases hcontent : Session.contentFor? variants label with
      | none =>
          simp only [hcontent, Option.map_none]
          exact ih.cons _
      | some content =>
          simp only [hcontent, Option.map_some]
          exact ih.cons_cons _

/-- The files of a label are those that the spec has for it. -/
theorem map_variantFiles {spec : CompiledSpec} {s : Session} (h : s.specs = spec.files)
    (label : String) : ((s.variantFiles label).map fun (path, text) => (path, Value.text text)) =
      spec.filesFor label := by
  unfold Session.variantFiles filesFor
  rw [h, List.map_filterMap]
  congr
  funext row
  rw [Option.map_map]
  rfl

/-- Whether HTML that was read for a label is what a spec expects of it. -/
def Wants (spec : CompiledSpec) (label : String) (read : Except Fault String) : Prop :=
  ∃ e html, spec.expects.get? label = some e ∧ e.plain? = some html ∧ read = .ok html

/-- Expectations of a spec are met if all HTML that was read is what the spec expects. -/
theorem value_iff {spec : CompiledSpec} {rows : List (String × Expectation)}
    {reads : List (String × Except Fault String)} {o : Outcome} (h : Asserted rows reads o)
    (hrows : ∀ row ∈ rows, spec.expects.get? row.1 = some row.2) :
    (∃ v, o = .value v) ↔ ∀ read ∈ reads, spec.Wants read.1 read.2 := by
  induction h with
  | @all v => simp
  | @met label html e rows reads o hplain _ ih =>
      have hfirst : spec.Wants label (.ok html) :=
        ⟨e, html, hrows (label, e) (List.mem_cons_self ..), hplain, rfl⟩
      rw [ih fun row hrow => hrows row (List.mem_cons_of_mem _ hrow), List.forall_mem_cons]
      exact (and_iff_right hfirst).symm
  | @unmet label html e rows read fault hplain hread _ =>
      refine ⟨fun ⟨v, hv⟩ => (nomatch hv), fun hall => ?_⟩
      obtain ⟨e', html', he', hplain', hread'⟩ := hall (label, read) (List.mem_singleton.mpr rfl)
      rw [hrows (label, e) (List.mem_cons_self ..)] at he'
      cases he'
      rw [hplain] at hplain'
      cases hplain'
      exact absurd hread' hread

end CompiledSpec

namespace TestSetup

/-- A test of a full spec as its sources are reset to the files of the first label. -/
def prepared (setup : TestSetup) (spec : CompiledSpec) (label : String) : World where
  scheduler := ⟨0, [⟨.task 0, none, []⟩, ⟨.signal, none, []⟩, ⟨.signal, none, []⟩],
    [⟨[], 0, none, false⟩], [], [], []⟩
  environment := setup.environment
  site := setup.environment.site
  session := { setup.session with
    specs := spec.files, expects := spec.expects, initLabel := some label
    inits := spec.filesFor label, started := true }
  processor := Move.onPage
  monitor := .start
  verdict := some 1
  failSignal := some 2
  generators := [⟨"spec", .nothing, .ended⟩]
  waits := []
  history := []

variable {setup : TestSetup} {spec : CompiledSpec} {label : String} {e : Expectation}
  {rows : List (String × Expectation)}

/-- The script of a full spec registers the spec and takes its first label as the initial one. -/
theorem shows_script (setup : TestSetup) (hfiles : spec.files.keys.Nodup) (hkeys : spec.expects.keys.Nodup)
    (hrows : spec.expects = (label, e) :: rows) :
    ∃ history, Shows
      (setup.machine ⟨"spec", .nothing, .commands (specCommands spec)⟩) [.reset (spec.filesFor label)]
      ⟨{ setup.prepared spec label with history },
        some (0, .work (.deeds (setup.environment.resetDeeds (spec.filesFor label)))
          [.during .reset (spec.filesFor label).keys, .reset none, .forget])⟩ := by
  let s₁ : Session := { setup.session with specs := spec.files, expects := spec.expects }
  let s₂ : Session := { s₁ with initLabel := some label, inits := spec.filesFor label }
  let scheduler : Scheduler (List Frame) Job :=
    ⟨0, [⟨.task 0, none, []⟩], [⟨[], 0, none, false⟩], [], [], []⟩
  let world (session : Session) (progress : Progress) (history : List Event) : World :=
    { setup.world with scheduler, session, history, generators := [⟨"spec", .nothing, progress⟩] }
  have hcommands : specCommands spec = [.setSpec spec, .init (.label label)] := by
    simp [specCommands, hrows, Table.keys]
  rw [hcommands]
  have hget (c : Command) (hc : c.type = "$$set_spec" ∨ c.type = "init") :
      setup.session.registry.get c.type = .ok ⟨true, false⟩ := by
    rcases hc with hc | hc <;> rw [hc] <;> rfl
  -- The spec is registered.
  let w₀ := world setup.session (.commands [.setSpec spec, .init (.label label)]) []
  have hscript : step ⟨w₀, some (0, .work .script [])⟩ = some ⟨w₀, some (0,
      .work (.resume (.phase .prepare) 0 (.ok .nothing)) [.prepared])⟩ := rfl
  have hinstall : setup.session.install spec = s₁ := Session.install_first rfl rfl hfiles hkeys
  let history₁ : List Event :=
    [.handled .prepare (.setSpec spec), .yielded 0 (.command (.setSpec spec))]
  let w₁ := world s₁ (.commands [.init (.label label)]) history₁
  have hset : Shows
      ⟨w₀, some (0, .work (.resume (.phase .prepare) 0 (.ok .nothing)) [.prepared])⟩ []
      ⟨w₁, some (0, .work (.resume (.phase .prepare) 0 (.ok .nothing)) [.prepared])⟩ := by
    refine shows_command [.handled .prepare (.setSpec spec)] rfl (hget _ (.inl rfl)) rfl ?_ rfl
      (by simp [Event.sight?])
    change _ = (_, world s₁ _ _)
    rw [← hinstall]
    rfl
  -- Its first label is the initial one.
  let history₂ : List Event :=
    .handled .prepare (.init (.label label)) :: .yielded 0 (.command (.init (.label label))) :: history₁
  let w₂ := world s₂ (.commands []) history₂
  have hinit : Shows
      ⟨w₁, some (0, .work (.resume (.phase .prepare) 0 (.ok .nothing)) [.prepared])⟩ []
      ⟨w₂, some (0, .work (.resume (.phase .prepare) 0 (.ok .nothing)) [.prepared])⟩ := by
    refine shows_command [.handled .prepare (.init (.label label))] rfl (hget _ (.inr rfl)) rfl ?_ rfl
      (by simp [Event.sight?])
    change _ = (_, world { s₁ with initLabel := some label, inits := spec.filesFor label } _ _)
    have hmerge : s₁.inits.merge ((s₁.variantFiles label).map fun (path, text) =>
        (path, Value.text text)) = spec.filesFor label := by
      rw [CompiledSpec.map_variantFiles rfl]
      exact Table.merge_of_nodup (t := []) (CompiledSpec.nodup_filesFor hfiles label)
    rw [← hmerge]
    rfl
  -- The script is over, and the test starts as it expects something.
  let w₃ := world s₂ .ended history₂
  have hend : step ⟨w₂, some (0, .work (.resume (.phase .prepare) 0 (.ok .nothing)) [.prepared])⟩ =
      some ⟨w₃, some (0, .outcome .finished [.prepared])⟩ := rfl
  have hstart : step ⟨w₃, some (0, .outcome .finished [.prepared])⟩ =
      some ⟨w₃, some (0, .work (.start none) [.forget])⟩ := by
    have hexpects : (!w₃.session.started && !w₃.session.expects.isEmpty) = true := by
      change (!false && !spec.expects.isEmpty) = true
      rw [hrows]
      rfl
    have hrun : (Move.prepared .finished).run w₃ = (.call (.start none) [.forget], w₃) := by
      simp only [Move.prepared, Move.onValue, Outcome.finished, StateT.run_bind, StateT.run_get,
        pure_bind, hexpects, if_true]
      rfl
    rw [step_outcome]
    simp only [Frame.take, hrun]
    rfl
  have hreset : step ⟨w₃, some (0, .work (.start none) [.forget])⟩ =
      some ⟨{ setup.prepared spec label with history := .log (.reset (spec.filesFor label)) :: history₂ },
        some (0, .work (.deeds (setup.environment.resetDeeds (spec.filesFor label)))
          [.during .reset (spec.filesFor label).keys, .reset none, .forget])⟩ := rfl
  refine ⟨.log (.reset (spec.filesFor label)) :: history₂, ?_⟩
  have hshows := (Shows.mute hscript rfl rfl).silently (hset.silently (hinit.silently
    ((Shows.mute hend rfl rfl).silently ((Shows.mute hstart rfl rfl).silently
      (.single [.log (.reset (spec.filesFor label))] hreset rfl)))))
  exact hshows

/-- A test of a full spec that waits for the task that loads its page. -/
structure Waits (setup : TestSetup) (spec : CompiledSpec) (label : String) (w : World) (u : TaskId)
    (g e : FutureId) : Prop where
  hosts : w.Hosts 0 u ⟨[.joined [e, 1, 2] false, .raced, .forget], 0, some g, false⟩ g e 1 2
  opened : w.Open g 1 2
  drifts : ({ setup.prepared spec label with
    session := (setup.prepared spec label).session.openQueue } : World).Drifts w

/-- A full spec waits for its page as soon as the sources were reset. -/
theorem shows_waits (he : setup.environment.Quiet) (hfiles : spec.files.keys.Nodup)
    (hkeys : spec.expects.keys.Nodup) (hrows : spec.expects = (label, e) :: rows) :
    ∃ w u g f, Shows (setup.machine ⟨"spec", .nothing, .commands (specCommands spec)⟩)
        [.reset (spec.filesFor label)] ⟨w, some (u, .work (.load none) [])⟩ ∧
      setup.Waits spec label w u g f := by
  have hm := sound_machine setup ⟨"spec", .nothing, .commands (specCommands spec)⟩
  obtain ⟨history, hscript⟩ := shows_script setup hfiles hkeys hrows
  let w₁ : World := { setup.prepared spec label with history }
  have hl₁ : w₁.Lone 0 := ⟨⟨0, rfl⟩, by simp [w₁, prepared, Scheduler.handles], rfl⟩
  obtain ⟨w₂, hdeeds, hpasses⟩ := shows_deeds (he.reset _) (hscript.sound hm) hl₁
  have hduring : step ⟨w₂, some (0, .outcome .finished
      [.during .reset (spec.filesFor label).keys, .reset none, .forget])⟩ =
        some ⟨w₂, some (0, .outcome .finished [.reset none, .forget])⟩ := rfl
  have hreset := (hscript.then_silently hdeeds).then_silently (.mute hduring rfl rfl)
  -- None of the futures of the test was touched by the reset.
  have hlasts := hpasses.scheduler.lasts
  have hopen (m : FutureId) (hmem : m ∈ [1, 2]) : m < w₂.scheduler.futures.length ∧
      w₂.scheduler.outcome? m = none ∧ w₂.scheduler.watchers m = [] := by
    have hlt : m < 3 := by
      simp only [List.mem_cons, List.not_mem_nil, or_false] at hmem
      rcases hmem with rfl | rfl <;> decide
    rw [hlasts.outcome? hlt, hlasts.watchers hlt]
    refine ⟨Nat.lt_of_lt_of_le hlt hpasses.scheduler.length, ?_⟩
    rcases List.mem_cons.mp hmem with rfl | hmem
    · exact ⟨rfl, rfl⟩
    · rw [List.mem_singleton.mp hmem]
      exact ⟨rfl, rfl⟩
  have hroot : w₂.scheduler.ending? 0 = some 0 := by
    unfold Scheduler.ending? Scheduler.task?
    rw [hpasses.scheduler.tasks]
    rfl
  have hrunning : w₂.scheduler.outcome? 0 = none := hlasts.outcome? (f := 0) (Nat.zero_lt_succ 2)
  obtain ⟨w₃, u, g, f, hwaits, hhosts, hverdict, hfail, hdrifts⟩ :=
    shows_afterReset (r := 0) (hreset.sound hm) (hpasses.lone hl₁) hpasses.verdict
      hpasses.failSignal (by decide) hopen hroot (by decide) hrunning
  have hmonitor : w₃.monitor = .start := hdrifts.monitor.trans hpasses.monitor
  refine ⟨w₃, u, g, f, hreset.then_silently hwaits, hhosts,
    ⟨hverdict, hfail, by rw [hmonitor]; rfl, by rw [hmonitor]; rfl, by rw [hmonitor]; rfl⟩,
    ⟨hdrifts.session.trans (congrArg Session.openQueue hpasses.session),
      hdrifts.environment.trans hpasses.environment, hmonitor, hdrifts.verdict.trans hpasses.verdict,
      hdrifts.failSignal.trans hpasses.failSignal, hdrifts.generators.trans hpasses.generators⟩⟩

/-- The page of a full spec: it is loaded, all that the spec expects is asserted on it, and its end is
the end of the test. -/
theorem shows_page {w : World} {u : TaskId} {g f : FutureId} (h : setup.Waits spec label w u g f)
    (he : setup.environment.Quiet) (hrows : spec.expects = (label, e) :: rows)
    (hplain : ∀ row ∈ spec.expects, ∃ html, row.2.plain? = some html)
    (hm : Machine.Sound ⟨w, some (u, .work (.load none) [])⟩) :
    ∃ w' read reads o, Shows ⟨w, some (u, .work (.load none) [])⟩
        (.loadPage setup.settings.pageUrl :: .read label read ::
          writesAndReads spec.filesFor reads) ⟨w', some (0, .outcome o [.forget])⟩ ∧
      Asserted spec.expects ((label, read) :: reads) o ∧ w'.scheduler.ending? 0 = some 0 ∧
      w'.scheduler.outcome? 0 = none := by
  have hsession := h.drifts.session
  have henvironment : w.environment = setup.environment := h.drifts.environment
  have hmonitor : w.monitor = .start := h.drifts.monitor
  obtain ⟨w₁, closed, hload, hclosed, hpasses⟩ := shows_load (henvironment ▸ he) hm h.hosts.lone
    (by rw [hmonitor]; rfl) (by rw [hsession]; rfl)
  have hurl : w.session.settings.pageUrl = setup.settings.pageUrl := by
    rw [hsession]
    rfl
  rw [hurl] at hload
  -- The monitor listens to the page, and has heard nothing so far.
  let w' : World := { w with monitor := { w.monitor with attached := true } }
  have hhosts : w'.Hosts 0 u _ g f 1 2 :=
    ⟨⟨h.hosts.lone.task, h.hosts.lone.idle, h.hosts.lone.loads⟩, h.hosts.verdict,
      h.hosts.failSignal, h.hosts.awaits, h.hosts.root, h.hosts.other, h.hosts.ending,
      h.hosts.loading⟩
  have hopen : w'.Open g 1 2 :=
    ⟨h.opened.verdict, h.opened.failSignal, h.opened.rejected, h.opened.buffering,
      h.opened.undecided⟩
  have hhosts₁ := hhosts.flows hpasses.flows
  have hsession₁ := hpasses.session.trans hsession
  have hpending : w₁.session.pending = some ((label, e) :: rows) := by
    rw [hsession₁, ← hrows]
    rfl
  have hinit : w₁.session.initLabel = some label := by
    rw [hsession₁]
    rfl
  have hposts : w₁.session.posts = [] := by
    rw [hsession₁]
    rfl
  have hended : w₁.generators[0]? = some ⟨"spec", .nothing, .ended⟩ := by
    rw [hpasses.generators.trans h.drifts.generators]
    rfl
  obtain ⟨w₂, read, reads, o, hinPage, hflows, hasserted, hstopped⟩ :=
    shows_inPage hpending hinit hposts hended (hrows ▸ hplain)
      ((hpasses.environment.trans henvironment) ▸ he) (hload.sound hm) hhosts₁.lone
  have hfilesOf : filesOf w₁ = spec.filesFor := by
    funext l
    exact CompiledSpec.map_variantFiles (by rw [hsession₁]; rfl) l
  rw [hfilesOf] at hinPage
  have hrun := hload.trans hinPage
  obtain ⟨w₃, hdone, hending, hrunning⟩ := shows_pageDone hstopped hclosed (hrun.sound hm)
    (hhosts₁.flows hflows) ((hopen.flows hpasses.flows).flows hflows)
  rw [← hrows] at hasserted
  exact ⟨w₃, read, reads, o.forget, hrun.then_silently hdone, hasserted.forget, hending, hrunning⟩

/-- The run of a full spec without values in a quiet environment: the sources are reset to the files of
its first label, the page is loaded, the first label is asserted on it as it is, and each of the others
after its files were written, up to the first that is not met.  The run succeeds if all HTML that was
read is what the spec expects. -/
theorem full_spec_trace {v made : Value} {source : Spec.Source} (he : setup.environment.Quiet)
    (hmade : v.made = .ok made) (hsource : Spec.Source.of made = .ok source)
    (hfree : source.values = []) (hcompile : Spec.compile source true setup.file = .ok spec) :
    ∃ g n w o label read reads, setup.generatorOf (.spec v) = .ok g ∧
      Machine.runTask 0 n (setup.machine g) = .done o w ∧
      Shows (setup.machine g) (.reset (spec.filesFor label) :: .loadPage setup.settings.pageUrl ::
        .read label read :: writesAndReads spec.filesFor reads) ⟨w, none⟩ ∧
      Asserted spec.expects ((label, read) :: reads) o ∧
      ((∃ v, o = .value v) ↔ ∀ row ∈ (label, read) :: reads, spec.Wants row.1 row.2) := by
  obtain ⟨hfiles, hkeys, hplain, hfull⟩ := Spec.plain_compile hfree hcompile
  obtain ⟨⟨label, e⟩, rows, hrows⟩ := List.exists_cons_of_ne_nil (hfull rfl)
  let g : Generator := ⟨"spec", .nothing, .commands (specCommands spec)⟩
  have hgenerator : setup.generatorOf (.spec v) = .ok g := by
    simp only [generatorOf, hmade, Spec.compileValue, bind, Except.bind, hsource, hcompile]
    rfl
  have hm := sound_machine setup g
  obtain ⟨w₁, u, group, f, hshows₁, hwaits⟩ := shows_waits he hfiles hkeys hrows
  obtain ⟨w₂, read, reads, o, hshows₂, hasserted, hending, hrunning⟩ :=
    shows_page hwaits he hrows hplain (hshows₁.sound hm)
  -- The end of the wait is the end of the run.
  have hforget : step ⟨w₂, some (0, .outcome o [.forget])⟩ =
      some ⟨w₂, some (0, .outcome o.forget [])⟩ := by
    cases o <;> rfl
  have hshows := hshows₁.trans hshows₂
  have hall := hshows.then_silently (.mute hforget rfl rfl)
  have hfinish := step_finish w₂ 0 o.forget
  have hend : (w₂.withScheduler (·.finish 0 o.forget)).scheduler.outcome? 0 = some o.forget := by
    have hlt := Scheduler.lt_of_kind (f := 0) (s := w₂.scheduler) (by
      rw [((hshows.sound hm).threads.ending 0 0).mp hending]
      simp)
    exact (Scheduler.outcome?_finish hending o.forget hlt 0).trans (if_pos ⟨rfl, hrunning⟩)
  obtain ⟨n, hn⟩ := Shows.runTask hall hm hrunning hfinish hend
  have hseen := hall.then_silently (.mute hfinish rfl rfl)
  refine ⟨g, n, _, o.forget, label, read, reads, hgenerator, hn, ?_, hasserted.forget, ?_⟩
  · simpa using hseen
  · exact CompiledSpec.value_iff hasserted.forget fun row hrow => Table.get?_of_mem hkeys hrow

/-- A full spec of a page that counts. -/
def countingSpec : String :=
  "# counts up\n---- App.svelte ----\n<h1>\n  ::0 zero\n  ::1 one\n</h1>\n****\n" ++
    "::0 <h1>zero</h1>\n::1 <h1>one</h1>\n"

/-- The page that never changes does not count: what is seen of the run of the spec on it. -/
theorem full_spec_trace_counting : ∃ spec,
    Spec.compile ⟨countingSpec.toList, []⟩ true none = .ok spec ∧ spec.expects.keys = ["0", "1"] ∧
    ∃ g n w o label read reads, plain.generatorOf (.spec (.text countingSpec)) = .ok g ∧
      Machine.runTask 0 n (plain.machine g) = .done o w ∧
      Shows (plain.machine g) (.reset (spec.filesFor label) :: .loadPage "/" ::
        .read label read :: writesAndReads spec.filesFor reads) ⟨w, none⟩ ∧
      Asserted spec.expects ((label, read) :: reads) o ∧
      ((∃ v, o = .value v) ↔ ∀ row ∈ (label, read) :: reads, spec.Wants row.1 row.2) := by
  have hquiet : plain.environment.Quiet :=
    DevServer.quiet_environment rfl (by simp) rfl rfl (by simp) rfl (by simp) rfl
  have hlabels : (match Spec.compile ⟨countingSpec.toList, []⟩ true none with
      | .ok spec => spec.expects.keys == ["0", "1"]
      | .error _ => false) = true := by
    decide +kernel
  cases hcompile : Spec.compile ⟨countingSpec.toList, []⟩ true none with
  | error fault =>
      rw [hcompile] at hlabels
      cases hlabels
  | ok spec =>
      rw [hcompile] at hlabels
      exact ⟨spec, rfl, beq_iff_eq.mp hlabels, full_spec_trace hquiet
        (show (Value.text countingSpec).made = .ok _ from rfl) rfl rfl hcompile⟩

end TestSetup

end HotSpec
