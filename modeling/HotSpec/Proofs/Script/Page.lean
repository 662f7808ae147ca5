import HotSpec.Proofs.Script.Coming

/-!
# The talk on the page

The task that loads the page resolves the command that has asked for it, answers the script, and goes on
with what that says, until the script is over.  What the environment and the hooks do meanwhile is said
to nobody.

Main definitions:

- `Seat`: the frames that take the outcome of what the script has said on the page.
- `Machine.Paged`: where the task that loads the page stands, for a given state of the talk.

Main results:

- Theorem `Paged.moves_self`: every step of that task goes on with the talk.
-/

namespace HotSpec

variable {r : Registry} {talk : Talk} {m m' : Machine}

/-! ## Frames -/

/-- The frames that take the outcome of what the script has said on the page. -/
inductive Seat : List Frame → Prop
  | first : Seat [.firstDone]
  | next : Seat [.answer Move.onPage scriptNumber, .scriptDone]

theorem Seat.answers {seat : List Frame} (h : Seat seat) :
    ∃ f rest, seat = f :: rest ∧ f.answers = true ∧ ∀ work, f ≠ .begin work := by
  cases h with
  | first => exact ⟨_, _, rfl, rfl, by simp⟩
  | next => exact ⟨_, _, rfl, rfl, by simp⟩

/-- What a command calls leaves the script alone. -/
theorem Commands.leaves {phase : Phase} {c : Command} {frames : List Frame}
    (h : Commands phase c frames) : Foreign frames := by
  refine ⟨h.foreign, ?_⟩
  cases h <;> simp [Frame.isProcess]

/-! ## Machines -/

/-- Where the task that loads the page stands. -/
inductive Machine.Paged (r : Registry) (m : Machine) : Talk → Prop
  | coming {first : Option Command} {rest : List Frame} {talk : Talk} (h : m.Coming first)
      (hs : Starting r first rest talk) : m.Paged r talk
  | asked {phase : Phase} {y y' : Yielded} {seat below : List Frame}
      (h : m.current = some (1, .work (.process Move.onPage y') (seat ++ below))) (hseat : Seat seat)
      (hbelow : Closing below) (hy : r.resolve phase y = r.resolve .run y') :
      m.Paged r (.asked phase y)
  | refused {phase : Phase} {y : Yielded} {cause : UsageCause} {seat below : List Frame}
      (h : m.current = some (1, .outcome (.fault (.usage cause)) (seat ++ below))) (hseat : Seat seat)
      (hbelow : Closing below) (hy : r.resolve phase y = (.run, .error (.usage cause))) :
      m.Paged r (.asked phase y)
  | busy {above seat below : List Frame} (h : m.frames 1 = some (above ++ (seat ++ below)))
      (habove : Foreign above) (hseat : Seat seat) (hbelow : Closing below) : m.Paged r (.busy .run)
  | due {reply : Reply} {below : List Frame} (h : m.current =
      some (1, .work (.resume Move.onPage scriptNumber reply) (.scriptDone :: below)))
      (hbelow : Closing below) : m.Paged r (.due .run reply)
  /-- A script that was over before the page was loaded is resumed once more. -/
  | again {v : Value} {below : List Frame} (h : m.current =
      some (1, .work (.resume Move.onPage scriptNumber (.ok .nothing)) (.scriptDone :: below)))
      (hbelow : Closing below) : m.Paged r (.gone (.ok v))
  | gone {reply reply' : Reply} {below : List Frame}
      (h : m.current = some (1, .outcome (.ofReply reply') (.scriptDone :: below)))
      (hbelow : Closing below) (hreply : ∀ fault, reply = .error fault → reply' = .error fault) :
      m.Paged r (.gone reply)
  /-- The script has failed. -/
  | failing {fault : Fault} {below : List Frame} {load : FutureId}
      (h : m.current = some (1, .outcome (.fault fault) below)) (hbelow : Closing below)
      (hload : m.world.scheduler.kind load = .task 1)
      (hopen : m.world.scheduler.outcome? load = none) : m.Paged r (.gone (.error fault))
  /-- What is left of the test is done without the script. -/
  | closing {v : Value} {fs : List Frame} (h : m.frames 1 = some fs) (hfs : Foreign fs) :
      m.Paged r (.gone (.ok v))
  | failed {fault : Fault} {load : FutureId} (h : m.frames 1 = some [])
      (hload : m.world.scheduler.kind load = .task 1)
      (houtcome : m.world.scheduler.outcome? load = some (.fault fault)) :
      m.Paged r (.gone (.error fault))

namespace Machine

variable {t : TaskId} {head : Head} {stack : List Frame} {turn : Turn} {new : List (List Frame)}
  {w' : World} {load : FutureId}

/-- A step that leaves all frames leaves the task that loads the page where it is. -/
theorem Paged.rests (h : m.Paged r talk) (hrests : m.Rests m')
    (hunstopped : ∀ o fs, m'.current = some (1, .outcome o fs) → o ≠ .stopped) :
    m'.Paged r talk := by
  cases h with
  | coming h hs => exact .coming (h.rests hrests hunstopped) hs
  | busy hfs habove hseat hbelow =>
      exact .busy ((hrests.frames 1).trans hfs) habove hseat hbelow
  | closing hfs hforeign => exact .closing ((hrests.frames 1).trans hfs) hforeign
  | failed hfs hload houtcome =>
      exact .failed ((hrests.frames 1).trans hfs) (hrests.grows.task hload)
        (hrests.grows.settled _ _ houtcome)
  | @failing fault below load hcurrent hbelow hload hopen =>
      cases below with
      | nil =>
          exact .failed ((hrests.frames 1).trans (frames_current hcurrent)) (hrests.grows.task hload)
            (hrests.finished load 1 _ hload hopen hcurrent)
      | cons f below => exact absurd hcurrent hrests.not_frame
  | asked hcurrent | due hcurrent | again hcurrent | gone hcurrent =>
      exact absurd hcurrent (hrests.not_current (by simp [Control.frames]))
  | refused hcurrent hseat =>
      obtain ⟨f, rest, rfl, -⟩ := hseat.answers
      exact absurd hcurrent (hrests.not_current (by simp [Control.frames]))

/-- A task other than the one that loads the page leaves that where it is. -/
theorem Paged.moves_other (h : m.Paged r talk) (hm : m.Sound) (hloads : m.Loads load)
    (hmoves : m.Moves t head stack turn new w' m') (ht : t ≠ 1) : m'.Paged r talk := by
  have hframes : m'.frames 1 = m.frames 1 := by
    rw [hmoves.frames, if_neg (Ne.symm ht), if_pos]
    exact (hm.threads_current hmoves.current).lt_of_ending hloads.kind
  cases h with
  | coming h hs => exact .coming (h.moves_other hloads hmoves ht hframes) hs
  | busy hfs habove hseat hbelow => exact .busy (hframes.trans hfs) habove hseat hbelow
  | closing hfs hforeign => exact .closing (hframes.trans hfs) hforeign
  | failed hfs hload houtcome =>
      exact .failed (hframes.trans hfs) (hmoves.grows.task hload)
        (hmoves.grows.settled _ _ houtcome)
  | asked h | refused h | due h | again h | gone h | failing h =>
      have heq := hmoves.current.symm.trans h
      exact absurd (congrArg Prod.fst (Option.some.inj heq)) ht

/-- What the script has said on the page has come to an outcome, which it is to hear. -/
theorem seat_step {seat below : List Frame} {reply : Reply} (hseat : Seat seat)
    (hstep : m.step = some m')
    (hcurrent : m.current = some (t, .outcome (.ofReply reply) (seat ++ below))) :
    m.words = [.settled (.ofReply reply)] ∧ m'.current =
      some (t, .work (.resume Move.onPage scriptNumber reply) (.scriptDone :: below)) := by
  cases hseat with
  | next => exact answer_step hstep hcurrent
  | first =>
      obtain ⟨w, current⟩ := m
      cases hcurrent
      refine ⟨by simp [words, Frame.answers], ?_⟩
      rw [List.singleton_append, step_outcome] at hstep
      cases hstep
      cases reply <;> rfl

/-- A page begins with the command that has asked for it, or resumes a script that is over. -/
theorem Paged.begins {first : Option Command} {work : Work} {frames below rest : List Frame}
    (h : Begins first (.begin work :: frames)) (hs : Starting r first rest talk)
    (hcurrent : m.current = some (1, .work work (frames ++ below))) (hbelow : Closing below) :
    m.Paged r talk := by
  cases hs with
  | asked hy hc =>
      cases h with
      | command heq =>
          cases heq
          exact .asked hcurrent .first hbelow (Registry.resolve_of_moves hy hc)
      | script heq => cases heq
  | gone =>
      cases h with
      | command heq => cases heq
      | script => exact .again hcurrent hbelow

end Machine

/-! ## Steps -/

open Machine

variable {setup : TestSetup} {g : Generator} {load : FutureId} {head : Head} {stack : List Frame}

/-- A script that is over has nothing more to say, whatever it is told. -/
theorem Machine.again_step {t : TaskId} {p : Processor} {reply reply' : Reply}
    (hended : m.world.Ended) (hstep : m.step = some m')
    (hcurrent : m.current = some (t, .work (.resume p scriptNumber reply) stack)) :
    Talk.Run r (.gone reply') m.words (.gone reply') ∧
      ∃ reply'', m'.current = some (t, .outcome (.ofReply reply'') stack) ∧
        ∀ fault, reply = .error fault → reply'' = .error fault := by
  obtain ⟨w, current⟩ := m
  cases hcurrent
  obtain ⟨reply'', hadv, hfault⟩ := World.advance_of_ended hended reply
  rw [step_resume, hadv] at hstep
  cases hstep
  refine ⟨?_, reply'', rfl, hfault⟩
  have hwords : words ⟨w, some (t, .work (.resume p scriptNumber reply) stack)⟩ =
      [.hears reply, .ends reply''] := by
    simp [words, hadv, Advance.word]
  rw [hwords]
  exact .cons (.gone rfl) (.single (.gone rfl))

/-- The task that loads the page goes on with the talk. -/
theorem Machine.Paged.moves_self (h : m.Paged setup.session.registry talk)
    (hreach : setup.Reaches g m) (hsmooth : setup.Smooth g) (hloads : m.Loads load)
    (hstarted : m.world.session.started = true) (hlt : scriptNumber < m.world.generators.length)
    (hended : ∀ reply, talk = .gone reply → m.world.Ended) (hstep : m.step = some m')
    (hcurrent : m.current = some (1, head.control stack)) :
    ∃ talk', Talk.Run setup.session.registry talk m.words talk' ∧
      m'.Paged setup.session.registry talk' := by
  have hm := hreach.sound
  obtain ⟨new, hmoves⟩ := hm.moves_of_head hstep hcurrent
  have hunstopped {o : Outcome} {fs : List Frame} (hout : m.current = some (1, .outcome o fs)) :
      o ≠ .stopped := hreach.unstopped hsmooth.fine (.inr rfl) hout
  have hforeign {f : Frame} {above below : List Frame} (h : Foreign (f :: above))
      (hfs : m.frames 1 = some (f :: above ++ below)) :=
    hsmooth.foreign_step hreach h hstep hcurrent
      (Option.some.inj (hmoves.before.symm.trans hfs)) hstarted hlt
  cases h with
  | coming h hs =>
      obtain ⟨hwords, hcoming | ⟨work, frames, below, hbegins, hnext, hbelow⟩⟩ :=
        h.moves_self hreach hsmooth hstarted hlt hstep hcurrent
      · rw [hwords]
        exact ⟨_, .nil, .coming hcoming hs⟩
      · rw [hwords]
        exact ⟨_, .nil, .begins hbegins hs hnext hbelow⟩
  | asked hcurrent' hseat hbelow hy =>
      obtain ⟨f, rest, rfl, hf, -⟩ := hseat.answers
      rcases process_step hm hstep hcurrent' hf hreach.registry with ⟨cause, hy', hwords, hnext⟩ |
        ⟨c, above, hy', hwords, hnext, habove⟩ | ⟨c, hphase, -⟩
      · rw [hwords]
        exact ⟨_, .nil, .refused hnext hseat hbelow (hy.trans hy')⟩
      · rw [hwords]
        refine ⟨_, .single (.handled (hy.trans hy')), .busy hnext ?_ hseat hbelow⟩
        rcases habove with rfl | hcommand
        · exact foreign_nil
        · exact hcommand.leaves
      · cases hphase
  | @refused phase y cause seat below hcurrent' hseat hbelow hy =>
      have hreply : m.current =
          some (1, .outcome (.ofReply (.error (.usage cause))) (seat ++ below)) := hcurrent'
      obtain ⟨hwords, hnext⟩ := seat_step hseat hstep hreply
      rw [hwords]
      exact ⟨_, .single (.refused hy), .due hnext hbelow⟩
  | @busy above seat below hfs habove hseat hbelow =>
      cases above with
      | cons f above =>
          obtain ⟨hwords, above', hfs', habove'⟩ := hforeign habove hfs
          rw [hwords]
          exact ⟨_, .nil, .busy hfs' habove' hseat hbelow⟩
      | nil =>
          obtain ⟨f, rest, rfl, -, hwork⟩ := hseat.answers
          obtain ⟨o, rfl, rfl⟩ := hmoves.frame_eq hfs hwork
          obtain ⟨reply, rfl⟩ := Outcome.exists_reply (hunstopped hcurrent)
          obtain ⟨hwords, hnext⟩ := seat_step hseat hstep hcurrent
          rw [hwords]
          exact ⟨_, .single .settled, .due hnext hbelow⟩
  | due hcurrent' hbelow =>
      rcases resume_cases hstep hcurrent' with ⟨reply, hrun, hnext⟩ | ⟨hrun, hnext⟩ | ⟨y, hrun, hnext⟩
      · exact ⟨_, hrun, .gone hnext hbelow (by simp)⟩
      · exact ⟨_, hrun, .due hnext hbelow⟩
      · exact ⟨_, hrun, .asked hnext .next hbelow rfl⟩
  | again hcurrent' hbelow =>
      obtain ⟨hrun, reply, hnext, -⟩ := again_step (hended _ rfl) hstep hcurrent'
      exact ⟨_, hrun, .gone hnext hbelow (by rintro _ ⟨⟩)⟩
  | @gone reply reply' below hcurrent' hbelow hreply =>
      obtain ⟨-, rfl, rfl⟩ := hmoves.head_eq hcurrent'
      rw [words_of_silent hcurrent rfl]
      refine ⟨_, .nil, ?_⟩
      cases reply with
      | error fault =>
          obtain rfl := hreply fault rfl
          exact .failing hmoves.next hbelow (hmoves.grows.task hloads.kind) (hloads.still_open hmoves)
      | ok v =>
          refine .closing hmoves.frames_self (Foreign.append ?_ hbelow.foreign)
          cases reply' with
          | error fault => exact foreign_nil
          | ok v =>
              change Foreign [.begin (.drain none false none), .flushed]
              exact ⟨by simp [Frame.isForeign], by simp [Frame.isProcess]⟩
  | @failing fault below load' hcurrent' hbelow hload hopen =>
      cases below with
      | nil => cases hmoves.before.symm.trans (frames_current hcurrent')
      | cons f below =>
          obtain ⟨-, rfl, rfl⟩ := hmoves.head_eq hcurrent'
          obtain ⟨hf, hrest⟩ := hbelow.cons
          have hnext := hmoves.next
          rw [hmoves.rule.through hf rfl] at hnext
          have hsilent : f.isSilent = true := by cases f <;> first | rfl | cases hf
          rw [words_of_silent hcurrent hsilent]
          exact ⟨_, .nil, .failing hnext hrest (hmoves.grows.task hload)
            ((hmoves.ended load' 1 hload).trans hopen)⟩
  | @closing v fs hfs hclosing =>
      cases fs with
      | nil => cases hmoves.before.symm.trans hfs
      | cons f fs =>
          have hall : m.frames 1 = some (f :: fs ++ []) := by
            rw [List.append_nil]
            exact hfs
          obtain ⟨hwords, above', hfs', habove'⟩ := hforeign hclosing hall
          rw [hwords]
          rw [List.append_nil] at hfs'
          exact ⟨_, .nil, .closing hfs' habove'⟩
  | failed hfs =>
      cases hmoves.before.symm.trans hfs

end HotSpec
