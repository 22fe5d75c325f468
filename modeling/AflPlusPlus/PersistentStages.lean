/-
How far the child and the fork server can be during a call over the sync word.

The child works, dies, is reaped, and its status goes into the pipe before `EXITED` goes
into the word.  A child that finds `EXITED` ends without starting another iteration.
-/

import AflPlusPlus.PersistentSync

namespace AflPlusPlus.PersistentSync

open Machine

/-- The word of an iteration under way: `IDLE` in the first one of a child, then `RUN`. -/
def Word.Busy (word : Word) : Prop := word = .idle ∨ word = .run

/-- The child that was asked to run, as long as the fuzzer does not interfere.  Only
a child that has not seen `RUN` yet has no iteration to its name. -/
inductive Live (forks : Nat) : Child → Word → Nat → Option Nat → Prop where
  | working {word : Word} (busy : word.Busy) :
      Live forks ⟨.running, false⟩ word 1 (some forks)
  | swapping {word expected : Word} (busy : word.Busy) (expects : expected.Busy) :
      Live forks ⟨.swapping expected, false⟩ word 1 (some forks)
  | finished : Live forks ⟨.waiting, false⟩ .done 1 (some forks)
  | awaited : Live forks ⟨.waiting, false⟩ .run 0 none
  | died {word : Word} {status : BitVec 32} {signalled : Bool} (busy : word.Busy) :
      Live forks ⟨.dead status, signalled⟩ word 1 (some forks)

/-- The fork server on its way from `waitpid` to the next request, with what it has
put in the pipe about the child. -/
inductive Stage (forks : Nat) :
    ServerPc → Child → Word → List Message → Nat → Option Nat → Prop where
  | alive {child : Child} {word : Word} {started : Nat} {ranBy : Option Nat}
      (live : Live forks child word started ranBy) :
      Stage forks .waitpid child word [] started ranBy
  | reaped {word : Word} {status : BitVec 32} {signalled : Bool} (busy : word.Busy) :
      Stage forks (.writeStatus status) ⟨.dead status, signalled⟩ word [] 1 (some forks)
  | told {word : Word} {status : BitVec 32} {signalled : Bool} (busy : word.Busy) :
      Stage forks .storeExited ⟨.dead status, signalled⟩ word [.status ⟨forks, status⟩] 1
        (some forks)
  | gone {status : BitVec 32} {signalled : Bool} :
      Stage forks .readCtl ⟨.dead status, signalled⟩ (.exited forks)
        [.status ⟨forks, status⟩] 1 (some forks)

/-- A run is under way, and `front` is still in the pipe before anything about its end. -/
def Serving (front : List Message) (w : World) : Prop :=
  w.ctl = [] ∧ ∃ rest, w.st = front ++ rest ∧
    Stage w.forks w.server w.child w.word rest w.started w.ranBy

/-- The way of the fork server once the fuzzer has written `EXITED` or seen it. -/
inductive Ending (forks : Nat) : ServerPc → Child → List Message → Prop where
  | alive {child : Child} (fair : ∀ expected, child.pc = .swapping expected → expected.Busy) :
      Ending forks .waitpid child []
  | reaped {status : BitVec 32} {signalled : Bool} :
      Ending forks (.writeStatus status) ⟨.dead status, signalled⟩ []
  | told {status : BitVec 32} {signalled : Bool} :
      Ending forks .storeExited ⟨.dead status, signalled⟩ [.status ⟨forks, status⟩]
  | gone {status : BitVec 32} {signalled : Bool} :
      Ending forks .readCtl ⟨.dead status, signalled⟩ [.status ⟨forks, status⟩]

def Doomed (w : World) : Prop :=
  w.ctl = [] ∧ w.word = .exited w.forks ∧ Ending w.forks w.server w.child w.st

/-- Nothing is asked for and no child lives.  The word may still turn to `EXITED`. -/
structure Quiet (w : World) : Prop where
  ctl : w.ctl = []
  st : w.st = []
  server : w.server = .readCtl ∨ w.server = .storeExited
  dead : ∃ status, w.child.pc = .dead status

structure Parked (w : World) : Prop where
  ctl : w.ctl = []
  st : w.st = []
  server : w.server = .waitpid
  child : w.child = ⟨.waiting, false⟩
  word : w.word = .done

def Unstarted (w : World) : Prop := w.started = 0 ∧ w.ranBy = none

inductive Asked (w : World) : Prop where
  | sent (none : Unstarted w) (req : ∃ killed, w.ctl = [killed])
      (empty : w.st = []) (server : w.server = .readCtl ∨ w.server = .storeExited)
      (dead : ∃ status, w.child.pc = .dead status)
  | heard (none : Unstarted w) (taken : w.ctl = []) (empty : w.st = [])
      (server : w.server = .storeIdle) (dead : ∃ status, w.child.pc = .dead status)
  | cleared (none : Unstarted w) (taken : w.ctl = []) (empty : w.st = [])
      (server : w.server = .fork) (dead : ∃ status, w.child.pc = .dead status)
      (word : w.word = .idle)
  | forked (taken : w.ctl = []) (empty : w.st = []) (server : w.server = .writePid)
      (live : Live w.forks w.child w.word w.started w.ranBy)
  | answered (serving : Serving [.pid w.forks] w)

theorem childStep_forks (w : World) (act : ChildAction) :
    (childStep w act).forks = w.forks := by
  cases act with
  | next =>
    unfold childStep
    dsimp only
    split
    · rfl
    · split
      · rfl
      · split <;> rfl
    · split <;> rfl
    · rfl
  | die status =>
    unfold childStep
    dsimp only
    split
    · rfl
    · rfl
    · split <;> rfl
    · rfl

variable {w : World}

theorem childStep_dead {status : BitVec 32} (dead : w.child.pc = .dead status)
    (act : ChildAction) : childStep w act = w := by
  cases act with
  | next | die status => simp only [childStep, dead]

theorem Parked.childStep (parked : Parked w) (act : ChildAction) :
    childStep w act = w := by
  have child := parked.child
  cases act with
  | next => simp only [PersistentSync.childStep, child, parked.word]
  | die status => simp [PersistentSync.childStep, child]

theorem Live.childStep (live : Live w.forks w.child w.word w.started w.ranBy) (act : ChildAction) :
    let next := childStep w act
    Live next.forks next.child next.word next.started next.ranBy ∧
      next.ctl = w.ctl ∧ next.st = w.st ∧ next.server = w.server := by
  obtain ⟨word, ctl, st, server, forks, child, started, ranBy⟩ := w
  dsimp only at live
  cases live with
  | working busy =>
    cases act with
    | next => exact ⟨.swapping busy (.inr rfl), rfl, rfl, rfl⟩
    | die status => exact ⟨.died busy, rfl, rfl, rfl⟩
  | @swapping _ expected busy expects =>
    cases act with
    | next =>
      by_cases same : word = expected
      · simp only [PersistentSync.childStep, if_pos same]
        exact ⟨.finished, rfl, rfl, rfl⟩
      · simp only [PersistentSync.childStep, if_neg same]
        -- the swap failed and knows now what it found
        cases busy with
        | inl idle =>
          subst idle
          exact ⟨.swapping (.inl rfl) (.inl rfl), rfl, rfl, rfl⟩
        | inr run =>
          subst run
          exact ⟨.swapping (.inr rfl) (.inr rfl), rfl, rfl, rfl⟩
    | die status => exact ⟨.died busy, rfl, rfl, rfl⟩
  | finished =>
    cases act with
    | next | die status => exact ⟨.finished, rfl, rfl, rfl⟩
  | awaited =>
    cases act with
    | next => exact ⟨.working (.inr rfl), rfl, rfl, rfl⟩
    | die status => exact ⟨.awaited, rfl, rfl, rfl⟩
  | died busy =>
    cases act with
    | next | die status => exact ⟨.died busy, rfl, rfl, rfl⟩

theorem Serving.childStep {front : List Message} (serving : Serving front w)
    (act : ChildAction) : Serving front (childStep w act) := by
  obtain ⟨word, ctl, st, _, forks, child, started, ranBy⟩ := w
  obtain ⟨taken, _, pipe, stage⟩ := serving
  dsimp only at taken pipe stage
  cases stage with
  | alive live =>
    obtain ⟨post, sameCtl, sameSt, sameServer⟩ :=
      @Live.childStep ⟨word, ctl, st, .waitpid, forks, child, started, ranBy⟩ live act
    refine ⟨sameCtl.trans taken, [], sameSt.trans pipe, ?_⟩
    rw [sameServer]
    exact .alive post
  | reaped busy =>
    rw [childStep_dead rfl]
    exact ⟨taken, [], pipe, .reaped busy⟩
  | told busy =>
    rw [childStep_dead rfl]
    exact ⟨taken, _, pipe, .told busy⟩
  | gone =>
    rw [childStep_dead rfl]
    exact ⟨taken, _, pipe, .gone⟩

/-- A child that finds `EXITED` ends, and starts nothing before it does. -/
theorem Doomed.childStep (doomed : Doomed w) (act : ChildAction) :
    let next := childStep w act
    Doomed next ∧ next.forks = w.forks ∧ next.started = w.started ∧
      next.ranBy = w.ranBy := by
  obtain ⟨word, ctl, st, server, forks, ⟨pc, signalled⟩, started, ranBy⟩ := w
  obtain ⟨taken, exited, ending⟩ := doomed
  dsimp only at taken exited ending
  subst exited
  cases ending with
  | alive fair =>
    -- what is left to show is that the child does not swap its way out of `EXITED`
    have stays (pc : ChildPc) (fair : ∀ expected, pc = .swapping expected → expected.Busy) :
        Doomed ⟨.exited forks, ctl, [], .waitpid, forks, ⟨pc, signalled⟩, started, ranBy⟩ :=
      ⟨taken, rfl, .alive fair⟩
    have ends (status : BitVec 32) :
        Doomed ⟨.exited forks, ctl, [], .waitpid, forks, ⟨.dead status, signalled⟩, started,
          ranBy⟩ :=
      stays _ (fun _ bad => by cases bad)
    cases pc with
    | running =>
      cases act with
      | next =>
        refine ⟨stays (.swapping .run) ?_, rfl, rfl, rfl⟩
        intro expected same
        cases same
        exact .inr rfl
      | die status => exact ⟨ends _, rfl, rfl, rfl⟩
    | swapping expected =>
      cases act with
      | next =>
        have other : Word.exited forks ≠ expected := by
          intro same
          subst same
          cases fair _ rfl with
          | inl bad | inr bad => cases bad
        simp only [PersistentSync.childStep, if_neg other]
        exact ⟨ends 0, rfl, rfl, rfl⟩
      | die status => exact ⟨ends _, rfl, rfl, rfl⟩
    | waiting =>
      cases act with
      | next => exact ⟨ends 0, rfl, rfl, rfl⟩
      | die status =>
        cases signalled with
        | false => exact ⟨stays .waiting fair, rfl, rfl, rfl⟩
        | true => exact ⟨ends _, rfl, rfl, rfl⟩
    | dead status =>
      rw [childStep_dead rfl]
      exact ⟨ends _, rfl, rfl, rfl⟩
  | reaped =>
    rw [childStep_dead rfl]
    exact ⟨⟨taken, rfl, .reaped⟩, rfl, rfl, rfl⟩
  | told =>
    rw [childStep_dead rfl]
    exact ⟨⟨taken, rfl, .told⟩, rfl, rfl, rfl⟩
  | gone =>
    rw [childStep_dead rfl]
    exact ⟨⟨taken, rfl, .gone⟩, rfl, rfl, rfl⟩

theorem Asked.childStep (asked : Asked w) (act : ChildAction) :
    Asked (childStep w act) := by
  cases asked with
  | sent none req empty server dead =>
    obtain ⟨status, dead⟩ := dead
    rw [childStep_dead dead]
    exact .sent none req empty server ⟨status, dead⟩
  | heard none taken empty server dead =>
    obtain ⟨status, dead⟩ := dead
    rw [childStep_dead dead]
    exact .heard none taken empty server ⟨status, dead⟩
  | cleared none taken empty server dead word =>
    obtain ⟨status, dead⟩ := dead
    rw [childStep_dead dead]
    exact .cleared none taken empty server ⟨status, dead⟩ word
  | forked taken empty server live =>
    obtain ⟨post, sameCtl, sameSt, sameServer⟩ := live.childStep act
    exact .forked (sameCtl.trans taken) (sameSt.trans empty) (sameServer.trans server) post
  | answered serving =>
    apply Asked.answered
    rw [childStep_forks]
    exact serving.childStep _

theorem Parked.serverStep (parked : Parked w) :
    serverStep w = w := by
  simp only [PersistentSync.serverStep, parked.server, parked.child]

theorem Quiet.serverStep (quiet : Quiet w) :
    let next := serverStep w
    Quiet next ∧ next.started = w.started ∧ next.ranBy = w.ranBy := by
  obtain ⟨ctl, st, server, dead⟩ := quiet
  cases server with
  | inl reads =>
    have blocked : PersistentSync.serverStep w = w := by
      simp only [PersistentSync.serverStep, reads, ctl]
    rw [blocked]
    exact ⟨⟨ctl, st, .inl reads, dead⟩, rfl, rfl⟩
  | inr stores =>
    have late : PersistentSync.serverStep w =
        { w with word := .exited w.forks, server := .readCtl } := by
      simp only [PersistentSync.serverStep, stores]
    rw [late]
    exact ⟨⟨ctl, st, .inl rfl, dead⟩, rfl, rfl⟩

theorem Serving.serverStep {front : List Message} (serving : Serving front w) :
    Serving front (serverStep w) ∧ (serverStep w).forks = w.forks := by
  obtain ⟨_, _, st, _, forks, _, _, _⟩ := w
  obtain ⟨taken, _, pipe, stage⟩ := serving
  dsimp only at taken pipe stage
  cases stage with
  | alive live =>
    cases live with
    | working busy => exact ⟨⟨taken, [], pipe, .alive (.working busy)⟩, rfl⟩
    | swapping busy expects =>
      exact ⟨⟨taken, [], pipe, .alive (.swapping busy expects)⟩, rfl⟩
    | finished => exact ⟨⟨taken, [], pipe, .alive .finished⟩, rfl⟩
    | awaited => exact ⟨⟨taken, [], pipe, .alive .awaited⟩, rfl⟩
    | died busy => exact ⟨⟨taken, [], pipe, .reaped busy⟩, rfl⟩
  | @reaped _ status _ busy =>
    refine ⟨⟨taken, [.status ⟨forks, status⟩], ?_, .told busy⟩, rfl⟩
    change st ++ [_] = front ++ [_]
    rw [pipe, List.append_nil]
  | told busy => exact ⟨⟨taken, _, pipe, .gone⟩, rfl⟩
  | gone =>
    subst taken
    exact ⟨⟨rfl, _, pipe, .gone⟩, rfl⟩

theorem Doomed.serverStep (doomed : Doomed w) :
    let next := serverStep w
    Doomed next ∧ next.forks = w.forks ∧ next.started = w.started ∧
      next.ranBy = w.ranBy := by
  obtain ⟨word, ctl, st, server, forks, ⟨pc, _⟩, started, ranBy⟩ := w
  obtain ⟨taken, exited, ending⟩ := doomed
  dsimp only at taken exited ending
  subst exited taken
  cases ending with
  | alive fair =>
    cases pc with
    | running | swapping expected | waiting => exact ⟨⟨rfl, rfl, .alive fair⟩, rfl, rfl, rfl⟩
    | dead status => exact ⟨⟨rfl, rfl, .reaped⟩, rfl, rfl, rfl⟩
  | reaped => exact ⟨⟨rfl, rfl, .told⟩, rfl, rfl, rfl⟩
  | told | gone => exact ⟨⟨rfl, rfl, .gone⟩, rfl, rfl, rfl⟩

theorem Asked.serverStep (asked : Asked w) : Asked (serverStep w) := by
  cases asked with
  | sent none req empty server dead =>
    obtain ⟨killed, req⟩ := req
    cases server with
    | inl reads =>
      have reading : PersistentSync.serverStep w = { w with ctl := [], server := .storeIdle } := by
        simp only [PersistentSync.serverStep, reads, req]
      rw [reading]
      exact .heard none rfl empty rfl dead
    | inr stores =>
      have late : PersistentSync.serverStep w =
          { w with word := .exited w.forks, server := .readCtl } := by
        simp only [PersistentSync.serverStep, stores]
      rw [late]
      exact .sent none ⟨killed, req⟩ empty (.inl rfl) dead
  | heard none taken empty server dead =>
    have clearing : PersistentSync.serverStep w = { w with word := .idle, server := .fork } := by
      simp only [PersistentSync.serverStep, server]
    rw [clearing]
    exact .cleared none taken empty rfl dead rfl
  | cleared none taken empty server dead word =>
    obtain ⟨zero, _⟩ := none
    have forking : PersistentSync.serverStep w = World.start { w with
        forks := w.forks + 1, child := ⟨.running, false⟩, server := .writePid } := by
      simp only [PersistentSync.serverStep, server]
    rw [forking]
    refine .forked taken empty rfl ?_
    rw [zero, word]
    exact .working (.inl rfl)
  | forked taken empty server live =>
    have answering : PersistentSync.serverStep w =
        { w with st := [.pid w.forks], server := .waitpid } := by
      simp [PersistentSync.serverStep, server, empty]
    rw [answering]
    exact .answered ⟨taken, [], rfl, .alive live⟩
  | answered serving =>
    obtain ⟨post, same⟩ := serving.serverStep
    apply Asked.answered
    rw [same]
    exact post

end AflPlusPlus.PersistentSync
