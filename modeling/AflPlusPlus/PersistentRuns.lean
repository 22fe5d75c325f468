/-
Every run over the sync word executes its input once.

The invariant says for each place of the fuzzer which stage the others are in.
An `EXITED` that comes late meets a fuzzer without a child: the next child is
asked for through the pipe, and the fork server clears the word on its way to
the fork.
-/

import AflPlusPlus.PersistentStages

namespace AflPlusPlus.PersistentSync

open Machine

def Once (child : Nat) (w : World) : Prop :=
  w.started = 1 ∧ w.ranBy = some child

structure Returned.Sound (record : Returned) : Prop where
  once : record.result = .ok ∨ record.result = .crash → record.started = 1
  own : record.result = .ok ∨ record.result = .crash →
    ∀ status, record.classified = some status → record.ranBy = some status.child

def Resting (childPid : Option Nat) (w : World) : Prop :=
  childPid = none ∧ Quiet w ∨ childPid = some w.forks ∧ Parked w

def Invariant (fuzzer : Fuzzer) (w : World) : Prop :=
  match fuzzer.pc with
  | .returned last => (∀ record, last = some record → record.Sound) ∧ Resting fuzzer.childPid w
  | .called => Unstarted w ∧ Resting fuzzer.childPid w
  | .storeRun => Unstarted w ∧ fuzzer.childPid = some w.forks ∧ Parked w
  | .waitLoad => fuzzer.childPid = some w.forks ∧ Serving [] w
  | .futexWait => fuzzer.childPid = some w.forks ∧ Serving [] w
  | .storeExited => fuzzer.lastRunTimedOut = true ∧ fuzzer.childPid = some w.forks ∧ Serving [] w
  | .killChild => fuzzer.lastRunTimedOut = true ∧ fuzzer.childPid = some w.forks ∧ Doomed w
  | .readStatus => (fuzzer.lastRunTimedOut = true ∨ Once w.forks w) ∧
      fuzzer.childPid = some w.forks ∧ Doomed w
  | .storeIdle status => (fuzzer.lastRunTimedOut = true ∨ Once status.child w) ∧ Quiet w
  | .classify status => (fuzzer.lastRunTimedOut = true ∨ Once status.child w) ∧
      fuzzer.childPid = none ∧ Quiet w
  | .writeCtl => Unstarted w ∧ fuzzer.childPid = none ∧ Quiet w
  | .readPid => fuzzer.childPid = none ∧ Asked w
  | .misread => False

variable {childPid : Option Nat} {w : World}

theorem Resting.serverStep (resting : Resting childPid w) :
    let next := serverStep w
    Resting childPid next ∧ next.started = w.started ∧ next.ranBy = w.ranBy := by
  cases resting with
  | inl quiet =>
    obtain ⟨nobody, quiet⟩ := quiet
    obtain ⟨post, counts⟩ := quiet.serverStep
    exact ⟨.inl ⟨nobody, post⟩, counts⟩
  | inr parked =>
    obtain ⟨known, parked⟩ := parked
    rw [parked.serverStep]
    exact ⟨.inr ⟨known, parked⟩, rfl, rfl⟩

theorem Resting.childStep (resting : Resting childPid w) (act : ChildAction) :
    childStep w act = w := by
  cases resting with
  | inl quiet =>
    obtain ⟨_, dead⟩ := quiet.2.dead
    exact childStep_dead dead _
  | inr parked => exact parked.2.childStep _

theorem Quiet.childStep (quiet : Quiet w) (act : ChildAction) :
    childStep w act = w := by
  obtain ⟨_, dead⟩ := quiet.dead
  exact childStep_dead dead _

variable {fuzzer : Fuzzer}

theorem Invariant.server (holds : Invariant fuzzer w) :
    Invariant fuzzer (serverStep w) := by
  obtain ⟨pc, _, _⟩ := fuzzer
  cases pc with
  | returned last => exact ⟨holds.1, holds.2.serverStep.1⟩
  | called =>
    obtain ⟨none, resting⟩ := holds
    obtain ⟨post, started, ranBy⟩ := resting.serverStep
    exact ⟨⟨started.trans none.1, ranBy.trans none.2⟩, post⟩
  | storeRun =>
    obtain ⟨none, known, parked⟩ := holds
    rw [parked.serverStep]
    exact ⟨none, known, parked⟩
  | waitLoad | futexWait =>
    obtain ⟨post, same⟩ := holds.2.serverStep
    exact ⟨holds.1.trans (congrArg _ same.symm), post⟩
  | storeExited =>
    obtain ⟨late, known, serving⟩ := holds
    obtain ⟨post, same⟩ := serving.serverStep
    exact ⟨late, known.trans (congrArg _ same.symm), post⟩
  | killChild =>
    obtain ⟨late, known, doomed⟩ := holds
    obtain ⟨post, same, _⟩ := doomed.serverStep
    exact ⟨late, known.trans (congrArg _ same.symm), post⟩
  | readStatus =>
    obtain ⟨cause, known, doomed⟩ := holds
    obtain ⟨post, same, started, ranBy⟩ := doomed.serverStep
    refine ⟨cause.imp id ?_, known.trans (congrArg _ same.symm), post⟩
    intro once
    rw [same]
    exact ⟨started.trans once.1, ranBy.trans once.2⟩
  | storeIdle status =>
    obtain ⟨cause, quiet⟩ := holds
    obtain ⟨post, started, ranBy⟩ := quiet.serverStep
    exact ⟨cause.imp id (fun once => ⟨started.trans once.1, ranBy.trans once.2⟩), post⟩
  | classify status =>
    obtain ⟨cause, nobody, quiet⟩ := holds
    obtain ⟨post, started, ranBy⟩ := quiet.serverStep
    exact ⟨cause.imp id (fun once => ⟨started.trans once.1, ranBy.trans once.2⟩), nobody, post⟩
  | writeCtl =>
    obtain ⟨none, nobody, quiet⟩ := holds
    obtain ⟨post, started, ranBy⟩ := quiet.serverStep
    exact ⟨⟨started.trans none.1, ranBy.trans none.2⟩, nobody, post⟩
  | readPid => exact ⟨holds.1, holds.2.serverStep⟩
  | misread => exact holds

theorem Invariant.child (holds : Invariant fuzzer w) (act : ChildAction) :
    Invariant fuzzer (childStep w act) := by
  obtain ⟨pc, _, _⟩ := fuzzer
  cases pc with
  | returned last | called | storeIdle status =>
    rw [holds.2.childStep]
    exact holds
  | storeRun | classify status | writeCtl =>
    rw [holds.2.2.childStep]
    exact holds
  | waitLoad | futexWait =>
    exact ⟨holds.1.trans (congrArg _ (childStep_forks _ _).symm), holds.2.childStep _⟩
  | storeExited =>
    exact ⟨holds.1, holds.2.1.trans (congrArg _ (childStep_forks _ _).symm), holds.2.2.childStep _⟩
  | killChild =>
    exact ⟨holds.1, holds.2.1.trans (congrArg _ (childStep_forks _ _).symm),
      (holds.2.2.childStep _).1⟩
  | readStatus =>
    obtain ⟨cause, known, doomed⟩ := holds
    obtain ⟨post, same, started, ranBy⟩ := doomed.childStep act
    refine ⟨cause.imp id ?_, known.trans (congrArg _ same.symm), post⟩
    intro once
    rw [same]
    exact ⟨started.trans once.1, ranBy.trans once.2⟩
  | readPid => exact ⟨holds.1, holds.2.childStep _⟩
  | misread => exact holds

theorem Serving.word_cases (serving : Serving [] w) :
    w.word.Busy ∨ w.word = .done ∧ Once w.forks w ∧ Parked w ∨
      w.word = .exited w.forks ∧ Once w.forks w ∧ Doomed w := by
  obtain ⟨word, _, _, _, forks, _, _, _⟩ := w
  obtain ⟨taken, _, pipe, stage⟩ := serving
  dsimp only at taken pipe stage
  subst taken pipe
  cases stage with
  | alive live =>
    cases live with
    | working busy | swapping busy expects | died busy => exact .inl busy
    | finished => exact .inr (.inl ⟨rfl, ⟨rfl, rfl⟩, ⟨rfl, rfl, rfl, rfl, rfl⟩⟩)
    | awaited => exact .inl (.inr rfl)
  | reaped busy | told busy => exact .inl busy
  | gone => exact .inr (.inr ⟨rfl, ⟨rfl, rfl⟩, ⟨rfl, rfl, .gone⟩⟩)

private theorem Serving.doomed (serving : Serving [] w) :
    Doomed { w with word := .exited w.forks } := by
  obtain ⟨word, _, _, _, forks, _, _, _⟩ := w
  obtain ⟨taken, _, pipe, stage⟩ := serving
  dsimp only at taken pipe stage
  subst pipe
  refine ⟨taken, rfl, ?_⟩
  cases stage with
  | alive live =>
    apply Ending.alive
    intro expected swaps
    cases live with
    | working busy | finished | awaited | died busy => cases swaps
    | swapping busy expects =>
      cases swaps
      exact expects
  | reaped busy => exact .reaped
  | told busy => exact .told
  | gone => exact .gone

theorem Doomed.signal (doomed : Doomed w) :
    Doomed { w with child := { w.child with signalled := true } } := by
  obtain ⟨_, _, _, _, _, child, _, _⟩ := w
  obtain ⟨taken, exited, ending⟩ := doomed
  refine ⟨taken, exited, ?_⟩
  dsimp only at ending ⊢
  cases ending with
  | alive fair => exact .alive fair
  | reaped => exact .reaped
  | told => exact .told
  | gone => exact .gone

variable (execFail : Bool)

section FuzzerSteps

variable {sys : System} {rules : CrashRules}

/-- The invariant of a whole system, as long as nobody has asked it to stop. -/
def Holds (sys : System) : Prop := Invariant sys.fuzzer sys.world

theorem Resting.called (resting : Resting childPid w) :
    Resting childPid { w with started := 0, ranBy := none } := by
  cases resting with
  | inl quiet => exact .inl ⟨quiet.1, quiet.2.ctl, quiet.2.st, quiet.2.server, quiet.2.dead⟩
  | inr parked =>
    obtain ⟨known, ctl, st, server, child, word⟩ := parked
    exact .inr ⟨known, ctl, st, server, child, word⟩

private theorem holds_entry (none : Unstarted sys.world)
    (resting : Resting sys.fuzzer.childPid sys.world) : Holds sys.entry := by
  unfold System.entry
  cases resting with
  | inl quiet =>
    rw [quiet.1]
    exact ⟨none, quiet⟩
  | inr parked =>
    rw [parked.1, parked.2.word]
    exact ⟨none, parked⟩

private theorem holds_storeRun (none : Unstarted sys.world)
    (known : sys.fuzzer.childPid = some sys.world.forks) (parked : Parked sys.world) :
    Holds (sys.store .run .waitLoad) := by
  refine ⟨known, parked.ctl, [], parked.st, ?_⟩
  change Stage sys.world.forks sys.world.server sys.world.child .run [] sys.world.started
    sys.world.ranBy
  rw [parked.server, parked.child, none.1, none.2]
  exact .alive .awaited

theorem waitLoad_of_busy (running : sys.stopSoon = false)
    (known : sys.fuzzer.childPid = some sys.world.forks) (busy : sys.world.word.Busy) :
    sys.waitLoad execFail =
      sys.goto (if sys.fuzzer.lastRunTimedOut then .storeExited else .futexWait) := by
  unfold System.waitLoad
  cases busy with
  | inl idle =>
    cases late : sys.fuzzer.lastRunTimedOut with
    | true => simp [idle, known]
    | false => simp [idle, running]
  | inr run =>
    cases late : sys.fuzzer.lastRunTimedOut with
    | true => simp [run, known]
    | false => simp [run, running]

private theorem holds_waitLoad (running : sys.stopSoon = false)
    (known : sys.fuzzer.childPid = some sys.world.forks) (serving : Serving [] sys.world) :
    Holds (sys.waitLoad execFail) := by
  rcases serving.word_cases with busy | ⟨done, once, parked⟩ | ⟨exited, once, doomed⟩
  · rw [waitLoad_of_busy _ running known busy]
    cases late : sys.fuzzer.lastRunTimedOut with
    | true => exact ⟨late, known, serving⟩
    | false => exact ⟨known, serving⟩
  · unfold System.waitLoad
    rw [done]
    refine ⟨?_, .inr ⟨known, parked⟩⟩
    intro record same
    cases same
    exact ⟨fun _ => once.1, fun _ status bad => by cases bad⟩
  · unfold System.waitLoad
    rw [exited]
    exact ⟨.inr once, known, doomed⟩

theorem kill_of_known (known : sys.fuzzer.childPid = some sys.world.forks) :
    sys.kill = { sys with
      world := { sys.world with child := { sys.world.child with signalled := true } } } :=
  if_pos known

private theorem holds_takeStatus (labelled : sys.fuzzer.pc = .readStatus)
    (cause : sys.fuzzer.lastRunTimedOut = true ∨ Once sys.world.forks sys.world)
    (known : sys.fuzzer.childPid = some sys.world.forks) (doomed : Doomed sys.world) :
    Holds sys.takeStatus := by
  have unread : Holds sys := by
    unfold Holds Invariant
    rw [labelled]
    exact ⟨cause, known, doomed⟩
  obtain ⟨⟨pc, childPid, _⟩, ⟨_, _, _, _, forks, _, _, _⟩, stop⟩ := sys
  obtain ⟨taken, _, ending⟩ := doomed
  dsimp only at taken ending
  cases ending with
  | alive fair | reaped => exact unread
  | told => exact ⟨cause, taken, rfl, .inr rfl, _, rfl⟩
  | gone => exact ⟨cause, taken, rfl, .inl rfl, _, rfl⟩

private theorem holds_classify {status : WaitStatus}
    (cause : sys.fuzzer.lastRunTimedOut = true ∨ Once status.child sys.world)
    (nobody : sys.fuzzer.childPid = none) (quiet : Quiet sys.world) :
    Holds (sys.leave (System.verdict rules sys.fuzzer.lastRunTimedOut execFail status.value)
      (some status)) := by
  refine ⟨?_, .inl ⟨nobody, quiet⟩⟩
  intro record same
  cases same
  have once (good : System.verdict rules sys.fuzzer.lastRunTimedOut execFail status.value = .ok ∨
      System.verdict rules sys.fuzzer.lastRunTimedOut execFail status.value = .crash) :
      Once status.child sys.world := by
    cases cause with
    | inr once => exact once
    | inl late =>
      -- a call that timed out says so
      rw [late] at good
      unfold System.verdict at good
      cases execFail with
      | true | false => simp at good
  refine ⟨fun good => (once good).1, ?_⟩
  intro good own classified
  cases classified
  exact (once good).2

private theorem holds_takePid (labelled : sys.fuzzer.pc = .readPid)
    (nobody : sys.fuzzer.childPid = none)
    (asked : Asked sys.world) : Holds sys.takePid := by
  have unread : Holds sys := by
    unfold Holds Invariant
    rw [labelled]
    exact ⟨nobody, asked⟩
  have blocked (empty : sys.world.st = []) : sys.takePid = sys := by
    unfold System.takePid
    rw [empty]
  cases asked with
  | sent none req empty server dead | heard none taken empty server dead => rwa [blocked empty]
  | cleared none taken empty server dead word | forked taken empty server live =>
    rwa [blocked empty]
  | answered serving =>
    obtain ⟨taken, rest, pipe, stage⟩ := serving
    unfold System.takePid
    rw [pipe]
    exact ⟨rfl, taken, rest, rfl, stage⟩

private theorem Holds.fuzzerNext (holds : Holds sys) (running : sys.stopSoon = false) :
    Holds (sys.fuzzerNext rules execFail) := by
  unfold Holds Invariant at holds
  unfold System.fuzzerNext
  cases labelled : sys.fuzzer.pc with
  | returned last =>
    rw [labelled] at holds
    exact ⟨⟨rfl, rfl⟩, holds.2.called⟩
  | called =>
    rw [labelled] at holds
    exact holds_entry holds.1 holds.2
  | storeRun =>
    rw [labelled] at holds
    exact holds_storeRun holds.1 holds.2.1 holds.2.2
  | waitLoad =>
    rw [labelled] at holds
    exact holds_waitLoad _ running holds.1 holds.2
  | futexWait =>
    rw [labelled] at holds
    exact holds
  | storeExited =>
    rw [labelled] at holds
    obtain ⟨late, known, serving⟩ := holds
    rw [known]
    exact ⟨late, known, serving.doomed⟩
  | killChild =>
    rw [labelled] at holds
    obtain ⟨late, known, doomed⟩ := holds
    rw [kill_of_known known]
    exact ⟨.inl late, known, doomed.signal⟩
  | readStatus =>
    rw [labelled] at holds
    exact holds_takeStatus labelled holds.1 holds.2.1 holds.2.2
  | storeIdle status =>
    rw [labelled] at holds
    obtain ⟨cause, quiet⟩ := holds
    exact ⟨cause, rfl, quiet.ctl, quiet.st, quiet.server, quiet.dead⟩
  | classify status =>
    rw [labelled] at holds
    exact holds_classify _ holds.1 holds.2.1 holds.2.2
  | writeCtl =>
    rw [labelled] at holds
    obtain ⟨none, nobody, quiet⟩ := holds
    refine ⟨nobody, .sent none ⟨sys.fuzzer.lastRunTimedOut, ?_⟩ quiet.st quiet.server quiet.dead⟩
    rw [quiet.ctl]
    rfl
  | readPid =>
    rw [labelled] at holds
    exact holds_takePid labelled holds.1 holds.2
  | misread =>
    rw [labelled] at holds
    exact holds.elim

private theorem Holds.fuzzerTimeout (holds : Holds sys) : Holds sys.fuzzerTimeout := by
  unfold System.fuzzerTimeout
  split
  · next labelled =>
      unfold Holds Invariant at holds
      rw [labelled] at holds
      exact holds
  · next labelled =>
      unfold Holds Invariant at holds ⊢
      rw [labelled] at holds
      obtain ⟨cause, known, doomed⟩ := holds
      rw [kill_of_known known]
      rw [labelled]
      exact ⟨cause, known, doomed.signal⟩
  · exact holds

end FuzzerSteps

variable (rules : CrashRules)

section StopRequests

variable (sys : System)

private theorem stopSoon_entry : sys.entry.stopSoon = sys.stopSoon := by
  unfold System.entry
  split
  · rfl
  · split <;> rfl

private theorem stopSoon_waitLoad : (sys.waitLoad execFail).stopSoon = sys.stopSoon := by
  unfold System.waitLoad
  split
  · rfl
  · rfl
  · split
    · split <;> rfl
    · rfl

theorem stopSoon_kill : sys.kill.stopSoon = sys.stopSoon := by
  unfold System.kill
  split <;> rfl

private theorem stopSoon_takeStatus : sys.takeStatus.stopSoon = sys.stopSoon := by
  unfold System.takeStatus
  split <;> rfl

private theorem stopSoon_takePid : sys.takePid.stopSoon = sys.stopSoon := by
  unfold System.takePid
  split <;> rfl

private theorem stopSoon_fuzzerNext :
    (sys.fuzzerNext rules execFail).stopSoon = sys.stopSoon := by
  unfold System.fuzzerNext
  cases sys.fuzzer.pc with
  | called => exact stopSoon_entry _
  | waitLoad => exact stopSoon_waitLoad _ _
  | killChild => exact stopSoon_kill _
  | readStatus => exact stopSoon_takeStatus _
  | readPid => exact stopSoon_takePid _
  | _ => rfl

end StopRequests

variable {sys : System}

theorem stopSoon_step {rules : CrashRules} {act : Action}
    (running : (step rules sys act).stopSoon = false) : sys.stopSoon = false := by
  cases act with
  | fuzzer act =>
    cases act with
    | next execFail => exact (stopSoon_fuzzerNext _ _ _).symm.trans running
    | timeout =>
      change sys.fuzzerTimeout.stopSoon = false at running
      unfold System.fuzzerTimeout at running
      split at running
      · exact running
      · exact (stopSoon_kill _).symm.trans running
      · exact running
    | interrupt =>
      change sys.fuzzerInterrupt.stopSoon = false at running
      unfold System.fuzzerInterrupt at running
      by_cases pre : sys.stopSoon = false
      · exact pre
      · rw [if_neg pre] at running
        split at running <;> exact running
  | server | child act => exact running
  | stop => cases running

theorem Holds.step (holds : Holds sys) (rules : CrashRules) (act : Action)
    (running : (step rules sys act).stopSoon = false) : Holds (step rules sys act) := by
  have pre := stopSoon_step running
  cases act with
  | fuzzer act =>
    cases act with
    | next execFail => exact holds.fuzzerNext _ pre
    | timeout => exact holds.fuzzerTimeout
    | interrupt =>
      change Holds sys.fuzzerInterrupt
      unfold System.fuzzerInterrupt
      rw [if_pos pre]
      exact holds
  | server => exact Invariant.server holds
  | child act => exact Invariant.child holds _
  | stop => cases running

theorem holds_initial : Holds System.initial := by
  refine ⟨?_, .inl ⟨rfl, rfl, rfl, .inl rfl, 0, rfl⟩⟩
  intro record bad
  cases bad

private theorem holds_of_run (acts : List Action)
    (running : (runFrom (step rules) System.initial acts).stopSoon = false) :
    Holds (runFrom (step rules) System.initial acts) := by
  have kept := runFrom_preserves (fun sys : System => sys.stopSoon = false → Holds _)
    (fun sys act pre post =>
      Holds.step (pre (stopSoon_step post)) rules act post)
    System.initial (fun _ => holds_initial) acts
  exact kept running

private theorem Holds.exited_own (holds : Holds sys) (looks : sys.LooksAtWord) {child : Nat}
    (exited : sys.world.word = .exited child) : sys.fuzzer.childPid = some child := by
  unfold Holds Invariant at holds
  cases looks with
  | inl waits =>
    rw [waits] at holds
    obtain ⟨known, serving⟩ := holds
    rcases serving.word_cases with busy | ⟨done, _⟩ | ⟨own, _⟩
    · rw [exited] at busy
      cases busy with
      | inl bad | inr bad => cases bad
    · rw [exited] at done
      cases done
    · rw [exited] at own
      cases own
      exact known
  | inr calls =>
    rw [calls.1] at holds
    cases holds.2 with
    | inl quiet => exact (calls.2 quiet.1).elim
    | inr parked =>
      have done := parked.2.word
      rw [exited] at done
      cases done

/-- In every interleaving, and as long as the fuzzer is not asked to stop: a call that
returned OK or a crash saw exactly one iteration start and classified the status of the
child which ran it, and no message was taken for another. -/
theorem persistent_runs_once (rules : CrashRules) (acts : List Action)
    (running : (runFrom (step rules) System.initial acts).stopSoon = false) :
    let sys := runFrom (step rules) System.initial acts
    (∀ record, sys.fuzzer.pc = .returned (some record) →
      record.result = .ok ∨ record.result = .crash → record.started = 1 ∧
          ∀ status, record.classified = some status → record.ranBy = some status.child) ∧
      (sys.LooksAtWord → ∀ child, sys.world.word = .exited child →
        sys.fuzzer.childPid = some child) ∧
      sys.fuzzer.pc ≠ .misread := by
  intro sys
  have holds : Holds sys := holds_of_run _ _ running
  refine ⟨?_, fun looks child exited => holds.exited_own looks exited, ?_⟩
  · intro record returned good
    unfold Holds Invariant at holds
    rw [returned] at holds
    have sound := holds.1 _ rfl
    exact ⟨sound.once good, sound.own good⟩
  · intro misread
    unfold Holds Invariant at holds
    rw [misread] at holds
    exact holds

def sampleActions : List Action :=
  let go : Action := .fuzzer (.next false)
  let child : Action := .child .next
  -- the pid, the first iteration with its two swaps, and `DONE`
  [go, go, go, .server, .server, .server, .server, go, go, child, child, child, go, go] ++
    -- `RUN`, the second iteration, its status and `EXITED`
    [go, go, go, child, .child (.die 11), .server, .server, .server, go, go, go, go]

def plainRules : CrashRules := { guiMode := false, usesAsan := 0, crashExitcode := none }

theorem sample_runs_once :
    let sys := runFrom (step plainRules) System.initial sampleActions
    sys.stopSoon = false ∧ sys.fuzzer.pc = .returned (some ⟨.crash, some ⟨1, 11⟩, 1, some 1⟩) ∧
      sys.fuzzer.pc ≠ .misread :=
  ⟨rfl, rfl, (persistent_runs_once plainRules sampleActions rfl).2.2⟩

end AflPlusPlus.PersistentSync
