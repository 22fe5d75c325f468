/-
Whose deadline a timeout verdict is about.

`last_run_timed_out` is set when the deadline has passed, and the loop then looks at the
word once more.  If `DONE` is there by now the call returns OK and leaves the flag set, so
the next call that asks for no new child kills its child at the first look.

The runs here carry along whether the deadline of the current call has passed while
the word was not `DONE`; no process reads that.
-/

import AflPlusPlus.PersistentRuns

namespace AflPlusPlus.PersistentSync

open Machine

structure Watched where
  sys : System
  overdue : Bool
  deriving DecidableEq, Repr

def Watched.initial : Watched := { sys := System.initial, overdue := false }

def watch (rules : CrashRules) (watched : Watched) (act : Action) : Watched :=
  { sys := step rules watched.sys act
    overdue :=
      match watched.sys.fuzzer.pc, act with
      | .returned _, .fuzzer (.next _) => false
      | .futexWait, .fuzzer .timeout =>
        watched.overdue || decide (watched.sys.world.word ≠ .done)
      | _, _ => watched.overdue }

def System.Kills (sys : System) (act : Action) : Prop :=
  (∀ status, sys.world.child.pc ≠ .dead status) ∧
    (sys.fuzzer.pc = .killChild ∧ (∃ execFail, act = .fuzzer (.next execFail)) ∨
      sys.fuzzer.pc = .readStatus ∧ act = .fuzzer .timeout)

/-- A look at the word after the deadline does not find `DONE`. -/
def System.Prompt (sys : System) : Action → Prop
  | .fuzzer (.next _) => sys.fuzzer.pc = .waitLoad → sys.world.word = .done →
      sys.fuzzer.lastRunTimedOut = false
  | _ => True

instance System.Prompt.decidable (sys : System) (act : Action) :
    Decidable (sys.Prompt act) := by
  unfold System.Prompt
  split <;> infer_instance

def Punctual (fuzzer : Fuzzer) (w : World) (overdue : Bool) : Prop :=
  match fuzzer.pc with
  | .returned last =>
    (∀ record, last = some record → (record.result = .tmout → overdue = true) ∧
      (record.result = .ok → fuzzer.lastRunTimedOut = false)) ∧
    (fuzzer.childPid ≠ none → fuzzer.lastRunTimedOut = false)
  | .called => fuzzer.childPid ≠ none → fuzzer.lastRunTimedOut = false
  | .storeRun => fuzzer.lastRunTimedOut = false
  | .waitLoad => fuzzer.lastRunTimedOut = true → overdue = true ∨ w.word = .done
  | .futexWait => fuzzer.lastRunTimedOut = true → overdue = true ∨ w.word = .done
  | .storeExited => overdue = true
  | .killChild => overdue = true
  | .readStatus => (fuzzer.lastRunTimedOut = true → overdue = true) ∧
      (overdue = true ∨ ∃ status, w.child.pc = .dead status)
  | .storeIdle _ => fuzzer.lastRunTimedOut = true → overdue = true
  | .classify _ => fuzzer.lastRunTimedOut = true → overdue = true
  | .writeCtl => True
  | .readPid => fuzzer.lastRunTimedOut = false
  | .misread => True

/-- A `DONE` that the fuzzer waits for stays in the word, and a child that has died
stays dead until the next request. -/
structure Lasting (fuzzer : Fuzzer) (w next : World) : Prop where
  done : fuzzer.pc = .waitLoad ∨ fuzzer.pc = .futexWait → w.word = .done → next.word = .done
  dead : fuzzer.pc = .readStatus → (∃ status, w.child.pc = .dead status) →
    ∃ status, next.child.pc = .dead status

variable {w : World} {rules : CrashRules} {fuzzer : Fuzzer} {word : Word}

theorem Word.Busy.ne_done (busy : word.Busy) : word ≠ .done := by
  intro done
  subst done
  cases busy with
  | inl bad | inr bad => cases bad

private theorem Word.Busy.ne_exited (busy : word.Busy) (child : Nat) :
    word ≠ .exited child := by
  intro exited
  subst exited
  cases busy with
  | inl bad | inr bad => cases bad

private theorem Stage.dead_of_exited {forks reported started : Nat} {server : ServerPc}
    {child : Child}
    {rest : List Message} {ranBy : Option Nat}
    (stage : Stage forks server child word rest started ranBy) (exited : word = .exited reported) :
    ∃ status, child.pc = .dead status := by
  cases stage with
  | alive live =>
    cases live with
    | working busy | swapping busy expects => exact absurd exited (busy.ne_exited _)
    | finished | awaited => cases exited
    | died busy => exact ⟨_, rfl⟩
  | reaped busy | told busy | gone => exact ⟨_, rfl⟩

private theorem Serving.parked (serving : Serving [] w) (done : w.word = .done) :
    Parked w := by
  rcases serving.word_cases with busy | ⟨_, _, parked⟩ | ⟨exited, _⟩
  · exact absurd done busy.ne_done
  · exact parked
  · rw [done] at exited
    cases exited

variable (holds : Invariant fuzzer w)

include holds in
theorem Invariant.parked
    (waits : fuzzer.pc = .waitLoad ∨ fuzzer.pc = .futexWait) (done : w.word = .done) :
    Parked w := by
  unfold Invariant at holds
  cases waits with
  | inl loads =>
    rw [loads] at holds
    exact holds.2.parked done
  | inr sleeps =>
    rw [sleeps] at holds
    exact holds.2.parked done

private theorem Doomed.serverStep_child (doomed : Doomed w) :
    (PersistentSync.serverStep w).child = w.child := by
  obtain ⟨_, _, _, _, _, child, _, _⟩ := w
  obtain ⟨taken, _, ending⟩ := doomed
  dsimp only at taken ending
  subst taken
  cases ending with
  | alive fair =>
    unfold PersistentSync.serverStep
    dsimp only
    split <;> rfl
  | reaped | told | gone => rfl

include holds

private theorem Invariant.lasting_server :
    Lasting fuzzer w (serverStep w) where
  done := by
    intro waits done
    rw [(holds.parked waits done).serverStep]
    exact done
  dead := by
    intro reads dead
    unfold Invariant at holds
    rw [reads] at holds
    rw [holds.2.2.serverStep_child]
    exact dead

private theorem Invariant.lasting_child (act : ChildAction) :
    Lasting fuzzer w (childStep w act) where
  done := by
    intro waits done
    rw [(holds.parked waits done).childStep]
    exact done
  dead := by
    intro _ dead
    obtain ⟨status, died⟩ := dead
    rw [childStep_dead died]
    exact ⟨status, died⟩

omit holds

private theorem Punctual.lasting {w next : World} {overdue : Bool}
    (punctual : Punctual fuzzer w overdue) (lasting : Lasting fuzzer w next) :
    Punctual fuzzer next overdue := by
  unfold Punctual at punctual ⊢
  cases labelled : fuzzer.pc with
  | waitLoad =>
    rw [labelled] at punctual
    intro late
    exact (punctual late).imp_right (lasting.done (.inl labelled))
  | futexWait =>
    rw [labelled] at punctual
    intro late
    exact (punctual late).imp_right (lasting.done (.inr labelled))
  | readStatus =>
    rw [labelled] at punctual
    exact ⟨punctual.1, punctual.2.imp_right (lasting.dead labelled)⟩
  | returned | called | storeRun | storeExited | killChild | storeIdle | classify | writeCtl |
      readPid | misread =>
      rw [labelled] at punctual
      exact punctual

section FuzzerSteps

variable {sys : System} {overdue : Bool}

theorem punctual_entry (punctual : sys.fuzzer.childPid ≠ none → sys.fuzzer.lastRunTimedOut = false)
    (resting : Resting sys.fuzzer.childPid sys.world) :
    Punctual sys.entry.fuzzer sys.entry.world overdue := by
  unfold System.entry
  cases resting with
  | inl quiet =>
    rw [quiet.1]
    trivial
  | inr parked =>
    have clear : sys.fuzzer.lastRunTimedOut = false := by
      apply punctual
      rw [parked.1]
      exact Option.some_ne_none _
    rw [parked.1, parked.2.word]
    exact clear

variable (execFail : Bool)

private theorem punctual_waitLoad (running : sys.stopSoon = false)
    (known : sys.fuzzer.childPid = some sys.world.forks) (serving : Serving [] sys.world)
    (punctual : sys.fuzzer.lastRunTimedOut = true → overdue = true ∨ sys.world.word = .done)
    (prompt : sys.world.word = .done → sys.fuzzer.lastRunTimedOut = false) :
    Punctual (sys.waitLoad execFail).fuzzer (sys.waitLoad execFail).world overdue := by
  rcases serving.word_cases with busy | ⟨done, _, _⟩ | ⟨exited, _, _⟩
  · rw [waitLoad_of_busy _ running known busy]
    cases late : sys.fuzzer.lastRunTimedOut with
    | true => exact (punctual late).resolve_right busy.ne_done
    | false =>
      intro bad
      exact absurd (late.symm.trans bad) Bool.false_ne_true
  · have clear := prompt done
    unfold System.waitLoad
    rw [done]
    refine ⟨?_, fun _ => clear⟩
    intro record same
    cases same
    constructor
    · intro verdict
      cases execFail with
      | true | false => cases verdict
    · exact fun _ => clear
  · -- the fork server wrote `EXITED`, so the child is dead
    have dead : ∃ status, sys.world.child.pc = .dead status := by
      obtain ⟨_, _, _, stage⟩ := serving
      exact stage.dead_of_exited exited
    have own : sys.fuzzer.lastRunTimedOut = true → overdue = true := by
      intro late
      refine (punctual late).resolve_right ?_
      rw [exited]
      exact Word.noConfusion
    unfold System.waitLoad
    rw [exited]
    exact ⟨own, .inr dead⟩

private theorem punctual_takeStatus (labelled : sys.fuzzer.pc = .readStatus)
    (punctual : Punctual sys.fuzzer sys.world overdue) :
    Punctual sys.takeStatus.fuzzer sys.takeStatus.world overdue := by
  have read := punctual
  unfold Punctual at read
  rw [labelled] at read
  unfold System.takeStatus
  split
  · exact punctual
  · exact read.1
  · trivial

private theorem punctual_takePid (labelled : sys.fuzzer.pc = .readPid)
    (punctual : Punctual sys.fuzzer sys.world overdue) :
    Punctual sys.takePid.fuzzer sys.takePid.world overdue := by
  have clear := punctual
  unfold Punctual at clear
  rw [labelled] at clear
  unfold System.takePid
  split
  · exact punctual
  · intro late
    exact absurd (clear.symm.trans late) Bool.false_ne_true
  · trivial

private theorem verdict_flag {late execFail : Bool} {status : BitVec 32} :
    (System.verdict rules late execFail status = .tmout → late = true) ∧
      (System.verdict rules late execFail status = .ok → late = false) := by
  unfold System.verdict
  cases execFail with
  | true => simp
  | false =>
    cases late with
    | true => simp
    | false =>
      refine ⟨?_, fun _ => rfl⟩
      intro timeout
      simp only [Bool.false_eq_true, if_false] at timeout
      split at timeout <;> cases timeout

private theorem punctual_fuzzerNext (holds : Holds sys) (running : sys.stopSoon = false)
    (prompt : sys.Prompt (.fuzzer (.next execFail)))
    (punctual : Punctual sys.fuzzer sys.world overdue) :
    let next := watch rules ⟨sys, overdue⟩ (.fuzzer (.next execFail))
    Punctual next.sys.fuzzer next.sys.world next.overdue := by
  unfold Holds Invariant at holds
  have flagged := punctual
  unfold Punctual at flagged
  simp only [watch, step]
  unfold System.fuzzerNext
  cases labelled : sys.fuzzer.pc with
  | returned last =>
    rw [labelled] at flagged
    exact flagged.2
  | called =>
    rw [labelled] at flagged holds
    exact punctual_entry flagged holds.2
  | storeRun =>
    rw [labelled] at flagged
    intro late
    exact absurd (flagged.symm.trans late) Bool.false_ne_true
  | waitLoad =>
    rw [labelled] at flagged holds
    exact punctual_waitLoad _ running holds.1 holds.2 flagged (prompt labelled)
  | futexWait | storeExited | storeIdle status =>
    rw [labelled] at flagged
    exact flagged
  | killChild =>
    rw [labelled] at flagged
    exact ⟨fun _ => flagged, .inl flagged⟩
  | readStatus => exact punctual_takeStatus labelled punctual
  | classify status =>
    rw [labelled] at flagged holds
    refine ⟨?_, fun known => absurd holds.2.1 known⟩
    intro record same
    cases same
    exact ⟨fun verdict => flagged (verdict_flag.1 verdict), verdict_flag.2⟩
  | writeCtl => rfl
  | readPid => exact punctual_takePid labelled punctual
  | misread =>
    trivial

private theorem kill_fuzzer (sys : System) : sys.kill.fuzzer = sys.fuzzer := by
  unfold System.kill
  split <;> rfl

private theorem punctual_fuzzerTimeout (punctual : Punctual sys.fuzzer sys.world overdue) :
    let next := watch rules ⟨sys, overdue⟩ (.fuzzer .timeout)
    Punctual next.sys.fuzzer next.sys.world next.overdue := by
  simp only [watch, step]
  unfold System.fuzzerTimeout
  cases labelled : sys.fuzzer.pc with
  | futexWait =>
    intro _
    by_cases done : sys.world.word = .done
    · exact .inr done
    · exact .inl (by simp [done])
  | readStatus =>
    have read := punctual
    unfold Punctual at read ⊢
    rw [labelled] at read
    dsimp only
    rw [kill_fuzzer, labelled]
    refine ⟨read.1, read.2.imp_right ?_⟩
    intro dead
    unfold System.kill
    split <;> exact dead
  | returned | called | storeRun | waitLoad | storeExited | killChild | storeIdle | classify |
      writeCtl | readPid | misread => exact punctual

end FuzzerSteps

variable {watched : Watched} {act : Action}

private theorem watch_overdue
    (steps : ∀ execFail, act ≠ .fuzzer (.next execFail)) (waits : act ≠ .fuzzer .timeout) :
    (watch rules watched act).overdue = watched.overdue := by
  unfold watch
  split
  · exact absurd rfl (steps _)
  · exact absurd rfl waits
  · rfl

private theorem punctual_step (holds : Holds watched.sys)
    (running : watched.sys.stopSoon = false) (prompt : watched.sys.Prompt act)
    (punctual : Punctual watched.sys.fuzzer watched.sys.world watched.overdue) :
    let next := watch rules watched act
    Punctual next.sys.fuzzer next.sys.world next.overdue := by
  cases act with
  | fuzzer move =>
    cases move with
    | next execFail => exact punctual_fuzzerNext _ holds running prompt punctual
    | timeout => exact punctual_fuzzerTimeout punctual
    | interrupt =>
      dsimp only
      rw [watch_overdue (fun _ => by simp) (by simp)]
      simp only [watch, step, System.fuzzerInterrupt, if_pos running]
      exact punctual
  | server =>
    dsimp only
    rw [watch_overdue (fun _ => by simp) (by simp)]
    exact punctual.lasting (Invariant.lasting_server holds)
  | child move =>
    dsimp only
    rw [watch_overdue (fun _ => by simp) (by simp)]
    exact punctual.lasting (Invariant.lasting_child holds _)
  | stop =>
    dsimp only
    rw [watch_overdue (fun _ => by simp) (by simp)]
    exact punctual

private theorem punctual_initial :
    Punctual Watched.initial.sys.fuzzer Watched.initial.sys.world Watched.initial.overdue := by
  refine ⟨?_, fun known => absurd rfl known⟩
  intro record bad
  cases bad

private theorem punctual_of_run (rules : CrashRules) (acts : List Action)
    (prompt : Along (watch rules) (fun watched act => watched.sys.Prompt act) Watched.initial acts)
    (running : (runFrom (watch rules) Watched.initial acts).sys.stopSoon = false) :
    let now := runFrom (watch rules) Watched.initial acts
    Holds now.sys ∧ Punctual now.sys.fuzzer now.sys.world now.overdue := by
  have kept := runFrom_invariant (fun watched : Watched => watched.sys.stopSoon = false →
      Holds watched.sys ∧ Punctual watched.sys.fuzzer watched.sys.world watched.overdue)
    (fun watched act pre admitted post => by
      have running := stopSoon_step post
      obtain ⟨holds, punctual⟩ := pre running
      exact ⟨holds.step _ _ post, punctual_step holds running admitted punctual⟩)
    Watched.initial (fun _ => ⟨holds_initial, punctual_initial⟩) _ prompt
  exact kept running

/-- In every interleaving without a stop request in which no call finds `DONE` after its
deadline, timeouts and signals are for a child that was not done by the deadline of the
call, and a call that returned OK leaves no timeout behind. -/
theorem timeout_own_deadline (rules : CrashRules) (acts : List Action)
    (prompt : Along (watch rules) (fun watched act => watched.sys.Prompt act) Watched.initial acts)
    (running : (runFrom (watch rules) Watched.initial acts).sys.stopSoon = false) :
    let now := runFrom (watch rules) Watched.initial acts
    (∀ record, now.sys.fuzzer.pc = .returned (some record) →
      (record.result = .tmout → now.overdue = true) ∧
        (record.result = .ok → now.sys.fuzzer.lastRunTimedOut = false)) ∧
      ∀ act, now.sys.Kills act → now.overdue = true := by
  intro now
  obtain ⟨_, punctual⟩ := punctual_of_run rules acts prompt running
  unfold Punctual at punctual
  constructor
  · intro record returned
    rw [returned] at punctual
    exact punctual.1 _ rfl
  · intro act kills
    obtain ⟨alive, ⟨kill, _⟩ | ⟨reads, _⟩⟩ := kills
    · rw [kill] at punctual
      exact punctual
    · rw [reads] at punctual
      refine punctual.2.resolve_right ?_
      intro dead
      obtain ⟨_, died⟩ := dead
      exact alive _ died

/-- A first call that starts a child and returns OK; `waits` is what happens between
its going to sleep and its last look. -/
def firstCall (waits : List Action) : List Action :=
  let go : Action := .fuzzer (.next false)
  [go, go, go, .server, .server, .server, .server, go, go] ++ waits ++ [go]

/-- A second call over the same child, which is killed on its way and whose status is
read; `waits` is what happens until the decision to kill. -/
def killingCall (waits : List Action) : List Action :=
  let go : Action := .fuzzer (.next false)
  [go, go, go, .child .next] ++ waits ++
    [go, go, go, .child (.die 9), .server, .server, .server, go, go, go]

def lateDone : List Action :=
  [.fuzzer .timeout, .child .next, .child .next, .child .next]

def ownTimeout : List Action :=
  firstCall [.child .next, .child .next, .child .next, .fuzzer (.next false)] ++
    killingCall [.fuzzer (.next false), .fuzzer .timeout]

theorem timeout_own_deadline_sample :
    Along (watch plainRules) (fun watched act => watched.sys.Prompt act)
        Watched.initial ownTimeout ∧
      let watched := runFrom (watch plainRules) Watched.initial ownTimeout
      watched.sys.fuzzer.pc = .returned (some ⟨.tmout, some ⟨1, 9⟩, 1, some 1⟩) ∧
      watched.overdue = true := by
  have prompt : Along (watch plainRules) (fun watched act => watched.sys.Prompt act)
      Watched.initial ownTimeout := by decide
  exact ⟨prompt, rfl, ((timeout_own_deadline plainRules ownTimeout prompt rfl).1 _ rfl).1 rfl⟩

/-- Without that condition: the first call returns OK and its deadline makes the
second one kill the child and report a timeout, before its own deadline. -/
theorem late_done_kills_next :
    let first := runFrom (watch plainRules) Watched.initial (firstCall lateDone)
    let second := runFrom (watch plainRules) first (killingCall [])
    first.sys.fuzzer.pc = .returned (some ⟨.ok, none, 1, some 1⟩) ∧
      second.sys.fuzzer.pc = .returned (some ⟨.tmout, some ⟨1, 9⟩, 1, some 1⟩) ∧
      second.overdue = false ∧ second.sys.stopSoon = false := by
  decide

end AflPlusPlus.PersistentSync
