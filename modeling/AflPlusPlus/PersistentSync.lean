/-
Persistent runs over the sync word.

Three kinds of processes share one word of memory: the fuzzer, the fork server loop of the
target, and one persistent child after another.  Two pipes run between the fuzzer and the
fork server.  An action is one atomic step of one process; a blocked process does nothing.

A child is named by its number.  The names in `EXITED` values and in pipe messages, and the
count of the iterations, are there for the statements only; no process reads them.
-/

import AflPlusPlus.Calibration

namespace AflPlusPlus.PersistentSync

open Machine

/-- `afl_child_state_t`, where `EXITED` bears the child it is about. -/
inductive Word where
  | idle
  | run
  | done
  | exited (child : Nat)
  deriving DecidableEq, Repr

structure WaitStatus where
  child : Nat
  value : BitVec 32
  deriving DecidableEq, Repr

inductive Message where
  | pid (child : Nat)
  | status (status : WaitStatus)
  deriving DecidableEq, Repr

/-- `running`: in an iteration.  `swapping`: in the compare-and-swap loop behind it,
with the value of `expected`.  `waiting`: behind the swap, for the next iteration. -/
inductive ChildPc where
  | running
  | swapping (expected : Word)
  | waiting
  | dead (status : BitVec 32)
  deriving DecidableEq, Repr

structure Child where
  pc : ChildPc
  signalled : Bool
  deriving DecidableEq, Repr

inductive ServerPc where
  | readCtl
  | storeIdle
  | fork
  | writePid
  | waitpid
  | writeStatus (status : BitVec 32)
  | storeExited
  deriving DecidableEq, Repr

/-- Everything but the fuzzer.  The latest child has the number `forks`. -/
structure World where
  word : Word
  ctl : List Bool
  st : List Message
  server : ServerPc
  forks : Nat
  child : Child
  started : Nat
  ranBy : Option Nat
  deriving DecidableEq, Repr

def World.start (w : World) : World :=
  { w with started := w.started + 1, ranBy := some w.forks }

/-- One round of the fork server loop.  Children do not stop themselves when there
is a sync word, so `child_stopped` stays 0. -/
def serverStep (w : World) : World :=
  match w.server with
  | .readCtl =>
    match w.ctl with
    | [] => w
    | _ :: rest => { w with ctl := rest, server := .storeIdle }
  | .storeIdle => { w with word := .idle, server := .fork }
  | .fork =>
    World.start { w with
      forks := w.forks + 1, child := ⟨.running, false⟩, server := .writePid }
  | .writePid => { w with st := w.st ++ [.pid w.forks], server := .waitpid }
  | .waitpid =>
    match w.child.pc with
    | .dead status => { w with server := .writeStatus status }
    | _ => w
  | .writeStatus status =>
    { w with st := w.st ++ [.status ⟨w.forks, status⟩], server := .storeExited }
  | .storeExited => { w with word := .exited w.forks, server := .readCtl }

inductive ChildAction where
  | next
  | die (status : BitVec 32)
  deriving DecidableEq, Repr

def World.enter (w : World) (pc : ChildPc) : World :=
  { w with child := { w.child with pc := pc } }

/-- `next` ends an iteration that is not the last of the child, and goes on from
there.  A child dies at any point of an iteration.  While it waits it dies of a
signal of the fuzzer only. -/
def childStep (w : World) : ChildAction → World
  | .next =>
    match w.child.pc with
    | .running => w.enter (.swapping .run)
    | .swapping expected =>
      if w.word = expected then World.enter { w with word := .done } .waiting
      else
        match w.word with
        | .exited _ => w.enter (.dead 0)
        | found => w.enter (.swapping found)
    | .waiting =>
      match w.word with
      | .done => w
      | .exited _ => w.enter (.dead 0)
      | _ => (w.enter .running).start
    | .dead _ => w
  | .die status =>
    match w.child.pc with
    | .running => w.enter (.dead status)
    | .swapping _ => w.enter (.dead status)
    | .waiting => if w.child.signalled then w.enter (.dead status) else w
    | .dead _ => w

structure CrashRules where
  guiMode : Bool
  usesAsan : BitVec 8
  crashExitcode : Option (BitVec 8)

def wtermsig (status : BitVec 32) : BitVec 32 := status &&& 0x7f

def wifsignaled (status : BitVec 32) : Bool :=
  decide (wtermsig status ≠ 0 ∧ wtermsig status ≠ 0x7f)

def wexitstatus (status : BitVec 32) : BitVec 8 := (status >>> 8).setWidth 8

/-- 2 and 15 are SIGINT and SIGTERM, 86 and 23 the exit codes of MSAN and LSAN. -/
def CrashRules.crashed (rules : CrashRules) (status : BitVec 32) : Bool :=
  (wifsignaled status && (!rules.guiMode || (wtermsig status != 2 && wtermsig status != 15))) ||
    (rules.usesAsan &&& 4 != 0 && wexitstatus status == 86) ||
    (rules.usesAsan &&& 2 != 0 && wexitstatus status == 23) ||
    rules.crashExitcode == some (wexitstatus status)

/-- A call that has returned: its result, the wait status that it classified, and the
iterations that were started since it was made, with the child of the last one. -/
structure Returned where
  result : Fault
  classified : Option WaitStatus
  started : Nat
  ranBy : Option Nat
  deriving DecidableEq, Repr

/-- Where the fuzzer stands.  `called`: before the first look at the word.
`waitLoad`: at the load in `afl_futex_wait`.  `misread`: a message of the wrong kind
was taken for the status or for the pid. -/
inductive FuzzerPc where
  | returned (last : Option Returned)
  | called
  | storeRun
  | waitLoad
  | futexWait
  | storeExited
  | killChild
  | readStatus
  | storeIdle (childStatus : WaitStatus)
  | classify (childStatus : WaitStatus)
  | writeCtl
  | readPid
  | misread
  deriving DecidableEq, Repr

structure Fuzzer where
  pc : FuzzerPc
  childPid : Option Nat
  lastRunTimedOut : Bool
  deriving DecidableEq, Repr

/-- `timeout`: the futex deadline, or the grace time for the status.  `interrupt`: a
pipe operation is broken off.  `next` carries whether the map shows `EXEC_FAIL_SIG`. -/
inductive FuzzerAction where
  | next (execFail : Bool)
  | timeout
  | interrupt
  deriving DecidableEq, Repr

structure System where
  fuzzer : Fuzzer
  world : World
  stopSoon : Bool
  deriving DecidableEq, Repr

namespace System

def goto (sys : System) (pc : FuzzerPc) : System :=
  { sys with fuzzer := { sys.fuzzer with pc := pc } }

def store (sys : System) (word : Word) (pc : FuzzerPc) : System :=
  { sys with fuzzer := { sys.fuzzer with pc := pc }, world := { sys.world with word := word } }

def leave (sys : System) (res : Fault) (classified : Option WaitStatus) : System :=
  sys.goto (.returned (some
    { result := res, classified := classified
      started := sys.world.started, ranBy := sys.world.ranBy }))

/-- `kill(fsrv->child_pid, …)`, which reaches the latest child or nothing. -/
def kill (sys : System) : System :=
  if sys.fuzzer.childPid = some sys.world.forks then
    { sys with world := { sys.world with child := { sys.world.child with signalled := true } } }
  else sys

/-- The first look at the word, for a child that is believed to be alive. -/
def entry (sys : System) : System :=
  match sys.fuzzer.childPid with
  | none => sys.goto .writeCtl
  | some _ =>
    match sys.world.word with
    | .exited _ => sys.goto .readStatus
    | _ => sys.goto .storeRun

def waitLoad (sys : System) (execFail : Bool) : System :=
  match sys.world.word with
  | .done => sys.leave (if execFail then .error else .ok) none
  | .exited _ => sys.goto .readStatus
  | _ =>
    if sys.fuzzer.lastRunTimedOut ∨ sys.stopSoon then
      match sys.fuzzer.childPid with
      | none => sys.goto .readStatus
      | some _ => sys.goto .storeExited
    else sys.goto .futexWait

def takeStatus (sys : System) : System :=
  match sys.world.st with
  | [] => sys
  | .status status :: rest =>
    System.goto { sys with world := { sys.world with st := rest } } (.storeIdle status)
  | .pid _ :: _ => sys.goto .misread

def takePid (sys : System) : System :=
  match sys.world.st with
  | [] => sys
  | .pid child :: rest =>
    { sys with
      fuzzer := { sys.fuzzer with pc := .waitLoad, childPid := some child }
      world := { sys.world with st := rest } }
  | .status _ :: _ => sys.goto .misread

/-- `classify_result` -/
def verdict (rules : CrashRules) (lastRunTimedOut execFail : Bool) (status : BitVec 32) : Fault :=
  if execFail then .error
  else if lastRunTimedOut then .tmout
  else if rules.crashed status then .crash
  else .ok

def fuzzerNext (rules : CrashRules) (sys : System) (execFail : Bool) : System :=
  match sys.fuzzer.pc with
  | .returned _ =>
    System.goto { sys with world := { sys.world with started := 0, ranBy := none } } .called
  | .called => sys.entry
  | .storeRun => sys.store .run .waitLoad
  | .waitLoad => sys.waitLoad execFail
  -- woken, for whatever reason: the loop looks at the word again
  | .futexWait => sys.goto .waitLoad
  | .storeExited => sys.store (.exited (sys.fuzzer.childPid.getD 0)) .killChild
  | .killChild => sys.kill.goto .readStatus
  | .readStatus => sys.takeStatus
  | .storeIdle childStatus =>
    { sys with
      fuzzer := { sys.fuzzer with pc := .classify childStatus, childPid := none }
      world := { sys.world with word := .idle } }
  | .classify childStatus =>
    sys.leave (verdict rules sys.fuzzer.lastRunTimedOut execFail childStatus.value)
      (some childStatus)
  | .writeCtl =>
    { sys with
      fuzzer := { sys.fuzzer with pc := .readPid, lastRunTimedOut := false }
      world := { sys.world with ctl := sys.world.ctl ++ [sys.fuzzer.lastRunTimedOut] } }
  | .readPid => sys.takePid
  | .misread => sys

def fuzzerTimeout (sys : System) : System :=
  match sys.fuzzer.pc with
  | .futexWait =>
    { sys with fuzzer := { sys.fuzzer with pc := .waitLoad, lastRunTimedOut := true } }
  -- `FORKSRV_KILL_GRACE_MS` is over: SIGKILL
  | .readStatus => sys.kill
  | _ => sys

/-- `if (*stop_soon_p) { return 0; }` behind a pipe operation that failed. -/
def fuzzerInterrupt (sys : System) : System :=
  if sys.stopSoon = false then sys
  else
    match sys.fuzzer.pc with
    | .writeCtl => sys.leave .ok none
    | .readPid => sys.leave .ok none
    | .readStatus => sys.leave .ok none
    | _ => sys

end System

inductive Action where
  | fuzzer (act : FuzzerAction)
  | server
  | child (act : ChildAction)
  | stop
  deriving DecidableEq, Repr

def step (rules : CrashRules) (sys : System) : Action → System
  | .fuzzer (.next execFail) => sys.fuzzerNext rules execFail
  | .fuzzer .timeout => sys.fuzzerTimeout
  | .fuzzer .interrupt => sys.fuzzerInterrupt
  | .server => { sys with world := serverStep sys.world }
  | .child act => { sys with world := childStep sys.world act }
  | .stop => { sys with stopSoon := true }

/-- Behind the handshake: no child yet, and the word was set to `IDLE`. -/
def System.initial : System :=
  { fuzzer := { pc := .returned none, childPid := none, lastRunTimedOut := false }
    world :=
      { word := .idle, ctl := [], st := [], server := .readCtl, forks := 0
        child := ⟨.dead 0, false⟩, started := 0, ranBy := none }
    stopSoon := false }

/-- In this state the fuzzer's next step looks at the word and acts on what it finds. -/
def System.LooksAtWord (sys : System) : Prop :=
  sys.fuzzer.pc = .waitLoad ∨ sys.fuzzer.pc = .called ∧ sys.fuzzer.childPid ≠ none

end AflPlusPlus.PersistentSync
