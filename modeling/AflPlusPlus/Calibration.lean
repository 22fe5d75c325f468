/-
Calibration of a queue entry.

`calibrate_case` runs one entry several times, records what varies, and scores
the entry when no run went wrong.  What the target does is a stream of runs
that the caller supplies; the fuzzer's side of it is translated as it stands.
-/

import AflPlusPlus.CoverageNovelty
import AflPlusPlus.QueueRun

namespace AflPlusPlus

open Machine
open Machine.LaneWord

inductive Fault where
  | ok
  | tmout
  | crash
  | error
  | noinst
  | nobits
  deriving DecidableEq, Repr

structure AflEnv where
  aflCalFast : Bool
  aflKeepTimeouts : Bool
  aflIgnoreTimeouts : Bool

inductive SanAbstraction where
  | simplifyTrace
  | coverageIncrease
  | uniqueTrace
  deriving DecidableEq, Repr

/-- The fuzzer state, as far as calibration and the saving of inputs read it.
`crash_mode` is either off or `FSRV_RUN_CRASH`. -/
structure Afl where
  coverage : Coverage
  queue : Queue
  env : AflEnv
  crashMode : Bool
  cmplogMode : Bool
  stopSoon : Bool
  execTmout : BitVec 32
  hangTmout : BitVec 32
  varBytes : Buffer
  firstTrace : Buffer
  cleanTrace : Buffer
  varByteCount : Nat
  queuedWithCov : Nat
  queuedVariable : Nat
  totalCalUs : BitVec 64
  totalCalCycles : Nat
  totalBitmapSize : Nat
  totalBitmapEntries : Nat
  slowestExecMs : BitVec 32
  fsrvC11 : Bool
  c11 : BitVec 32
  fuzzMode : Bool
  switchFuzzMode : Bool
  totalTmouts : Nat
  savedTmouts : Nat
  savedHangs : Nat
  totalCrashes : Nat
  savedCrashes : Nat
  sanBinaryLength : Nat
  sanAbstraction : SanAbstraction
  simplifiedNFuzz : BitVec 32 → Bool
  nFuzzDup : BitVec 32 → Bool

/-- The state before the first input, in the normal mode and without sanitizer
binaries. -/
def Afl.initial (coverage : Coverage) (queue : Queue) (env : AflEnv)
    (execTmout hangTmout : BitVec 32) : Afl where
  coverage := coverage
  queue := queue
  env := env
  crashMode := false
  cmplogMode := false
  stopSoon := false
  execTmout := execTmout
  hangTmout := hangTmout
  varBytes := fun _ => 0
  firstTrace := fun _ => 0
  cleanTrace := fun _ => 0
  varByteCount := 0
  queuedWithCov := 0
  queuedVariable := 0
  totalCalUs := 0
  totalCalCycles := 0
  totalBitmapSize := 0
  totalBitmapEntries := 0
  slowestExecMs := 0
  fsrvC11 := false
  c11 := 0
  fuzzMode := false
  switchFuzzMode := false
  totalTmouts := 0
  savedTmouts := 0
  savedHangs := 0
  totalCrashes := 0
  savedCrashes := 0
  sanBinaryLength := 0
  sanAbstraction := .simplifyTrace
  simplifiedNFuzz := fun _ => false
  nFuzzDup := fun _ => false

def Afl.expected (afl : Afl) : Fault := if afl.crashMode then .crash else .ok

/-- One execution of the target: its outcome, the trace it leaves and whether
`stop_soon` is set when it is over. -/
structure TargetRun where
  fault : Fault
  trace : Buffer
  stopSoon : Bool

def Afl.withCoverage (afl : Afl) (coverage : Coverage) : Afl := { afl with coverage := coverage }

def Afl.withQueue (afl : Afl) (queue : Queue) : Afl := { afl with queue := queue }

def Afl.modifyEntry (afl : Afl) (q : Nat) (change : QueueEntry → QueueEntry) : Afl :=
  afl.withQueue (afl.queue.modify q change)

def fuzzRunTarget (run : TargetRun) (afl : Afl) : Afl :=
  { afl with coverage := afl.coverage.withTrace run.trace, stopSoon := run.stopSoon }

variable (size : WordSize) (hash64 : Buffer → BitVec 64)

def Afl.classify (afl : Afl) : Afl :=
  afl.withCoverage { afl.coverage with fsrv := classifyCounts size afl.coverage.fsrv }

/-- `count_bytes` reads the map in words of four bytes. -/
def countBytes (fsrv : Fsrv) (mem : Buffer) : Nat :=
  forUpto ((fsrv.realMapSize + 3) >>> 2) (fun i ret =>
    let v := load 4 mem (4 * i)
    if v = 0 then ret
    else
      let ret := if v &&& 0x000000ff ≠ 0 then ret + 1 else ret
      let ret := if v &&& 0x0000ff00 ≠ 0 then ret + 1 else ret
      let ret := if v &&& 0x00ff0000 ≠ 0 then ret + 1 else ret
      if v &&& 0xff000000 ≠ 0 then ret + 1 else ret) 0

def copyMap (mapSize : Nat) (dst src : Buffer) : Buffer :=
  fun i => if i < mapSize then src i else dst i

def calCyclesFast : Nat := 3

def calCycles : Nat := 7

def calCyclesLong : Nat := 12

def calChances : BitVec 8 := 3

/-- The locals of `calibrate_case` that live across its loop. -/
structure CalState where
  afl : Afl
  fault : Fault
  newBits : Nat
  varDetected : Bool
  stageMax : Nat

/-- `has_new_bits(virgin_bits)`, with the larger verdict kept. -/
def CalState.noteNewBits (s : CalState) : CalState :=
  let hnb := hasNewBits size s.afl.coverage .bits
  { s with
    afl := s.afl.withCoverage hnb.2
    newBits := if hnb.1 > s.newBits then hnb.1 else s.newBits }

/-- A byte that differs from the first trace is variable from now on, and the
map of new bits takes it as fully discovered. -/
def Afl.markVariableBytes (afl : Afl) : Afl :=
  forUpto afl.coverage.fsrv.mapSize (fun i cur =>
    if cur.varBytes i = 0 ∧ cur.firstTrace i ≠ cur.coverage.fsrv.traceBits i then
      { cur with
        varBytes := Function.update cur.varBytes i 1
        coverage := { cur.coverage with
          virginBits := Function.update cur.coverage.virginBits i 0 } }
    else cur) afl

def Afl.saveFirstTrace (afl : Afl) : Afl :=
  { afl with
    firstTrace := copyMap afl.coverage.fsrv.mapSize afl.firstTrace afl.coverage.fsrv.traceBits }

def QueueEntry.withCksum (cksum : BitVec 64) (entry : QueueEntry) : QueueEntry :=
  { entry with execCksum := cksum }

def CalState.compare (q : Nat) (s : CalState) : CalState :=
  let execCksum := (s.afl.queue.queueBuf q).execCksum
  let cksum := hash64 s.afl.coverage.fsrv.traceBits
  if execCksum = cksum then s
  else
    let noted := s.noteNewBits size
    if execCksum ≠ 0 then
      { noted with
        afl := noted.afl.markVariableBytes
        varDetected := true
        stageMax := if noted.afl.env.aflCalFast then calCycles else calCyclesLong }
    else
      { noted with
        afl := (noted.afl.modifyEntry q (QueueEntry.withCksum cksum)).saveFirstTrace }

inductive CalNext where
  | abort (s : CalState)
  | leave (s : CalState)
  | again (s : CalState)

def calibrateRun (q earlySkip stageCur : Nat) (run : TargetRun) (s : CalState) : CalNext :=
  let ran := fuzzRunTarget run s.afl
  if ran.stopSoon ∨ run.fault ≠ ran.expected then
    .abort { s with afl := ran, fault := run.fault }
  else if !ran.queue.nonInstrumentedMode ∧
      countBytes ran.coverage.fsrv ran.coverage.fsrv.traceBits = 0 then
    .abort { s with afl := ran, fault := .noinst }
  else
    let compared := { s with afl := ran.classify size, fault := run.fault }.compare size hash64 q
    if !compared.varDetected ∧ earlySkip ≤ stageCur then .leave compared else .again compared

/-- The loop from stage `stage_cur` on.  `stage_max` never exceeds
`CAL_CYCLES_LONG`, so with that many rounds the loop condition ends the loop.
The number is the value of `stage_cur` behind the loop, absent after a jump to
`abort_calibration`. -/
def calibrateFrom (size : WordSize) (hash64 : Buffer → BitVec 64) (runs : Nat → TargetRun)
    (q earlySkip : Nat) : Nat → Nat → CalState → Option Nat × CalState
  | 0, stageCur, s => (some stageCur, s)
  | rounds + 1, stageCur, s =>
    if stageCur < s.stageMax then
      match calibrateRun size hash64 q earlySkip stageCur (runs stageCur) s with
      | .abort stopped => (none, stopped)
      | .leave left => (some (stageCur + 1), left)
      | .again next => calibrateFrom size hash64 runs q earlySkip rounds (stageCur + 1) next
    else (some stageCur, s)

/-- What the outside supplies for one calibration: the runs, and the time they
took by the clock. -/
structure CalOutcome where
  runs : Nat → TargetRun
  elapsedUs : BitVec 64

def QueueEntry.attempted (cmplogMode : Bool) (entry : QueueEntry) : QueueEntry :=
  { entry with
    execCksum := if cmplogMode then 0 else entry.execCksum
    calFailed := entry.calFailed + 1 }

def calibrateStart (q : Nat) (afl : Afl) : CalState :=
  let begun := afl.modifyEntry q (QueueEntry.attempted afl.cmplogMode)
  let s : CalState :=
    { afl := begun
      fault := .ok
      newBits := 0
      varDetected := false
      stageMax := if afl.env.aflCalFast then calCyclesFast else calCycles }
  if (begun.queue.queueBuf q).execCksum ≠ 0 then
    { s with afl := begun.saveFirstTrace }.noteNewBits size
  else s

def CalOutcome.diffUs (out : CalOutcome) (stageCur : Nat) (afl : Afl) : BitVec 64 :=
  if afl.queue.fixedSeed then (afl.execTmout - 1).setWidth 64 * BitVec.ofNat 64 stageCur
  else if out.elapsedUs = 0 then 1
  else out.elapsedUs

/-- `exec_us` is never left at zero. -/
def averageUs (diffUs : BitVec 64) (stageCur : Nat) : BitVec 64 :=
  if diffUs / BitVec.ofNat 64 stageCur = 0 then 1 else diffUs / BitVec.ofNat 64 stageCur

def QueueEntry.measured (execUs : BitVec 64) (bitmapSize : Nat) (handicap : BitVec 32)
    (entry : QueueEntry) : QueueEntry :=
  { entry with
    execUs := execUs
    bitmapSize := bitmapSize
    handicap := handicap.setWidth 64
    calFailed := 0 }

def calibrateScore (out : CalOutcome) (q : Nat) (handicap : BitVec 32) (firstRun : Bool)
    (stageCur : Nat) (s : CalState) : CalState :=
  let afl := s.afl
  let diffUs := out.diffUs stageCur afl
  let execUs := averageUs diffUs stageCur
  let execMs := ((execUs + 500) / 1000).setWidth 32
  let bitmapSize := countBytes afl.coverage.fsrv afl.coverage.fsrv.traceBits
  let counted :=
    { afl.modifyEntry q (QueueEntry.measured execUs bitmapSize handicap) with
      totalCalUs := afl.totalCalUs + diffUs
      totalCalCycles := afl.totalCalCycles + stageCur
      slowestExecMs := if execMs > afl.slowestExecMs then execMs else afl.slowestExecMs
      totalBitmapSize := afl.totalBitmapSize + bitmapSize
      totalBitmapEntries := afl.totalBitmapEntries + 1 }
  { s with
    afl := counted.withQueue (updateBitmapScore counted.coverage.fsrv q true counted.queue)
    fault :=
      if !afl.queue.nonInstrumentedMode ∧ firstRun ∧ s.fault = .ok ∧ s.newBits = 0 then
        .nobits
      else s.fault }

def QueueEntry.markNewCov (entry : QueueEntry) : QueueEntry := { entry with hasNewCov := true }

def QueueEntry.markVariable (entry : QueueEntry) : QueueEntry := { entry with varBehavior := true }

/-- The first look behind `abort_calibration`: new coverage is credited once. -/
def creditNewCov (q newBits : Nat) (afl : Afl) : Afl :=
  if newBits = 2 ∧ (afl.queue.queueBuf q).hasNewCov = false then
    { afl.modifyEntry q QueueEntry.markNewCov with queuedWithCov := afl.queuedWithCov + 1 }
  else afl

def markAsVariable (q : Nat) (afl : Afl) : Afl :=
  { afl.modifyEntry q QueueEntry.markVariable with
    varByteCount := countBytes afl.coverage.fsrv afl.varBytes
    queuedVariable :=
      if (afl.queue.queueBuf q).varBehavior then afl.queuedVariable else afl.queuedVariable + 1 }

def calibrateEnd (q : Nat) (s : CalState) : Afl :=
  let covered := creditNewCov q s.newBits s.afl
  if s.varDetected then markAsVariable q covered else covered

/-- `early_skip`, from the value that `stage_max` starts with. -/
def CalState.earlySkip (s : CalState) : Nat := if s.stageMax > 3 then 3 else 2

def calibrateCase (out : CalOutcome) (q : Nat) (handicap : BitVec 32) (afl : Afl) :
    Fault × Afl :=
  let firstRun := (afl.queue.queueBuf q).execCksum == 0
  let start := calibrateStart size q afl
  match calibrateFrom size hash64 out.runs q start.earlySkip calCyclesLong 0 start with
  | (none, stopped) => (stopped.fault, calibrateEnd q stopped)
  | (some stageCur, ended) =>
    let scored := calibrateScore out q handicap firstRun stageCur ended
    (scored.fault, calibrateEnd q scored)

/-- Only entry `q` of the queue changes. -/
structure EntryFrame (q : Nat) (pre post : Queue) : Prop where
  rest : post = { pre with queueBuf := post.queueBuf }
  others : ∀ e, e ≠ q → post.queueBuf e = pre.queueBuf e

variable (size : WordSize) (q : Nat) (hash64 : Buffer → BitVec 64)
variable (runs : Nat → TargetRun) (afl : Afl) (queue : Queue)

theorem EntryFrame.refl : EntryFrame q queue queue := ⟨rfl, fun _ _ => rfl⟩

theorem EntryFrame.trans {q : Nat} {first second third : Queue} (left : EntryFrame q first second)
    (right : EntryFrame q second third) : EntryFrame q first third where
  rest := by rw [right.rest, left.rest]
  others := by
    intro e ne
    exact (right.others e ne).trans (left.others e ne)

theorem EntryFrame.modify (change : QueueEntry → QueueEntry) :
    EntryFrame q queue (queue.modify q change) :=
  ⟨rfl, fun _ ne => Queue.modify_of_ne ne⟩

structure CalFrame (pre post : Afl) : Prop where
  rest : post = { pre with
    coverage := post.coverage
    queue := post.queue
    stopSoon := post.stopSoon
    varBytes := post.varBytes
    firstTrace := post.firstTrace
    varByteCount := post.varByteCount
    queuedWithCov := post.queuedWithCov
    queuedVariable := post.queuedVariable
    totalCalUs := post.totalCalUs
    totalCalCycles := post.totalCalCycles
    totalBitmapSize := post.totalBitmapSize
    totalBitmapEntries := post.totalBitmapEntries
    slowestExecMs := post.slowestExecMs }
  mapSize : post.coverage.fsrv.mapSize = pre.coverage.fsrv.mapSize
  realMapSize : post.coverage.fsrv.realMapSize = pre.coverage.fsrv.realMapSize

theorem CalFrame.refl : CalFrame afl afl := ⟨rfl, rfl, rfl⟩

variable {first second third : Afl}

theorem CalFrame.trans (left : CalFrame first second) (right : CalFrame second third) :
    CalFrame first third where
  rest := by rw [right.rest, left.rest]
  mapSize := right.mapSize.trans left.mapSize
  realMapSize := right.realMapSize.trans left.realMapSize

structure LoopFrame (q : Nat) (pre post : Afl) : Prop where
  frame : CalFrame pre post
  queue : EntryFrame q pre.queue post.queue
  entry : post.queue.queueBuf q = { pre.queue.queueBuf q with
    execCksum := (post.queue.queueBuf q).execCksum }

theorem LoopFrame.refl : LoopFrame q afl afl :=
  ⟨CalFrame.refl afl, EntryFrame.refl q afl.queue, rfl⟩

theorem LoopFrame.trans {q : Nat} (left : LoopFrame q first second)
    (right : LoopFrame q second third) : LoopFrame q first third where
  frame := left.frame.trans right.frame
  queue := left.queue.trans right.queue
  entry := by rw [right.entry, left.entry]

theorem LoopFrame.of_coverage (coverage : Coverage)
    (mapSize : coverage.fsrv.mapSize = afl.coverage.fsrv.mapSize)
    (realMapSize : coverage.fsrv.realMapSize = afl.coverage.fsrv.realMapSize) :
    LoopFrame q afl (afl.withCoverage coverage) :=
  ⟨⟨rfl, mapSize, realMapSize⟩, EntryFrame.refl q afl.queue, rfl⟩

private theorem fuzzRunTarget_frame (run : TargetRun) (afl : Afl) :
    LoopFrame q afl (fuzzRunTarget run afl) :=
  ⟨⟨rfl, rfl, rfl⟩, EntryFrame.refl q afl.queue, rfl⟩

private theorem Afl.classify_frame (size : WordSize) (afl : Afl) :
    LoopFrame q afl (afl.classify size) :=
  LoopFrame.of_coverage q afl _ (classifyCounts_mapSize size _) (classifyCounts_realMapSize size _)

theorem Afl.saveFirstTrace_frame : LoopFrame q afl afl.saveFirstTrace :=
  ⟨⟨rfl, rfl, rfl⟩, EntryFrame.refl q afl.queue, rfl⟩

private theorem Afl.withCksum_frame (cksum : BitVec 64) (afl : Afl) :
    LoopFrame q afl (afl.modifyEntry q (QueueEntry.withCksum cksum)) where
  frame := ⟨rfl, rfl, rfl⟩
  queue := EntryFrame.modify q afl.queue (QueueEntry.withCksum cksum)
  entry := by
    change (afl.queue.modify q (QueueEntry.withCksum cksum)).queueBuf q =
      { afl.queue.queueBuf q with
        execCksum := ((afl.queue.modify q (QueueEntry.withCksum cksum)).queueBuf q).execCksum }
    rw [Queue.modify_self]
    rfl

theorem CalState.noteNewBits_frame (size : WordSize) (s : CalState) :
    LoopFrame q s.afl (s.noteNewBits size).afl := by
  have kept := hasNewBits_fsrv size s.afl.coverage .bits
  apply LoopFrame.of_coverage
  all_goals rw [kept]

private theorem Afl.markVariableBytes_frame : LoopFrame q afl afl.markVariableBytes := by
  apply forUpto_preserves _ _ (LoopFrame q _) _ (LoopFrame.refl q _)
  intro i _ cur framed
  split
  · exact framed.trans ⟨⟨rfl, rfl, rfl⟩, EntryFrame.refl q cur.queue, rfl⟩
  · exact framed

private theorem CalState.compare_frame (q : Nat)
    (s : CalState) : LoopFrame q s.afl (s.compare size hash64 q).afl := by
  have noted := s.noteNewBits_frame q size
  unfold CalState.compare
  dsimp only
  split
  · exact LoopFrame.refl q s.afl
  · split
    · exact noted.trans (Afl.markVariableBytes_frame q _)
    · exact (noted.trans (Afl.withCksum_frame q _ _)).trans (Afl.saveFirstTrace_frame q _)

def CalNext.state : CalNext → CalState
  | .abort s => s
  | .leave s => s
  | .again s => s

theorem calibrateRun_frame (q earlySkip stageCur : Nat) (run : TargetRun) (s : CalState) :
    LoopFrame q s.afl (calibrateRun size hash64 q earlySkip stageCur run s).state.afl := by
  have ran := fuzzRunTarget_frame q run s.afl
  have compared := (ran.trans (Afl.classify_frame q _ _)).trans
    (CalState.compare_frame size hash64 q
      { s with afl := (fuzzRunTarget _ s.afl).classify size, fault := run.fault })
  unfold calibrateRun
  dsimp only
  split
  · exact ran
  · split
    · exact ran
    · split <;> exact compared

theorem calibrateFrom_frame (q earlySkip rounds stageCur : Nat) (s : CalState) :
    LoopFrame q s.afl (calibrateFrom size hash64 runs q earlySkip rounds stageCur s).2.afl := by
  induction rounds generalizing stageCur s with
  | zero => exact LoopFrame.refl q s.afl
  | succ rounds ih =>
    have body := calibrateRun_frame size hash64 q earlySkip stageCur (runs stageCur) s
    unfold calibrateFrom
    split
    · cases next : calibrateRun size hash64 q earlySkip stageCur (runs stageCur) s with
      | abort stopped | leave left =>
        rw [next] at body
        exact body
      | again following =>
        rw [next] at body
        exact body.trans (ih (stageCur + 1) _)
    · exact LoopFrame.refl q s.afl

private theorem CalState.compare_stageMax (q : Nat) (s : CalState)
    (bounded : s.stageMax ≤ calCyclesLong) :
    (s.compare size hash64 q).stageMax ≤ calCyclesLong := by
  unfold CalState.compare
  dsimp only
  split
  · exact bounded
  · split
    · dsimp only
      split <;> decide
    · exact bounded

theorem calibrateFrom_ends (q earlySkip rounds stageCur : Nat) (s : CalState)
    (bounded : s.stageMax ≤ calCyclesLong) (enough : calCyclesLong ≤ stageCur + rounds) :
    calibrateFrom size hash64 runs q earlySkip (rounds + 1) stageCur s =
      calibrateFrom size hash64 runs q earlySkip rounds stageCur s := by
  induction rounds generalizing stageCur s with
  | zero =>
    unfold calibrateFrom
    rw [if_neg (by omega)]
  | succ rounds ih =>
    unfold calibrateFrom
    split
    · cases next : calibrateRun size hash64 q earlySkip stageCur (runs stageCur) s with
      | abort stopped | leave left => rfl
      | again following =>
        refine ih (stageCur + 1) _ ?_ (by omega)
        unfold calibrateRun at next
        dsimp only at next
        repeat' split at next
        all_goals cases next
        exact CalState.compare_stageMax _ _ q _ bounded
    · rfl

theorem Afl.expected_ne_tmout : afl.expected ≠ .tmout := by
  unfold Afl.expected
  split <;> (intro bad; cases bad)

private theorem CalState.compare_fault (q : Nat)
    (s : CalState) : (s.compare size hash64 q).fault = s.fault := by
  unfold CalState.compare
  dsimp only
  split
  · rfl
  · split <;> rfl

private theorem calibrateRun_fault (q earlySkip stageCur : Nat) (run : TargetRun)
    (s following : CalState)
    (ran : calibrateRun size hash64 q earlySkip stageCur run s = .leave following ∨
      calibrateRun size hash64 q earlySkip stageCur run s = .again following) :
    following.fault ≠ .tmout := by
  unfold calibrateRun at ran
  dsimp only at ran
  split at ran
  · rcases ran with bad | bad <;> cases bad
  · rename_i orderly
    have reported : run.fault = (fuzzRunTarget run s.afl).expected := by
      by_contra other
      exact orderly (.inr other)
    split at ran
    · rcases ran with bad | bad <;> cases bad
    · split at ran
      · rcases ran with same | bad
        · cases same
          rw [CalState.compare_fault, reported]
          exact Afl.expected_ne_tmout _
        · cases bad
      · rcases ran with bad | same
        · cases bad
        · cases same
          rw [CalState.compare_fault, reported]
          exact Afl.expected_ne_tmout _

private theorem calibrateFrom_fault (q earlySkip rounds stageCur last : Nat) (s : CalState)
    (ended : (calibrateFrom size hash64 runs q earlySkip rounds stageCur s).1 = some last)
    (orderly : s.fault ≠ .tmout) :
    (calibrateFrom size hash64 runs q earlySkip rounds stageCur s).2.fault ≠ .tmout := by
  induction rounds generalizing stageCur s with
  | zero => exact orderly
  | succ rounds ih =>
    have body := calibrateRun_fault size hash64 q earlySkip stageCur (runs stageCur) s
    unfold calibrateFrom at ended ⊢
    split
    · rename_i goesOn
      rw [if_pos goesOn] at ended
      cases next : calibrateRun size hash64 q earlySkip stageCur (runs stageCur) s with
      | abort stopped =>
        rw [next] at ended
        cases ended
      | leave left => exact body _ (.inl next)
      | again following =>
        rw [next] at ended
        exact ih (stageCur + 1) _ ended (body _ (.inr next))
    · exact orderly

private theorem calibrateStart_fault : (calibrateStart size q afl).fault ≠ .tmout := by
  unfold calibrateStart
  dsimp only
  split <;> (intro bad; cases bad)

def QueueEntry.Calibrated (entry : QueueEntry) : Prop := entry.calFailed = 0 ∧ entry.execUs ≠ 0

private theorem averageUs_ne_zero (diffUs : BitVec 64) (stageCur : Nat) :
    averageUs diffUs stageCur ≠ 0 := by
  unfold averageUs
  split
  · decide
  · assumption

structure CalAborted (q : Nat) (pre post : Queue) : Prop where
  queue : EntryFrame q pre post
  calFailed : (post.queueBuf q).calFailed = (pre.queueBuf q).calFailed + 1
  execUs : (post.queueBuf q).execUs = (pre.queueBuf q).execUs

theorem CalAborted.trans_loop {q : Nat} {pre : Queue} {middle post : Afl}
    (aborted : CalAborted q pre middle.queue) (loop : LoopFrame q middle post) :
    CalAborted q pre post.queue where
  queue := aborted.queue.trans loop.queue
  calFailed := by rw [loop.entry, aborted.calFailed]
  execUs := by rw [loop.entry, aborted.execUs]

theorem calibrateStart_frame :
    CalFrame afl (calibrateStart size q afl).afl ∧
      CalAborted q afl.queue (calibrateStart size q afl).afl.queue := by
  have attempted : CalAborted q afl.queue
      (afl.modifyEntry q (QueueEntry.attempted afl.cmplogMode)).queue := by
    change CalAborted q afl.queue (afl.queue.modify q (QueueEntry.attempted afl.cmplogMode))
    constructor
    · exact EntryFrame.modify q afl.queue _
    all_goals
      rw [Queue.modify_self]
      rfl
  have framed : CalFrame afl (afl.modifyEntry q (QueueEntry.attempted afl.cmplogMode)) :=
    ⟨rfl, rfl, rfl⟩
  unfold calibrateStart
  dsimp only
  split
  · have noted := (Afl.saveFirstTrace_frame q _).trans (CalState.noteNewBits_frame q size
      { afl := (afl.modifyEntry q (QueueEntry.attempted afl.cmplogMode)).saveFirstTrace
        fault := .ok
        newBits := 0
        varDetected := false
        stageMax := if afl.env.aflCalFast then calCyclesFast else calCycles })
    exact ⟨framed.trans noted.frame, attempted.trans_loop noted⟩
  · exact ⟨framed, attempted⟩

def CalScored (q : Nat) (pre post : Queue) : Prop :=
  ∃ fsrv measured, EntryFrame q pre measured ∧ (measured.queueBuf q).Calibrated ∧
    EntryFrame q (updateBitmapScore fsrv q true measured) post ∧ (post.queueBuf q).Calibrated

structure EndFrame (q : Nat) (pre post : Afl) : Prop where
  frame : CalFrame pre post
  queue : EntryFrame q pre.queue post.queue
  entry : post.queue.queueBuf q = { pre.queue.queueBuf q with
    hasNewCov := (post.queue.queueBuf q).hasNewCov
    varBehavior := (post.queue.queueBuf q).varBehavior }

private theorem EndFrame.trans {q : Nat} (left : EndFrame q first second)
    (right : EndFrame q second third) :
    EndFrame q first third where
  frame := left.frame.trans right.frame
  queue := left.queue.trans right.queue
  entry := by rw [right.entry, left.entry]

theorem EndFrame.of_flags (pre post : Afl) (change : QueueEntry → QueueEntry)
    (frame : CalFrame pre post) (queue : post.queue = pre.queue.modify q change)
    (flags : change (pre.queue.queueBuf q) = { pre.queue.queueBuf q with
      hasNewCov := (change (pre.queue.queueBuf q)).hasNewCov
      varBehavior := (change (pre.queue.queueBuf q)).varBehavior }) :
    EndFrame q pre post where
  frame := frame
  queue := by
    rw [queue]
    exact EntryFrame.modify q pre.queue _
  entry := by
    rw [queue, Queue.modify_self]
    exact flags

private theorem creditNewCov_frame (q newBits : Nat) (afl : Afl) :
    EndFrame q afl (creditNewCov q newBits afl) := by
  unfold creditNewCov
  split
  · exact EndFrame.of_flags q _ _ QueueEntry.markNewCov ⟨rfl, rfl, rfl⟩ rfl rfl
  · exact ⟨CalFrame.refl _, EntryFrame.refl q afl.queue, rfl⟩

theorem calibrateEnd_frame (s : CalState) :
    EndFrame q s.afl (calibrateEnd q s) := by
  have credited := creditNewCov_frame q s.newBits s.afl
  unfold calibrateEnd
  split
  · exact credited.trans (EndFrame.of_flags q _ _ QueueEntry.markVariable ⟨rfl, rfl, rfl⟩ rfl rfl)
  · exact credited

theorem calibrateScore_spec (out : CalOutcome) (q : Nat) (handicap : BitVec 32)
    (firstRun : Bool) (stageCur : Nat) (s : CalState) :
    let scored := calibrateScore out q handicap firstRun stageCur s
    CalFrame s.afl scored.afl ∧
      ∃ measured, EntryFrame q s.afl.queue measured ∧ (measured.queueBuf q).Calibrated ∧
        scored.afl.queue = updateBitmapScore s.afl.coverage.fsrv q true measured := by
  intro scored
  refine ⟨⟨rfl, rfl, rfl⟩, _, EntryFrame.modify q s.afl.queue _, ?_, rfl⟩
  rw [Queue.modify_self]
  exact ⟨rfl, averageUs_ne_zero _ _⟩

theorem updateBitmapScore_calibrated (fsrv : Fsrv) (q : Nat) (haveTrace : Bool) (queue : Queue)
    (e : Nat) :
    ((updateBitmapScore fsrv q haveTrace queue).queueBuf e).Calibrated ↔
      (queue.queueBuf e).Calibrated := by
  rw [(updateBitmapScore_frame _ q _ _).entries e]
  rfl

section Whole

variable (size : WordSize) (hash64 : Buffer → BitVec 64) (out : CalOutcome) (q : Nat)
variable (handicap : BitVec 32) (afl : Afl)

theorem calibrateCase_frame :
    CalFrame afl (calibrateCase size hash64 out q handicap afl).2 := by
  unfold calibrateCase
  extract_lets firstRun start
  have begun := (calibrateStart_frame size q afl).1
  have loop := calibrateFrom_frame size hash64 out.runs q start.earlySkip calCyclesLong 0 start
  split
  · rename_i stopped aborted
    rw [aborted] at loop
    exact (begun.trans loop.frame).trans (calibrateEnd_frame q _).frame
  · rename_i stageCur ended finished
    rw [finished] at loop
    exact ((begun.trans loop.frame).trans (calibrateScore_spec _ q _ _ _ _).1).trans
        (calibrateEnd_frame q _).frame

theorem calibrateCase_of_ended {stageCur : Nat} {ended : CalState}
    (finished : calibrateFrom size hash64 out.runs q (calibrateStart size q afl).earlySkip
      calCyclesLong 0 (calibrateStart size q afl) = (some stageCur, ended)) :
    CalScored q afl.queue (calibrateCase size hash64 out q handicap afl).2.queue ∧
      (calibrateCase size hash64 out q handicap afl).1 ≠ .tmout := by
  have loop := calibrateFrom_frame size hash64 out.runs q
    (calibrateStart size q afl).earlySkip calCyclesLong 0 (calibrateStart size q afl)
  have ran := calibrateFrom_fault size hash64 out.runs q
    (calibrateStart size q afl).earlySkip calCyclesLong 0 stageCur (calibrateStart size q afl)
  rw [finished] at loop ran
  unfold calibrateCase
  extract_lets firstRun start
  rw [finished]
  obtain ⟨_, measured, own, calibrated, scored⟩ :=
    calibrateScore_spec out q handicap firstRun stageCur ended
  have last := calibrateEnd_frame q (calibrateScore out q handicap firstRun stageCur ended)
  have pre : EntryFrame q afl.queue measured :=
    ((calibrateStart_frame _ q _).2.trans_loop loop).queue.trans own
  have kept := (updateBitmapScore_calibrated ended.afl.coverage.fsrv q true _ q).2 calibrated
  rw [← scored] at kept
  constructor
  · refine ⟨ended.afl.coverage.fsrv, measured, pre, calibrated, ?_, ?_⟩
    · rw [← scored]
      exact last.queue
    · rw [last.entry]
      exact kept
  · have orderly := ran rfl (calibrateStart_fault _ q _)
    unfold calibrateScore
    dsimp only
    split
    · intro bad
      cases bad
    · exact orderly

/-- Either the entry is scored with a measured speed, or it is not scored; only
a calibration that was broken off reports a timeout. -/
theorem calibrateCase_cases :
    CalAborted q afl.queue (calibrateCase size hash64 out q handicap afl).2.queue ∨
      CalScored q afl.queue (calibrateCase size hash64 out q handicap afl).2.queue ∧
        (calibrateCase size hash64 out q handicap afl).1 ≠ .tmout := by
  have loop := calibrateFrom_frame size hash64 out.runs q
    (calibrateStart size q afl).earlySkip calCyclesLong 0 (calibrateStart size q afl)
  rcases finished : calibrateFrom size hash64 out.runs q
    (calibrateStart size q afl).earlySkip calCyclesLong 0 (calibrateStart size q afl) with
    ⟨_ | stageCur, ended⟩
  · rw [finished] at loop
    have upto := (calibrateStart_frame _ q _).2.trans_loop loop
    have last := calibrateEnd_frame q ended
    left
    unfold calibrateCase
    extract_lets firstRun start
    rw [finished]
    refine ⟨upto.queue.trans last.queue, ?_, ?_⟩
    · rw [last.entry, upto.calFailed]
    · rw [last.entry, upto.execUs]
  · exact .inr (calibrateCase_of_ended _ _ _ q _ _ finished)

theorem calibrateCase_rest :
    (calibrateCase size hash64 out q handicap afl).2.queue = { afl.queue with
      queueBuf := (calibrateCase size hash64 out q handicap afl).2.queue.queueBuf
      topRated := (calibrateCase size hash64 out q handicap afl).2.queue.topRated
      scoreChanged := (calibrateCase size hash64 out q handicap afl).2.queue.scoreChanged } := by
  rcases calibrateCase_cases size hash64 out q handicap afl with aborted | ⟨scored, _⟩
  · rw [aborted.queue.rest]
  · obtain ⟨_, _, own, _, last, _⟩ := scored
    rw [last.rest, (updateBitmapScore_frame _ q _ _).rest, own.rest]

theorem calibrateCase_tmout (times : (out.runs 0).fault = .tmout) :
    (calibrateCase size hash64 out q handicap afl).1 = .tmout := by
  have unexpected : ∀ cur : Afl, (out.runs 0).fault ≠ cur.expected := by
    intro cur
    rw [times]
    exact (Afl.expected_ne_tmout _).symm
  have pos : 0 < (calibrateStart size q afl).stageMax := by
    have limit : 0 < (if afl.env.aflCalFast then calCyclesFast else calCycles) := by
      split <;> decide
    unfold calibrateStart
    dsimp only
    split <;> exact limit
  unfold calibrateCase calCyclesLong calibrateFrom
  dsimp only
  rw [if_pos pos]
  unfold calibrateRun
  rw [if_pos (.inr (unexpected _))]
  exact times

end Whole

/-- The run ends as the fuzzer wants it to, with some coverage to show. -/
def TargetRun.Orderly (afl : Afl) (run : TargetRun) : Prop :=
  run.stopSoon = false ∧ run.fault = afl.expected ∧
    (afl.queue.nonInstrumentedMode = true ∨ countBytes afl.coverage.fsrv run.trace ≠ 0)

theorem TargetRun.Orderly.of_frame {q : Nat} {pre post : Afl} {run : TargetRun}
    (orderly : run.Orderly pre) (frame : CalFrame pre post)
    (queue : EntryFrame q pre.queue post.queue) : run.Orderly post := by
  obtain ⟨goes, reported, covered⟩ := orderly
  refine ⟨goes, ?_, ?_⟩
  · rw [reported]
    unfold Afl.expected
    rw [frame.rest]
  · unfold countBytes at covered ⊢
    rw [queue.rest, frame.realMapSize]
    exact covered

private theorem calibrateRun_continues (q earlySkip stageCur : Nat) (run : TargetRun) (s : CalState)
    (orderly : run.Orderly s.afl) (stopped : CalState) :
    calibrateRun size hash64 q earlySkip stageCur run s ≠ .abort stopped := by
  obtain ⟨goes, reported, covered⟩ := orderly
  unfold calibrateRun
  dsimp only
  rw [if_neg, if_neg]
  · split <;> (intro bad; cases bad)
  · rintro ⟨instrumented, empty⟩
    rcases covered with blind | lit
    · change (!s.afl.queue.nonInstrumentedMode) = true at instrumented
      rw [blind] at instrumented
      cases instrumented
    · exact lit empty
  · rintro (stop | other)
    · change run.stopSoon = true at stop
      rw [goes] at stop
      cases stop
    · exact other reported

private theorem calibrateFrom_completes (q earlySkip rounds stageCur : Nat) (s : CalState)
    (orderly : ∀ k, (runs k).Orderly s.afl) :
    ∃ last, (calibrateFrom size hash64 runs q earlySkip rounds stageCur s).1 = some last := by
  induction rounds generalizing stageCur s with
  | zero => exact ⟨stageCur, rfl⟩
  | succ rounds ih =>
    have body := calibrateRun_frame size hash64 q earlySkip stageCur (runs stageCur) s
    have goes := calibrateRun_continues size hash64 q earlySkip stageCur (runs _) _
      (orderly stageCur)
    unfold calibrateFrom
    split
    · cases next : calibrateRun size hash64 q earlySkip stageCur (runs stageCur) s with
      | abort stopped => exact absurd next (goes _)
      | leave left => exact ⟨stageCur + 1, rfl⟩
      | again following =>
        rw [next] at body
        exact ih (stageCur + 1) _  (fun k => (orderly k).of_frame body.frame body.queue)
    · exact ⟨stageCur, rfl⟩

theorem calibrateCase_calibrated (out : CalOutcome) (q : Nat) (handicap : BitVec 32) (afl : Afl)
    (orderly : ∀ k, (out.runs k).Orderly afl) :
    ((calibrateCase size hash64 out q handicap afl).2.queue.queueBuf q).Calibrated := by
  have begun := calibrateStart_frame size q afl
  obtain ⟨_, ended⟩ := calibrateFrom_completes size hash64 out.runs q
    (calibrateStart size q afl).earlySkip calCyclesLong 0 (calibrateStart size q afl)
    (fun k => (orderly k).of_frame begun.1 begun.2.queue)
  obtain ⟨scored, _⟩ := calibrateCase_of_ended size hash64 out q handicap afl (Prod.ext ended rfl)
  obtain ⟨_, _, _, _, _, calibrated⟩ := scored
  exact calibrated

end AflPlusPlus
