/-
Saving an input.

The labels `save_to_queue`, `may_save_fault` and `keep_as_crash` of `save_if_interesting` are
blocks of a machine; the timeout case jumps back to the first of them.  File names and
files are left out, and so is the test case cache, which shares no state with the rest.
-/

import AflPlusPlus.Calibration
import AflPlusPlus.CoverageSkim
import AflPlusPlus.CrashDedup
import AflPlusPlus.Machine.LabelRun

namespace AflPlusPlus

open Machine
open Machine.LaneWord

def keepUniqueHang : Nat := 512

def keepUniqueCrash : Nat := 25600

def nFuzzSize : Nat := 2 ^ 21

/-- `schedule >= FAST && schedule <= RARE` -/
def Schedule.countsPaths : Schedule → Bool
  | .fast | .coe | .lin | .quad | .rare => true
  | _ => false

def Queue.countPath (cksum : BitVec 64) (queue : Queue) : Queue :=
  let slot := cksum.toNat % nFuzzSize
  if queue.nFuzz slot < 0xFFFFFFFF then
    { queue with nFuzz := Function.update queue.nFuzz slot (queue.nFuzz slot + 1) }
  else queue

/-- The re-run of a hang with the longer timeout, and the length of the input
that was written for it. -/
structure HangRun where
  run : TargetRun
  len : BitVec 32

/-- What the outside does during one call: the runs of the sanitizer binaries,
the re-runs of a hang in their order, and the calibration that follows so many
re-runs. -/
structure SaveOutcomes where
  sanitizer : Nat → Fault
  rerun : Nat → HangRun
  calibration : Nat → CalOutcome

inductive SaveLabel where
  | enter
  | saveToQueue
  | maySaveFault
  | keepAsCrash
  deriving DecidableEq, Repr

/-- A point of the call: the label, the locals and the fuzzer state. -/
structure SavePoint where
  label : SaveLabel
  len : BitVec 32
  fault : Fault
  keeping : Bool
  newBits : Nat
  cksum : BitVec 64
  classified : Bool
  bitsCounted : Bool
  cksumed : Bool
  reruns : Nat
  afl : Afl

/-- `FATAL` ends the fuzzer; otherwise the call returns `keeping`. -/
inductive SaveEnd where
  | returned (keeping : Bool)
  | fatal
  deriving DecidableEq, Repr

structure SaveResult where
  ending : SaveEnd
  afl : Afl

section Call

variable (v : SkimVariant) (hash64 : Buffer → BitVec 64) (hash32 : Buffer → BitVec 32)
variable (outs : SaveOutcomes)

def SavePoint.goto (point : SavePoint) (label : SaveLabel) : Jump SavePoint SaveResult :=
  .goto { point with label := label }

def SavePoint.leave (point : SavePoint) : Jump SavePoint SaveResult :=
  .exit ⟨.returned point.keeping, point.afl⟩

def SavePoint.die (point : SavePoint) : Jump SavePoint SaveResult := .exit ⟨.fatal, point.afl⟩

def SavePoint.withAfl (point : SavePoint) (afl : Afl) : SavePoint := { point with afl := afl }

def SavePoint.classifyIfNecessary (point : SavePoint) : SavePoint :=
  if point.classified then point
  else { point with afl := point.afl.classify v.size, classified := true }

def SavePoint.calculateCksumIfNecessary (point : SavePoint) : SavePoint :=
  if point.cksumed then point
  else
    let traced := point.classifyIfNecessary v
    { traced with
      cksum := hash64 traced.afl.coverage.fsrv.traceBits
      cksumed := true }

def SavePoint.calculateNewBitsIfNecessary (point : SavePoint) : Checked SavePoint :=
  if point.bitsCounted then .ok point
  else if point.classified then
    let call := hasNewBits v.size point.afl.coverage .bits
    .ok { point with
      newBits := call.1
      afl := point.afl.withCoverage call.2
      bitsCounted := true }
  else
    match hasNewBitsUnclassified v point.afl.coverage .bits point.classified with
    | none => .error .badAccess
    | some (newBits, coverage, classified) =>
      .ok { point with
        newBits := newBits
        afl := point.afl.withCoverage coverage
        classified := classified
        bitsCounted := true }

/-- With `fsrv.c11`, the word behind the first byte of the map is a counter
that does not belong to the trace. -/
def Afl.takeC11 (afl : Afl) : Afl :=
  let val := load 4 afl.coverage.fsrv.traceBits 1
  if afl.fsrvC11 ∧ val ≠ 0 then
    { afl with
      c11 := val
      coverage := afl.coverage.withTrace (store 4 afl.coverage.fsrv.traceBits 1 0) }
  else afl

def SavePoint.updateFrequency (point : SavePoint) : SavePoint :=
  if point.afl.queue.schedule.countsPaths then
    let hashed := point.calculateCksumIfNecessary v hash64
    hashed.withAfl (hashed.afl.withQueue (hashed.afl.queue.countPath hashed.cksum))
  else point

/-- Whether the input is fed to the sanitizer binaries, by the abstraction of
the trace that is in use. -/
def SavePoint.feedSan (point : SavePoint) : Checked (Bool × SavePoint) :=
  let afl := point.afl
  if afl.sanBinaryLength = 0 then .ok (false, point)
  else
    match afl.sanAbstraction with
    | .simplifyTrace =>
      let cksum := hash32
        (simplifyTrace v.size afl.coverage.fsrv.mapSize afl.coverage.fsrv.traceBits)
      if afl.simplifiedNFuzz cksum then .ok (false, point)
      else .ok (true, point.withAfl { afl with
        simplifiedNFuzz := Function.update afl.simplifiedNFuzz cksum true })
    | .coverageIncrease => do
      let counted ← point.calculateNewBitsIfNecessary v
      .ok (counted.newBits != 0, counted)
    | .uniqueTrace =>
      let traced := point.classifyIfNecessary v
      let cksum := hash32 traced.afl.coverage.fsrv.traceBits
      if traced.afl.nFuzzDup cksum then .ok (false, traced)
      else .ok (true, traced.withAfl { traced.afl with
        nFuzzDup := Function.update traced.afl.nFuzzDup cksum true })

/-- The loop over the sanitizer binaries ends with the first crash; any other
fault of theirs counts as none. -/
def sanFault (afl : Afl) (feed : Bool) : Fault :=
  if feed && (List.range afl.sanBinaryLength).any (fun i => outs.sanitizer i == .crash) then
    .crash
  else .ok

def saveEnter (point : SavePoint) : Checked (Jump SavePoint SaveResult) :=
  if point.len = 0 then .ok point.leave
  else if point.fault = .tmout ∧ point.afl.env.aflIgnoreTimeouts then
    .ok (point.updateFrequency v hash64).leave
  else
    let begun := (point.withAfl point.afl.takeC11).updateFrequency v hash64
    if begun.fault = begun.afl.expected then do
      let fed ← begun.feedSan v hash32
      let counted ← fed.2.calculateNewBitsIfNecessary v
      let fault := sanFault outs counted.afl fed.1
      if counted.newBits = 0 then
        if fault = .ok then
          if counted.afl.crashMode then
            .ok (counted.withAfl { counted.afl with
              totalCrashes := counted.afl.totalCrashes + 1 }).leave
          else .ok counted.leave
        else .ok ({ counted with fault := fault }.goto .maySaveFault)
      else .ok ({ counted with fault := fault }.goto .saveToQueue)
    else .ok (begun.goto .maySaveFault)

/-- `add_to_queue`; new coverage ends the exploitation mode. -/
def Afl.addFind (len : BitVec 32) (afl : Afl) : Afl :=
  { afl.withQueue (addToQueue len afl.queue) with
    fuzzMode :=
      if afl.fuzzMode && afl.switchFuzzMode && !afl.queue.nonInstrumentedMode then false
      else afl.fuzzMode }

def Afl.creditFind (top newBits : Nat) (afl : Afl) : Afl :=
  if newBits = 2 then
    { afl.modifyEntry top QueueEntry.markNewCov with queuedWithCov := afl.queuedWithCov + 1 }
  else afl

/-- For AFLFast schedules the new entry starts its own path frequency. -/
def Afl.startFrequency (top : Nat) (cksum : BitVec 64) (afl : Afl) : Afl :=
  if afl.queue.schedule.countsPaths then
    let slot := cksum.toNat % nFuzzSize
    afl.withQueue { afl.queue.modify top (fun entry => { entry with nFuzzEntry := slot }) with
      nFuzz := Function.update afl.queue.nFuzz slot 1 }
  else afl

def Afl.enqueue (len : BitVec 32) (newBits : Nat) (cksum : BitVec 64) (afl : Afl) : Afl :=
  let top := afl.queue.queuedItems
  let hashed := (afl.addFind len).modifyEntry top (QueueEntry.withCksum cksum)
  (hashed.creditFind top newBits).startFrequency top cksum

def saveToQueue (point : SavePoint) : Checked (Jump SavePoint SaveResult) := do
  let counted ← (point.calculateCksumIfNecessary v hash64).calculateNewBitsIfNecessary v
  let top := counted.afl.queue.queuedItems
  let queued := counted.afl.enqueue counted.len counted.newBits counted.cksum
  let call := calibrateCase v.size hash64 (outs.calibration counted.reruns) top
    ((queued.queue.queueCycle - 1).setWidth 32) queued
  if call.1 = .error then .ok (counted.withAfl call.2).die
  else .ok ({ counted with afl := call.2, keeping := true }.goto .maySaveFault)

/-- `simplify_trace` followed by `has_new_bits(virgin_tmout)`. -/
def keepAsHang (size : WordSize) (cov : Coverage) : Nat × Coverage :=
  hasNewBits size (cov.withTrace (simplifyTrace size cov.fsrv.mapSize cov.fsrv.traceBits)) .tmout

def hangVerdict (size : WordSize) (nonInstrumentedMode : Bool) (cov : Coverage) : Nat × Coverage :=
  if nonInstrumentedMode then (1, cov) else keepAsHang size cov

def SavePoint.rerunHang (point : SavePoint) : SavePoint :=
  let hang := outs.rerun point.reruns
  { point with
    len := hang.len
    classified := false
    bitsCounted := false
    cksumed := false
    reruns := point.reruns + 1
    afl := fuzzRunTarget hang.run point.afl }

def saveHang (point : SavePoint) : Jump SavePoint SaveResult :=
  let counted := point.withAfl { point.afl with totalTmouts := point.afl.totalTmouts + 1 }
  if counted.afl.savedHangs ≥ keepUniqueHang then counted.leave
  else
    let verdict := hangVerdict v.size counted.afl.queue.nonInstrumentedMode counted.afl.coverage
    let judged := counted.withAfl (counted.afl.withCoverage verdict.2)
    if verdict.1 = 0 then judged.leave
    else
      let saved := fun hang : SavePoint =>
        (hang.withAfl { hang.afl with savedHangs := hang.afl.savedHangs + 1 }).leave
      if judged.afl.execTmout < judged.afl.hangTmout then
        let newFault := (outs.rerun judged.reruns).run.fault
        let again := judged.rerunHang outs
        if !again.afl.stopSoon ∧ newFault = .crash then again.goto .keepAsCrash
        else if again.afl.stopSoon ∨ newFault ≠ .tmout then
          if again.afl.env.aflKeepTimeouts then
            (again.withAfl { again.afl with savedTmouts := again.afl.savedTmouts + 1 }).goto
              .saveToQueue
          else again.leave
        else saved again
      else saved judged

def saveCrash (point : SavePoint) : Jump SavePoint SaveResult :=
  let counted := point.withAfl { point.afl with totalCrashes := point.afl.totalCrashes + 1 }
  if counted.afl.savedCrashes ≥ keepUniqueCrash then counted.leave
  else
    let verdict : Nat × Afl :=
      if counted.afl.queue.nonInstrumentedMode then (1, counted.afl)
      else
        let cov := counted.afl.coverage
        let call := keepAsCrash v.size cov ⟨cov.fsrv.traceBits, false⟩
        (call.1, counted.afl.withCoverage call.2)
    let judged := counted.withAfl verdict.2
    if verdict.1 = 0 then judged.leave
    else (judged.withAfl { judged.afl with savedCrashes := judged.afl.savedCrashes + 1 }).leave

def maySaveFault (point : SavePoint) : Jump SavePoint SaveResult :=
  match point.fault with
  | .tmout => saveHang v outs point
  | .crash => point.goto .keepAsCrash
  | .error => point.die
  | _ => point.leave

def saveStep (point : SavePoint) : Checked (Jump SavePoint SaveResult) :=
  match point.label with
  | .enter => saveEnter v hash64 hash32 outs point
  | .saveToQueue => saveToQueue v hash64 outs point
  | .maySaveFault => .ok (maySaveFault v outs point)
  | .keepAsCrash => .ok (saveCrash v point)

def SavePoint.start (len : BitVec 32) (fault : Fault) (afl : Afl) : SavePoint where
  label := .enter
  len := len
  fault := fault
  keeping := false
  newBits := 0
  cksum := 0
  classified := false
  bitsCounted := false
  cksumed := false
  reruns := 0
  afl := afl

def saveIfInteresting (fuel : Nat) (len : BitVec 32) (fault : Fault) (afl : Afl) :
    Checked SaveResult :=
  runLabels (saveStep v hash64 hash32 outs) fuel (SavePoint.start len fault afl)

end Call

end AflPlusPlus
