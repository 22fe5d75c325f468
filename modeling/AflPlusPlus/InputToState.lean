/-
The input-to-state stage.

When the stage found more than one new input, the virgin map goes back to what it was
before, the replacements that worked are tried in one run, and the map is merged with
the one found before.  Which bytes are replaced is not modelled: an attempt is an
execution, and the outside decides how it ends.
-/

import AflPlusPlus.SaveIfInteresting
import Mathlib.Algebra.GroupWithZero.Nat

namespace AflPlusPlus

open Machine
open Machine.LaneWord

def mapSizeConst : Nat := 2 ^ 16

def defaultShmemSize : Nat := 8 * 1024 * 1024

/-- From `AFL_MAP_SIZE` and `AFL_SKIP_BIN_CHECK`. -/
def getMapSize (aflMapSize : Option Nat) (aflSkipBinCheck : Bool) : Checked Nat :=
  match aflMapSize with
  | some mapSize =>
    if mapSize = 0 ∨ 2 ^ 29 ≤ mapSize then .error .aborted
    else .ok (if mapSize % 64 ≠ 0 then ((mapSize >>> 6) + 1) <<< 6 else mapSize)
  | none => .ok (if aflSkipBinCheck then mapSizeConst else defaultShmemSize)

/-- The size that the fork server makes of what the target reports. -/
def reportedMapSize (tmpMapSize : Nat) : Nat :=
  if tmpMapSize % 64 ≠ 0 then ((tmpMapSize + 63) >>> 6) <<< 6 else tmpMapSize

/-- The shared map; its size is a multiple of 64 however it was set up. -/
structure Shm where
  mapSize : Nat
  aligned : 64 ∣ mapSize

theorem shiftLeft_six_aligned (n : Nat) : 64 ∣ n <<< 6 := by
  rw [Nat.shiftLeft_eq]
  exact Nat.dvd_mul_left 64 n

theorem getMapSize_aligned (aflMapSize : Option Nat) (aflSkipBinCheck : Bool) :
    Ensures (64 ∣ ·) (getMapSize aflMapSize aflSkipBinCheck) := by
  unfold getMapSize
  split
  · split
    · exact rfl
    · split
      · exact shiftLeft_six_aligned _
      · rename_i whole
        exact Nat.dvd_of_mod_eq_zero (not_not.1 whole)
  · split
    · exact ⟨1024, rfl⟩
    · exact ⟨131072, rfl⟩

theorem reportedMapSize_aligned (tmpMapSize : Nat) : 64 ∣ reportedMapSize tmpMapSize := by
  unfold reportedMapSize
  split
  · exact shiftLeft_six_aligned _
  · rename_i whole
    exact Nat.dvd_of_mod_eq_zero (not_not.1 whole)

def Shm.grow (shm : Shm) (tmpMapSize : Nat) : Shm :=
  if shm.mapSize < reportedMapSize tmpMapSize then
    ⟨reportedMapSize tmpMapSize, reportedMapSize_aligned tmpMapSize⟩
  else shm

def tmoutLimit : BitVec 32 := 250

def cmplogLvlMax : Nat := 3

def cmplogFailMax : Nat := 96

def cmplogPositionsMax : Nat := 12 * 1024

def cmplogCorpusPercent : Nat := 5

-- kept folded, so that no proof runs through all the comparisons
@[irreducible] def cmpMapW : Nat := 65536

/-- The fuzzer during the stage.  `exBuf` and `effBuf` are scratch buffers that
hold copies of the virgin map; `taint` and `cmplogColorinput` say what
`queue_cur` has from an earlier stage. -/
structure ItsState where
  afl : Afl
  shm : Shm
  exBuf : Buffer
  effBuf : Buffer
  subseqTmouts : BitVec 32
  curSkippedItems : Nat
  queuedDiscovered : Nat
  colorizeSuccess : Nat
  cmplogLvl : Nat
  cmplogEnableTransform : Bool
  colorized : Nat
  taint : Bool
  cmplogColorinput : Bool

def ItsState.virginBits (s : ItsState) : Buffer := s.afl.coverage.virginBits

def ItsState.setVirginBits (s : ItsState) (bytes : Buffer) : ItsState :=
  { s with afl := s.afl.withCoverage { s.afl.coverage with virginBits := bytes } }

/-- `queued_items + saved_crashes` -/
def ItsState.hitCnt (s : ItsState) : Nat :=
  s.afl.queue.queuedItems + s.afl.savedCrashes

/-- What the outside does when an input is executed: the length that is left of
it, the run, a request to skip the entry, and what happens while it is saved. -/
structure FuzzIo where
  len : BitVec 32
  run : TargetRun
  skipRequested : Bool
  saving : SaveOutcomes

def ItsState.judgeRun (fault : Fault) (skipRequested : Bool) (s : ItsState) :
    Bool × ItsState :=
  if s.afl.stopSoon then (true, s)
  else if fault = .tmout ∧ s.subseqTmouts > tmoutLimit then
    (true, { s with
      subseqTmouts := s.subseqTmouts + 1
      curSkippedItems := s.curSkippedItems + 1 })
  else
    let counted := { s with
      subseqTmouts := if fault = .tmout then s.subseqTmouts + 1 else 0 }
    if skipRequested then (true, { counted with curSkippedItems := counted.curSkippedItems + 1 })
    else (false, counted)

def commonFuzzCmplogStuff (run : TargetRun) (skipRequested : Bool) (s : ItsState) :
    Bool × ItsState :=
  { s with afl := fuzzRunTarget run s.afl }.judgeRun run.fault skipRequested

section Stage

variable (variant : SkimVariant) (hash64 : Buffer → BitVec 64) (hash32 : Buffer → BitVec 32)
variable (fuel : Nat)

def saveFinds (io : FuzzIo) (s : ItsState) : Checked ItsState := do
  let saved ← saveIfInteresting variant hash64 hash32 io.saving fuel io.len io.run.fault s.afl
  match saved.ending with
  | .fatal => .error .aborted
  | .returned keeping =>
    .ok { s with
      afl := saved.afl
      queuedDiscovered := s.queuedDiscovered + keeping.toNat }

def commonFuzzStuff (io : FuzzIo) (s : ItsState) : Checked (Bool × ItsState) :=
  if io.len = 0 then .ok (false, s)
  else
    let judged := { s with afl := fuzzRunTarget io.run s.afl }.judgeRun io.run.fault
      io.skipRequested
    if judged.1 then .ok (true, judged.2)
    else do
      let saved ← saveFinds variant hash64 hash32 fuel io judged.2
      return (false, saved)

/-- The status is 1 after a find and 2 otherwise; an abandoned entry leaves it. -/
def itsFuzz (io : FuzzIo) (status : Nat) (s : ItsState) : Checked (Bool × Nat × ItsState) := do
  let (stop, ran) ← commonFuzzStuff variant hash64 hash32 fuel io s
  if stop then return (true, status, ran)
  return (false, if ran.hitCnt ≠ s.hitCnt then 1 else 2, ran)

def getExecChecksum (io : FuzzIo) (s : ItsState) :
    Checked (Option (BitVec 64) × ItsState) := do
  let (stop, ran) ← commonFuzzStuff variant hash64 hash32 fuel io s
  if stop then return (none, ran)
  return (some (hash64 ran.afl.coverage.fsrv.traceBits), ran)

structure ColorRange where
  start : Nat
  stop : Nat
  ok : Bool

def ColorRange.size (range : ColorRange) : Nat := 1 + range.stop - range.start

def popBiggestRange (ranges : List ColorRange) : Option Nat :=
  (ranges.zipIdx.foldl (fun (best : Option (Nat × Nat)) (entry : ColorRange × Nat) =>
    if !entry.1.ok && (best.map Prod.snd).getD 0 ≤ entry.1.size then
      some (entry.2, entry.1.size)
    else best) none).map Prod.fst

def splitRange (pos : Nat) (ranges : List ColorRange) : List ColorRange :=
  match ranges[pos]? with
  | none => ranges
  | some range =>
    let rest := ranges.eraseIdx pos
    if 1 < range.size then
      ⟨range.start + range.size / 2, range.stop, false⟩ ::
        ⟨range.start, range.start + range.size / 2 - 1, false⟩ :: rest
    else rest

def settleRange (pos : Nat) (ranges : List ColorRange) : List ColorRange :=
  ranges.modify pos (fun range => { range with ok := true })

/-- The executions of one colorization, and whether one was too slow. -/
structure ColorIo where
  execs : Nat → FuzzIo
  slow : Nat → Bool

/-- The loop while `stage_cur < stage_max`.  Without ranges an execution was
abandoned. -/
def colorizeFrom (io : ColorIo) (execCksum : BitVec 64) (stageMax : Nat) :
    Nat → List ColorRange → ItsState → Checked (Option (List ColorRange) × ItsState)
  | 0, ranges, s => .ok (some ranges, s)
  | remaining + 1, ranges, s =>
    match popBiggestRange ranges with
    | none => .ok (some ranges, s)
    | some pos => do
      let stageCur := stageMax - (remaining + 1)
      let (cksum, ran) ← getExecChecksum variant hash64 hash32 fuel (io.execs (stageCur + 1)) s
      match cksum with
      | none => return (none, ran)
      | some cksum =>
        let ranges :=
          if cksum ≠ execCksum ∨ io.slow stageCur then splitRange pos ranges
          else settleRange pos ranges
        colorizeFrom io execCksum stageMax remaining ranges ran

def coloredPositions (ranges : List ColorRange) : Nat :=
  ((ranges.filter ColorRange.ok).map ColorRange.size).sum

def ItsState.acceptTaint (len : Nat) (ranges : List ColorRange) (s : ItsState) :
    Bool × ItsState :=
  let positions := coloredPositions ranges
  if positions = 0 then (false, s)
  else if s.colorizeSuccess ≠ 0 ∧ s.cmplogLvl < 3 ∧ cmplogPositionsMax < positions ∧
      len / positions = 1 ∧
      cmplogCorpusPercent < s.afl.queue.activeItems / s.colorizeSuccess then
    (false, s)
  else (true, { s with colorizeSuccess := s.colorizeSuccess + 1 })

/-- `none`: an execution was abandoned; otherwise whether there is a taint. -/
def colorization (io : ColorIo) (len : Nat) (s : ItsState) :
    Checked (Option Bool × ItsState) := do
  let (cksum, ran) ← getExecChecksum variant hash64 hash32 fuel (io.execs 0) s
  match cksum with
  | none => return (none, ran)
  | some execCksum =>
    let (ranges, colored) ← colorizeFrom variant hash64 hash32 fuel io execCksum (len <<< 1)
      (len <<< 1) [⟨0, len - 1, false⟩] ran
    match ranges with
    | none => return (none, colored)
    | some ranges =>
      let (taint, accepted) := colored.acceptTaint len ranges
      return (some taint, accepted)

inductive CmpType where
  | ins
  | rtn
  deriving DecidableEq

structure CmpHeader where
  hits : Nat
  type : CmpType

structure PassStat where
  total : Nat
  faileds : Nat

/-- What the outside does during one stage: the colorization, the two runs of
the cmplog binary, what they logged, the attempts at every comparison and the
combined run. -/
structure StageIo where
  color : ColorIo
  origRun : TargetRun
  origSkip : Bool
  newRun : TargetRun
  newSkip : Bool
  headers : Nat → CmpHeader
  passStats : Nat → PassStat
  attempts : Nat → List FuzzIo
  combined : FuzzIo

def StageIo.logged (io : StageIo) (k : Nat) : Bool :=
  (io.headers k).hits ≠ 0 && (io.passStats k).faileds < cmplogFailMax &&
    (io.passStats k).total < cmplogFailMax

def ItsState.lvl1 (s : ItsState) : Bool := s.colorized = 0

def ItsState.lvl3 (s : ItsState) : Bool := s.cmplogLvl = cmplogLvlMax

/-- `cmp_fuzz` and `rtn_fuzz`: attempts until one abandons the entry. -/
def fuzzAttempts : List FuzzIo → Nat → ItsState → Checked (Bool × ItsState)
  | [], _, s => .ok (false, s)
  | io :: rest, status, s => do
    let (stop, status, ran) ← itsFuzz variant hash64 hash32 fuel io status s
    if stop then return (true, ran)
    fuzzAttempts rest status ran

def StageIo.fuzzes (io : StageIo) (lvl1 lvl3 transform : Bool) (k : Nat) : Bool :=
  io.logged k && ((io.headers k).type = .ins || lvl1 || (lvl3 && transform))

def fuzzLocations (io : StageIo) (lvl1 lvl3 transform : Bool) :
    List Nat → ItsState → Checked (Bool × ItsState)
  | [], s => .ok (false, s)
  | k :: rest, s =>
    if io.fuzzes lvl1 lvl3 transform k then do
      let (stop, ran) ← fuzzAttempts variant hash64 hash32 fuel (io.attempts k) 0 s
      if stop then return (true, ran)
      fuzzLocations io lvl1 lvl3 transform rest ran
    else fuzzLocations io lvl1 lvl3 transform rest s

/-- `v[i] &= s[i]` over the words of the map. -/
def mergeWords (size : WordSize) (mapSize : Nat) (save virgin : Buffer) : Buffer :=
  forUpto (size.words mapSize) (fun i v =>
    store size.bytes v (size.bytes * i)
      (load size.bytes v (size.bytes * i) &&& load size.bytes save (size.bytes * i))) virgin

/-- Copy the current virgin bits so that the information can be recovered, and
reset them to the backup. -/
def ItsState.rollBack (s : ItsState) : ItsState :=
  { s with effBuf := copyMap s.shm.mapSize s.effBuf s.virginBits }.setVirginBits
    (copyMap s.shm.mapSize s.virginBits s.exBuf)

variable (io : StageIo)

def combineFinds (origHitCnt : Nat) (s : ItsState) : Checked ItsState :=
  if origHitCnt + 1 < s.hitCnt then do
    let (_, _, ran) ← itsFuzz variant hash64 hash32 fuel io.combined 0 s.rollBack
    return ran.setVirginBits (mergeWords variant.size ran.shm.mapSize ran.effBuf ran.virginBits)
  else .ok s

/-- From the start of the insertion loop on; the result is the return value. -/
def insertionLoop (s : ItsState) : Checked (Bool × ItsState) := do
  let origHitCnt := s.hitCnt
  let backed := { s with
    exBuf := copyMap s.shm.mapSize s.exBuf s.virginBits }
  let (stop, tried) ← fuzzLocations variant hash64 hash32 fuel io backed.lvl1 backed.lvl3
    backed.cmplogEnableTransform (List.range cmpMapW) backed
  let cleared := { tried with
    colorized := cmplogLvlMax
    taint := false }
  let combined ← combineFinds variant hash64 hash32 fuel io origHitCnt cleared
  return (stop, combined)

def logComparisons (s : ItsState) : Checked (Bool × ItsState) :=
  let (stop, orig) := commonFuzzCmplogStuff io.origRun io.origSkip s
  if stop then .ok (true, { orig with colorized := cmplogLvlMax })
  else
    let (stop, new) := commonFuzzCmplogStuff io.newRun io.newSkip orig
    if stop then .ok (true, { new with colorized := cmplogLvlMax })
    else insertionLoop variant hash64 hash32 fuel io new

def inputToStateStage (len : Nat) (s : ItsState) : Checked (Bool × ItsState) :=
  if s.taint && s.cmplogColorinput then
    logComparisons variant hash64 hash32 fuel io s
  else do
    let (taint, colored) ← colorization variant hash64 hash32 fuel io.color len s
    match taint with
    | none => return (true, colored)
    | some false => return (false, { colored with colorized := cmplogLvlMax })
    | some true => logComparisons variant hash64 hash32 fuel io colored

end Stage

end AflPlusPlus
