/-
Running the target of afl-cmin on one file.

As many bytes of the file are delivered as its record says; shared memory holds
no more than MAX_FILE of them.  The tuples of a trace are the cells that were
hit, with the class of the hit count unless only edges are wanted.
-/

import AflPlusPlus.CminFiles
import AflPlusPlus.CminQueue
import AflPlusPlus.CminScan

namespace AflPlusPlus.Cmin

open Machine List

/-- A session.  The tables of all update workers and the largest message fit in
the memory that is set aside for them. -/
structure Setup extends Options where
  execWorkers : Nat
  updateWorkers : Nat
  mapSize : Nat
  avx2 : Bool
  useShmemFuzz : Bool
  sha1 : List Byte → Digest
  executed : 0 < execWorkers
  updated : 0 < updateWorkers
  wide : 65536 ≤ mapSize
  tables : updateWorkers * (mapSize * 8) < 2 ^ 32
  messages : 8 + (2 + mapSize) * 4 ≤ queueCapacity

inductive RunResult where
  | ok
  | tmout
  | crash
  | error
  | noinst
  | nobits
  deriving DecidableEq

/-- A deterministic target: what it does is a function of the bytes delivered.  The
map it announces is rounded up to cells of 64 and fits the one of the session;
beyond it nothing is hit. -/
structure Target (cfg : Setup) where
  realMapSize : Nat
  rounded : 64 ∣ realMapSize
  fits : realMapSize ≤ cfg.mapSize
  run : List Byte → RunResult
  trace : List Byte → Buffer
  silent : ∀ bytes k, realMapSize ≤ k → trace bytes k = 0

namespace Setup

variable (cfg : Setup)

def effectiveMapSize : Nat := if cfg.edgesOnly then cfg.mapSize else cfg.mapSize * 8

def collectCoverageCounts (trace : Buffer) : List Nat :=
  if cfg.edgesOnly then (List.range cfg.mapSize).filter (fun k => trace k ≠ 0)
  else if cfg.avx2 then (avx2Counts cfg.mapSize trace).map BitVec.toNat
  else (wordCounts cfg.mapSize trace).map BitVec.toNat

def accepts : RunResult → Bool
  | .error => false
  | .crash => cfg.crashesOnly || cfg.allowAny
  | .tmout => cfg.allowAny
  | .ok => !cfg.crashesOnly
  | .noinst => false
  | .nobits => false

variable {cfg} (target : Target cfg)

def runTargetFile (f : CminFile) : RunResult × Buffer :=
  if f.content.length < f.size then (.error, fun _ => 0)
  else
    let buf := aflFsrvWriteToTestcase cfg.useShmemFuzz (f.content.take f.size)
    (target.run buf, target.trace buf)

def execResult (f : CminFile) : Option (List Nat) :=
  if cfg.accepts (runTargetFile target f).1 then
    some (cfg.collectCoverageCounts (runTargetFile target f).2)
  else none

/-- The check of `test_target_binary`; otherwise the session ends there. -/
def testTargetBinary (f : CminFile) : Bool :=
  match (runTargetFile target f).1 with
  | .error | .noinst | .nobits => false
  | _ =>
    let tuples := cfg.collectCoverageCounts (runTargetFile target f).2
    !(tuples.length = 0 && !cfg.crashesOnly)

end Setup

def Setup.tupleAt (cfg : Setup) (trace : Buffer) (pos : Nat) : Nat :=
  if cfg.edgesOnly then pos else classTuple trace pos

def Setup.Produces (cfg : Setup) (trace : Buffer) (tuple : Nat) : Prop :=
  ∃ pos, pos < cfg.mapSize ∧ trace pos ≠ 0 ∧ tuple = cfg.tupleAt trace pos

variable {cfg : Setup} {target : Target cfg}

/-- The cells that the scan looks at: a scan in whole words leaves out the last ones. -/
def Setup.scannedSize (cfg : Setup) : Nat :=
  if cfg.edgesOnly || cfg.avx2 then cfg.mapSize else cfg.mapSize / 8 * 8

private theorem Setup.collectCoverageCounts_eq (cfg : Setup) (trace : Buffer) :
    cfg.collectCoverageCounts trace =
      ((List.range cfg.scannedSize).filter (fun k => trace k ≠ 0)).map (cfg.tupleAt trace) := by
  cases edges : cfg.edgesOnly with
  | true =>
    have tuple : cfg.tupleAt trace = id := funext (fun pos => if_pos edges)
    simp [collectCoverageCounts, scannedSize, edges, tuple]
  | false =>
    have tuple : cfg.tupleAt trace = classTuple trace :=
      funext (fun pos => if_neg (by rw [edges]; decide))
    have small : cfg.mapSize ≤ 2 ^ 29 := by
      have tables := cfg.tables
      have some := Nat.le_mul_of_pos_left (cfg.mapSize * 8) cfg.updated
      omega
    have shorter := Nat.div_mul_le_self cfg.mapSize 8
    simp only [collectCoverageCounts, scannedSize, edges, tuple, Bool.false_eq_true, if_false,
      Bool.false_or]
    cases cfg.avx2 with
    | true => rw [if_pos rfl, if_pos rfl, avx2Counts_eq, hitTuples_toNat small, tupleSpec]
    | false =>
      rw [if_neg (by decide), if_neg (by decide), wordCounts_eq,
        hitTuples_toNat (shorter.trans small), tupleSpec]

/-- The scan collects the tuples of the trace: what a scan in whole words leaves out at
the end of the map is never hit. -/
theorem Setup.mem_collectCoverageCounts (target : Target cfg) (bytes : List Byte) (tuple : Nat) :
    tuple ∈ cfg.collectCoverageCounts (target.trace bytes) ↔
      cfg.Produces (target.trace bytes) tuple := by
  have inside : ∀ pos, target.trace bytes pos ≠ 0 →
      (pos < cfg.scannedSize ↔ pos < cfg.mapSize) := by
    intro pos hit
    have below : pos < cfg.mapSize / 8 * 8 := by
      by_contra beyond
      obtain ⟨_, _⟩ := target.rounded
      have fits := target.fits
      exact hit (target.silent _ _ (by omega))
    unfold scannedSize
    split <;> omega
  simp only [collectCoverageCounts_eq, mem_map, mem_filter, mem_range, decide_eq_true_eq, Produces]
  constructor
  · rintro ⟨pos, ⟨below, hit⟩, rfl⟩
    exact ⟨pos, (inside _ hit).1 below, hit, rfl⟩
  · rintro ⟨pos, below, hit, rfl⟩
    exact ⟨pos, ⟨(inside _ hit).2 below, hit⟩, rfl⟩

def Setup.delivered (cfg : Setup) (f : CminFile) : List Byte :=
  aflFsrvWriteToTestcase cfg.useShmemFuzz (f.content.take f.size)

theorem Setup.runTargetFile_eq {f : CminFile} (sized : f.size ≤ f.content.length) :
    runTargetFile target f = (target.run (cfg.delivered f), target.trace (cfg.delivered f)) :=
  if_neg (Nat.not_lt.2 sized)

theorem Setup.execResult_eq {f : CminFile} (sized : f.size ≤ f.content.length) :
    execResult target f =
      if cfg.accepts (target.run (cfg.delivered f)) then
        some (cfg.collectCoverageCounts (target.trace (cfg.delivered f)))
      else none := by
  rw [execResult, runTargetFile_eq sized]

end AflPlusPlus.Cmin
