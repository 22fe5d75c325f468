/-
The integer divisions of `calculate_score`.

The averages divide by totals that are replaced by 1 when they are 0.  The schedules LIN
and QUAD divide by a path frequency plus one, in 32 bits, and a frequency stops at the
largest value of 32 bits: one more is 0.
-/

import AflPlusPlus.SaveOnce

namespace AflPlusPlus

open Machine

structure Division where
  dividend : Nat
  divisor : Nat

/-- `cal_cycles` or `bitmap_entries`: the low half of a total, 1 if that is 0. -/
def scoreTotal (total : Nat) : BitVec 32 :=
  if BitVec.ofNat 32 total = 0 then 1 else BitVec.ofNat 32 total

/-- The factor of the schedules that compare the level with the path frequency. -/
def Queue.levelDivision (queue : Queue) (entry : QueueEntry) (level : BitVec 32) : List Division :=
  if entry.fuzzLevel = 0 then []
  else [⟨level.toNat, (queue.nFuzz entry.nFuzzEntry + 1).toNat⟩]

/-- The integer divisions of `calculate_score` for one entry in their order.  All else
that it computes is multiplied, compared or divided as `double`. -/
def Afl.scoreDivisions (afl : Afl) (entry : QueueEntry) : List Division :=
  ⟨afl.totalCalUs.toNat, (scoreTotal afl.totalCalCycles).toNat⟩ ::
    ⟨afl.totalBitmapSize % 2 ^ 64, (scoreTotal afl.totalBitmapEntries).toNat⟩ ::
      match afl.queue.schedule with
      | .lin => afl.queue.levelDivision entry entry.fuzzLevel
      | .quad => afl.queue.levelDivision entry (entry.fuzzLevel * entry.fuzzLevel)
      | _ => []

def DividesSafely (divisions : List Division) : Prop :=
  ∀ division ∈ divisions, division.divisor ≠ 0

private theorem scoreTotal_toNat_ne_zero (total : Nat) : (scoreTotal total).toNat ≠ 0 := by
  unfold scoreTotal
  split
  · decide
  · rename_i pos
    rw [← BitVec.toNat_inj] at pos
    exact pos

private theorem succ_toNat_eq_zero_iff (count : BitVec 32) :
    (count + 1).toNat = 0 ↔ count = 0xFFFFFFFF := by
  have sum : (count + 1).toNat = (count.toNat + 1) % 2 ^ 32 := BitVec.toNat_add _ 1
  have full : count = 0xFFFFFFFF ↔ count.toNat = 0xFFFFFFFF := BitVec.toNat_inj.symm
  rw [full]
  omega

private theorem levelDivision_safe_iff (queue : Queue) (entry : QueueEntry) (level : BitVec 32) :
    DividesSafely (queue.levelDivision entry level) ↔
      ¬(entry.fuzzLevel ≠ 0 ∧ queue.nFuzz entry.nFuzzEntry = 0xFFFFFFFF) := by
  unfold DividesSafely Queue.levelDivision
  by_cases unfuzzed : entry.fuzzLevel = 0
  · simp [unfuzzed]
  · rw [if_neg unfuzzed, List.forall_mem_singleton, ne_eq, succ_toNat_eq_zero_iff]
    exact not_congr (and_iff_right unfuzzed).symm

/-- Scoring divides by zero exactly for a fuzzed entry with a full path counter, under
LIN and QUAD. -/
theorem score_divides_iff (afl : Afl) (entry : QueueEntry) :
    DividesSafely (afl.scoreDivisions entry) ↔
      ¬((afl.queue.schedule = .lin ∨ afl.queue.schedule = .quad) ∧ entry.fuzzLevel ≠ 0 ∧
        afl.queue.nFuzz entry.nFuzzEntry = 0xFFFFFFFF) := by
  have averages : ∀ rest, DividesSafely (⟨afl.totalCalUs.toNat,
      (scoreTotal afl.totalCalCycles).toNat⟩ :: ⟨afl.totalBitmapSize % 2 ^ 64,
        (scoreTotal afl.totalBitmapEntries).toNat⟩ :: rest) ↔ DividesSafely rest := by
    intro rest
    unfold DividesSafely
    rw [List.forall_mem_cons, List.forall_mem_cons]
    exact (and_iff_right (scoreTotal_toNat_ne_zero _)).trans
      (and_iff_right (scoreTotal_toNat_ne_zero _))
  unfold Afl.scoreDivisions
  rw [averages]
  cases afl.queue.schedule with
  | lin => simpa using levelDivision_safe_iff afl.queue entry entry.fuzzLevel
  | quad => simpa using levelDivision_safe_iff afl.queue entry _
  | _ => simp [DividesSafely]

section Hangs

variable (v : SkimVariant) (hash64 : Buffer → BitVec 64) (hash32 : Buffer → BitVec 32)
variable (outs : SaveOutcomes)

def quietTrace : Buffer := fun _ => 0

def ignoredHang (afl : Afl) : Checked Afl := do
  let call ← saveIfInteresting v hash64 hash32 outs 1 1 .tmout
    (fuzzRunTarget ⟨.tmout, quietTrace, false⟩ afl)
  .ok call.afl

def ignoredHangs : Nat → Afl → Checked Afl
  | 0, afl => .ok afl
  | count + 1, afl => do
    let pre ← ignoredHangs count afl
    ignoredHang v hash64 hash32 outs pre

def hangSlot (cov : Coverage) : Nat :=
  (hash64 (classifyCounts v.size (cov.withTrace quietTrace).fsrv).traceBits).toNat % nFuzzSize

def oneSeed : Afl :=
  let coverage := Coverage.initial 64 64
  let queue := addToQueue 1 (Queue.empty .lin false false)
  Afl.initial coverage (queue.modify 0 fun entry =>
    { entry with fuzzLevel := 1, nFuzzEntry := hangSlot v hash64 coverage })
    ⟨false, false, true⟩ 1000 1000

variable {v hash64 hash32 outs} {afl : Afl} {count : Nat}

structure Hung (v : SkimVariant) (hash64 : Buffer → BitVec 64) (count : Nat) (afl : Afl) :
    Prop where
  ignoring : afl.env.aflIgnoreTimeouts = true
  schedule : afl.queue.schedule = .lin
  entries : afl.queue.queueBuf = (oneSeed v hash64).queue.queueBuf
  slot : hangSlot v hash64 afl.coverage = hangSlot v hash64 (oneSeed v hash64).coverage
  counted : afl.queue.nFuzz (hangSlot v hash64 afl.coverage) = BitVec.ofNat 32 count

theorem Hung.again (hung : Hung v hash64 count afl) (room : count < 0xFFFFFFFF) :
    ∃ next, ignoredHang v hash64 hash32 outs afl = .ok next ∧ Hung v hash64 (count + 1) next := by
  let run : TargetRun := ⟨.tmout, quietTrace, false⟩
  have paths : (fuzzRunTarget run afl).queue.schedule.countsPaths = true := by
    change afl.queue.schedule.countsPaths = true
    rw [hung.schedule]
    rfl
  let traced := (fuzzRunTarget run afl).classify v.size
  refine ⟨traced.withQueue (afl.queue.countPath (hash64 traced.coverage.fsrv.traceBits)), ?_, ?_⟩
  · have ignoring := hung.ignoring
    simp only [ignoredHang, saveIfInteresting, runLabels, saveStep, SavePoint.start, saveEnter]
    rw [if_neg (by decide), if_pos ⟨trivial, ignoring⟩]
    simp only [SavePoint.updateFrequency]
    rw [if_pos paths]
    rfl
  · let slot := hangSlot v hash64 afl.coverage
    have below : afl.queue.nFuzz slot < 0xFFFFFFFF := by
      rw [hung.counted]
      change (BitVec.ofNat 32 _).toNat < 0xFFFFFFFF
      rw [BitVec.toNat_ofNat]
      omega
    have counts : afl.queue.countPath (hash64 traced.coverage.fsrv.traceBits) = { afl.queue with
          nFuzz := Function.update afl.queue.nFuzz slot (afl.queue.nFuzz slot + 1) } :=
      if_pos below
    rw [counts]
    refine ⟨hung.ignoring, hung.schedule, hung.entries, hung.slot, ?_⟩
    refine (Function.update_self _ _ _).trans ?_
    rw [BitVec.ofNat_add, ← hung.counted]
    rfl

private theorem oneSeed_hung : Hung v hash64 0 (oneSeed v hash64) :=
  ⟨rfl, rfl, rfl, rfl, rfl⟩

private theorem ignoredHangs_hung {count : Nat} (few : count ≤ 0xFFFFFFFF) :
    ∃ afl, ignoredHangs v hash64 hash32 outs count (oneSeed v hash64) = .ok afl ∧
      Hung v hash64 count afl := by
  induction count with
  | zero => exact ⟨oneSeed _ _, rfl, oneSeed_hung⟩
  | succ count ih =>
    obtain ⟨_, runs, hung⟩ := ih (Nat.le_of_succ_le few)
    obtain ⟨next, again, later⟩ := hung.again few
    refine ⟨next, ?_, later⟩
    unfold ignoredHangs
    rw [runs]
    exact again

theorem Hung.divides (hung : Hung v hash64 0xFFFFFFFF afl) :
    ⟨1, 0⟩ ∈ afl.scoreDivisions (afl.queue.queueBuf 0) := by
  have full : afl.queue.nFuzz (hangSlot v hash64 (Coverage.initial 64 64)) = 0xFFFFFFFF :=
    (congrArg afl.queue.nFuzz hung.slot).symm.trans hung.counted
  have division : afl.queue.levelDivision (afl.queue.queueBuf 0) (afl.queue.queueBuf 0).fuzzLevel =
      [⟨1, 0⟩] := by
    rw [hung.entries]
    change [Division.mk 1 (afl.queue.nFuzz (hangSlot _ _ _) + 1).toNat] = [⟨1, 0⟩]
    rw [full]
    rfl
  unfold Afl.scoreDivisions
  rw [hung.schedule]
  refine List.mem_cons_of_mem _ (List.mem_cons_of_mem _ ?_)
  rw [division]
  exact List.mem_singleton_self _

end Hangs

/-- After enough hangs the level of the seed is divided by zero. -/
theorem full_counter_divides_by_zero :
    ∃ afl, ignoredHangs .plain64 (fun _ => 0) (fun _ => 0) alternatingOutcomes 0xFFFFFFFF
        (oneSeed .plain64 fun _ => 0) = .ok afl ∧
      ⟨1, 0⟩ ∈ afl.scoreDivisions (afl.queue.queueBuf 0) := by
  obtain ⟨afl, runs, hung⟩ := ignoredHangs_hung (Nat.le_refl _)
  exact ⟨afl, runs, hung.divides⟩

end AflPlusPlus
