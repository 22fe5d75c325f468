/-
Constants and small functions that several parts of the fuzzer share.
-/

import AflPlusPlus.Machine.LaneWord

namespace AflPlusPlus

open Machine

/-- `MAX_FILE` -/
def maxFile : Nat := 1024 * 1024

/-- `USE_AUTO_EXTRAS` -/
def useAutoExtras : Nat := 4096

def defaultMapSize : Nat := 65536

/-- `rand_below`, from the raw number that passed its rejection loop -/
def randBelow (limit raw : Nat) : Nat := if limit ≤ 1 then 0 else raw % limit

theorem randBelow_le (limit raw : Nat) : randBelow limit raw ≤ limit - 1 := by
  unfold randBelow
  split
  · omega
  · have below : raw % limit < limit := Nat.mod_lt _ (by omega)
    omega

/-- `next_pow2` for a 64-bit `size_t`. -/
def nextPow2 (input : BitVec 64) : BitVec 64 :=
  let out := input - 1
  let out := out ||| out >>> 1
  let out := out ||| out >>> 2
  let out := out ||| out >>> 4
  let out := out ||| out >>> 8
  let out := out ||| out >>> 16
  out + 1

/-- `afl_fsrv_write_to_testcase`: shared memory holds no more than `MAX_FILE`. -/
def aflFsrvWriteToTestcase {Cell : Type} (useShmemFuzz : Bool) (buf : List Cell) : List Cell :=
  if useShmemFuzz then buf.take maxFile else buf

/-- The length limits of `write_to_testcase`.  `fix` is set where an entry of the queue
is run as it is. -/
def fitLength (minLength maxLength : Nat) (fix : Bool) (mem : List Byte) : List Byte :=
  if mem.length < minLength ∧ ¬fix then mem ++ List.replicate (minLength - mem.length) 0
  else if mem.length > maxLength then mem.take maxLength
  else mem

/-- What `afl_custom_post_process` returns and leaves in `new_buf`. -/
structure PostOutcome (Pointer : Type) where
  size : Int
  buf : Option Pointer

variable {Pointer : Type}

/-- No buffer and no size are rejections. -/
def PostOutcome.accepted (outcome : PostOutcome Pointer) : Option (Pointer × Int) :=
  match outcome.buf with
  | none => none
  | some buf => if outcome.size ≤ 0 then none else some (buf, outcome.size)

/-- A rejection keeps the buffer and does not stop the next hook. -/
def PostOutcome.follow (outcome : PostOutcome Pointer) (cur : Pointer × Int) : Pointer × Int :=
  outcome.accepted.getD (cur.1, 0)

end AflPlusPlus
