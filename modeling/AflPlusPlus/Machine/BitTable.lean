/-
Tables of bits packed eight to a byte.
-/

import AflPlusPlus.Machine.CountedLoop

namespace AflPlusPlus.Machine

open Function

/-- `bits[i >> 3] & (1 << (i & 7))` -/
def bitAt (bits : Buffer) (i : Nat) : Bool := (bits (i / 8)).getLsbD (i % 8)

/-- `bits[i >> 3] |= 1 << (i & 7)` -/
def setBit (bits : Buffer) (i : Nat) : Buffer :=
  update bits (i / 8) (bits (i / 8) ||| (1 : Byte) <<< (i % 8))

/-- Remove from the first `len` bytes of a table what another table has set,
from the last byte down. -/
def removeBits (len : Nat) (bits removed : Buffer) : Buffer :=
  forDown len (fun j cur =>
    if removed j ≠ 0 then update cur j (cur j &&& ~~~(removed j))
    else cur) bits

@[simp] theorem bitAt_zero (i : Nat) : bitAt (fun _ => 0) i = false :=
  BitVec.getLsbD_zero

private theorem one_shiftLeft_bit : ∀ place, place < 8 → ∀ bit, bit < 8 →
    ((1 : Byte) <<< place).getLsbD bit = decide (bit = place) := by decide

theorem bitAt_setBit (bits : Buffer) (i k : Nat) :
    bitAt (setBit bits i) k = (bitAt bits k || decide (k = i)) := by
  have insideI := Nat.mod_lt i (by decide : 0 < 8)
  have insideK := Nat.mod_lt k (by decide : 0 < 8)
  unfold bitAt setBit
  by_cases sameByte : k / 8 = i / 8
  · rw [sameByte, update_self, BitVec.getLsbD_or, one_shiftLeft_bit _ insideI _ insideK]
    congr 1
    rw [decide_eq_decide]
    omega
  · rw [update_of_ne sameByte]
    have ne : k ≠ i := by
      intro same
      rw [same] at sameByte
      exact sameByte rfl
    simp [ne]

private theorem removeBits_apply (len : Nat) (bits removed : Buffer) (j : Nat) :
    removeBits len bits removed j =
      if j < len then bits j &&& ~~~(removed j) else bits j := by
  apply forDown_bytes _ _ (fun j byte => byte &&& ~~~(removed j))
  intro idx _ mem
  split
  · rfl
  · rename_i zero
    rw [not_not.1 zero]
    have whole : mem idx &&& ~~~(0 : Byte) = mem idx := BitVec.and_allOnes
    rw [whole, update_eq_self]

theorem bitAt_removeBits {len : Nat} {bits removed : Buffer} (k : Nat) (inside : k / 8 < len) :
    bitAt (removeBits len bits removed) k = (bitAt bits k && !bitAt removed k) := by
  have small := Nat.mod_lt k (by decide : 0 < 8)
  unfold bitAt
  rw [removeBits_apply, if_pos inside, BitVec.getLsbD_and, BitVec.getLsbD_not, decide_eq_true small,
    Bool.true_and]

end AflPlusPlus.Machine
