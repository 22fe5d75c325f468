/-
Small changes of a buffer as words.

Writing up to four adjacent bytes is an exclusive or with one 32-bit word at
their address.  Moving the word by whole bytes moves the address, and a word
with a single nonzero lane is a change of that lane alone.
-/

import AflPlusPlus.Machine.LaneWord
import Mathlib.Algebra.Group.Nat.Defs

namespace AflPlusPlus.Machine.LaneWord

open BitVec

variable {w part : Nat}
variable (lane : Nat)

theorem laneAt_xor (left right : BitVec w) (idx : Nat) :
    laneAt lane (left ^^^ right) idx = laneAt lane left idx ^^^ laneAt lane right idx := by
  apply eq_of_getLsbD_eq
  intro bit inside
  simp only [getLsbD_xor, getLsbD_laneAt, inside, decide_true, Bool.true_and]

theorem toNat_laneAt (word : BitVec w) (idx : Nat) :
    (laneAt lane word idx).toNat = word.toNat / 2 ^ (lane * idx) % 2 ^ lane := by
  unfold laneAt
  rw [BitVec.extractLsb'_toNat, Nat.shiftRight_eq_div_pow]

theorem laneAt_first (word : BitVec w) : laneAt lane word 0 = word.setWidth lane := by
  apply eq_of_toNat_eq
  rw [toNat_laneAt, Nat.mul_zero, Nat.pow_zero, Nat.div_one, toNat_setWidth]

theorem laneAt_setWidth {wider : Nat} {lane : Nat} {word : BitVec w} {idx : Nat}
    (fits : w ≤ wider) : laneAt lane (word.setWidth wider) idx = laneAt lane word idx := by
  apply eq_of_toNat_eq
  have small : word.toNat < 2 ^ wider :=
    Nat.lt_of_lt_of_le word.isLt (Nat.pow_le_pow_right (by decide) fits)
  rw [toNat_laneAt, toNat_laneAt, toNat_setWidth, Nat.mod_eq_of_lt small]

theorem laneAt_beyond {lane : Nat} (word : BitVec w) (idx : Nat)
    (beyond : w ≤ lane * idx) : laneAt lane word idx = 0 := by
  apply eq_of_toNat_eq
  rw [toNat_laneAt, Nat.div_eq_of_lt]
  · exact Nat.zero_mod _
  · exact Nat.lt_of_lt_of_le word.isLt (Nat.pow_le_pow_right (by decide) beyond)

theorem store_store (w : Nat) (mem : Buffer) (base : Nat) (first second : BitVec (8 * w)) :
    store w (store w mem base first) base second = store w mem base second := by
  funext addr
  unfold store
  split <;> rfl

theorem store_load (w : Nat) (mem : Buffer) (base : Nat) :
    store w mem base (load w mem base) = mem := by
  funext addr
  by_cases inside : base ≤ addr ∧ addr < base + w
  · obtain ⟨offset, rfl⟩ : ∃ offset, addr = base + offset := ⟨addr - base, by omega⟩
    have within : offset < w := by omega
    rw [store_inside within, laneAt_load _ _ _ _ within]
  · exact store_outside (by omega)

theorem load_store (w : Nat) (mem : Buffer) (base : Nat) (word : BitVec (8 * w)) :
    load w (store w mem base word) base = word := by
  apply eq_of_laneAt_eq
  intro idx within
  rw [laneAt_load _ _ _ _ within, store_inside within]

theorem getLsbD_load {w : Nat} {mem : Buffer} {base bit : Nat} (inside : bit < 8 * w) :
    (load w mem base).getLsbD bit = (mem (base + bit / 8)).getLsbD (bit % 8) := by
  have lane := congrArg (fun byte => byte.getLsbD (bit % 8))
    (laneAt_load w mem base (bit / 8) (by omega))
  rw [getLsbD_laneAt, Nat.div_add_mod] at lane
  simpa [Nat.mod_lt bit (show 0 < 8 by decide)] using lane

variable (mem : Buffer) (base : Nat)

theorem setWidth_shift_load (skip : Nat) (inside : skip + part ≤ w) (short : w ≤ 4) :
    (((load w mem base).setWidth 32) >>> (8 * skip)).setWidth (8 * part) =
      load part mem (base + skip) := by
  apply eq_of_getLsbD_eq
  intro bit low
  rw [getLsbD_setWidth, getLsbD_ushiftRight, getLsbD_setWidth,
    getLsbD_load (by omega), getLsbD_load low,
    show (8 * skip + bit) / 8 = skip + bit / 8 by omega,
    Nat.add_assoc]
  simp [low, show 8 * skip + bit < 32 by omega]

theorem laneAt_load_part (idx : Nat) (inside : part * idx + part ≤ w) :
    laneAt (8 * part) (load w mem base) idx = load part mem (base + part * idx) := by
  apply eq_of_getLsbD_eq
  intro bit low
  have place : 8 * part * idx = 8 * (part * idx) := Nat.mul_assoc 8 _ _
  rw [getLsbD_laneAt, place, getLsbD_load (by omega), getLsbD_load low,
    show (8 * (part * idx) + bit) / 8 = part * idx + bit / 8 by omega,
    Nat.add_assoc]
  simp [low]

/-- The bytes from `base` on, changed by the bytes of `word`. -/
def xorAt (mem : Buffer) (base : Nat) (word : BitVec 32) : Buffer :=
  fun addr =>
    if base ≤ addr then mem addr ^^^ laneAt 8 word (addr - base) else mem addr

variable (word : BitVec 32)

theorem xorAt_diff (addr : Nat) :
    mem addr ^^^ xorAt mem base word addr =
      if base ≤ addr then laneAt 8 word (addr - base) else 0 := by
  unfold xorAt
  split
  · rw [← BitVec.xor_assoc, BitVec.xor_self, BitVec.zero_xor]
  · exact BitVec.xor_self

theorem xorAt_zero : xorAt mem base 0 = mem := by
  funext addr
  unfold xorAt
  split
  · rw [laneAt_zero]
    exact xor_zero
  · rfl

theorem xorAt_xorAt (first second : BitVec 32) :
    xorAt (xorAt mem base first) base second = xorAt mem base (first ^^^ second) := by
  funext addr
  unfold xorAt
  split
  · rw [laneAt_xor, xor_assoc]
  · rfl

theorem xorAt_injective : Function.Injective (xorAt mem base) := by
  intro left right same
  apply @eq_of_laneAt_eq 8 4
  intro idx _
  have here := congrArg (mem (base + idx) ^^^ ·) (congrFun same (base + idx))
  rw [xorAt_diff, xorAt_diff, if_pos (Nat.le_add_right _ _),
    if_pos (Nat.le_add_right _ _), Nat.add_sub_cancel_left] at here
  exact here

/-- A byte that changes lies among the four bytes of every word that makes the
change. -/
theorem xorAt_place {mem : Buffer} {base other idx : Nat} {word left : BitVec 32}
    (lit : laneAt 8 word idx ≠ 0) (same : xorAt mem other left = xorAt mem base word) :
    other ≤ base + idx ∧ base + idx - other < 4 := by
  have lane : (if other ≤ base + idx then laneAt 8 left (base + idx - other) else 0) =
      laneAt 8 word idx := by
    rw [← xorAt_diff _, same, xorAt_diff, if_pos (Nat.le_add_right _ _), Nat.add_sub_cancel_left]
  split at lane
  · rename_i pre
    refine ⟨pre, ?_⟩
    rcases Nat.lt_or_ge (base + idx - other) 4 with near | far
    · exact near
    · rw [laneAt_beyond _ _ (by omega)] at lane
      exact absurd lane.symm lit
  · exact absurd lane.symm lit

theorem store_eq_xorAt (short : w ≤ 4) (mem : Buffer) (base : Nat) (word : BitVec (8 * w)) :
    store w mem base word = xorAt mem base ((load w mem base ^^^ word).setWidth 32) := by
  funext addr
  unfold xorAt
  by_cases below : addr < base
  · rw [if_neg (by omega), store_outside (.inl below)]
  · obtain ⟨offset, rfl⟩ : ∃ offset, addr = base + offset := ⟨addr - base, by omega⟩
    rw [if_pos (Nat.le_add_right _ _), Nat.add_sub_cancel_left,
      laneAt_setWidth (by omega), laneAt_xor]
    by_cases within : offset < w
    · rw [store_inside within, laneAt_load _ _ _ _ within, ← BitVec.xor_assoc,
        BitVec.xor_self, BitVec.zero_xor]
    · rw [store_outside (by omega), laneAt_beyond _ _ (by omega),
        laneAt_beyond _ _ (by omega), BitVec.xor_self, BitVec.xor_zero]

theorem xorAt_shift {bytes : Nat} {word : BitVec 32}
    (fits : word.toNat * 2 ^ (8 * bytes) < 2 ^ 32) :
    xorAt mem base (word <<< (8 * bytes)) = xorAt mem (base + bytes) word := by
  have shifted : (word <<< (8 * bytes)).toNat = word.toNat * 2 ^ (8 * bytes) := by
    rw [toNat_shiftLeft, Nat.shiftLeft_eq, Nat.mod_eq_of_lt fits]
  funext addr
  unfold xorAt
  by_cases below : addr < base
  · rw [if_neg (by omega), if_neg (by omega)]
  · obtain ⟨offset, rfl⟩ : ∃ offset, addr = base + offset := ⟨addr - base, by omega⟩
    rw [if_pos (Nat.le_add_right _ _), Nat.add_sub_cancel_left]
    by_cases early : offset < bytes
    · have zero : laneAt 8 (word <<< (8 * bytes)) offset = 0 := by
        apply eq_of_toNat_eq
        obtain ⟨more, rfl⟩ : ∃ more, bytes = offset + 1 + more := ⟨bytes - offset - 1, by omega⟩
        have split : 2 ^ (8 * (offset + 1 + more)) = 2 ^ (8 * more) * 2 ^ 8 * 2 ^ (8 * offset) := by
          rw [← Nat.pow_add, ← Nat.pow_add]
          congr 1
          omega
        rw [toNat_laneAt, shifted, split, ← Nat.mul_assoc,
          Nat.mul_div_cancel _ (Nat.two_pow_pos _), ← Nat.mul_assoc, Nat.mul_mod_left]
        rfl
      rw [zero, if_neg (by omega)]
      exact xor_zero
    · obtain ⟨more, rfl⟩ : ∃ more, offset = bytes + more := ⟨offset - bytes, by omega⟩
      have same : laneAt 8 (word <<< (8 * bytes)) (bytes + more) = laneAt 8 word more := by
        apply eq_of_toNat_eq
        rw [toNat_laneAt, toNat_laneAt, shifted, Nat.mul_add, Nat.pow_add, ← Nat.div_div_eq_div_mul,
          Nat.mul_div_cancel _ (Nat.two_pow_pos _)]
      rw [same, if_pos (by omega)]
      congr 2
      omega

theorem eq_shiftLeft_of_laneAt {lane : Nat} (pos : 0 < lane) (word : BitVec 32) (idx : Nat)
    (others : ∀ other, other ≠ idx → laneAt lane word other = 0) :
    word = (laneAt lane word idx).setWidth 32 <<< (lane * idx) := by
  apply eq_of_getLsbD_eq
  intro bit inside
  rw [getLsbD_shiftLeft, getLsbD_setWidth, getLsbD_laneAt]
  simp only [inside, decide_true, Bool.true_and]
  have parts := Nat.div_add_mod bit lane
  have small := Nat.mod_lt bit pos
  by_cases here : bit / lane = idx
  · subst here
    have low : lane * (bit / lane) ≤ bit := by omega
    have offset : bit - lane * (bit / lane) = bit % lane := by omega
    rw [offset]
    simp [Nat.not_lt.2 low, small, parts, Nat.lt_of_le_of_lt (Nat.mod_le bit lane) inside]
  · have zero := congrArg (fun part => part.getLsbD (bit % lane)) (others (bit / lane) here)
    simp only [getLsbD_laneAt, small, decide_true, Bool.true_and, parts] at zero
    rw [zero]
    symm
    rcases Nat.lt_or_gt_of_ne here with pre | post
    · have early : bit < lane * idx := by
        have bound := Nat.mul_le_mul_left lane (Nat.succ_le_of_lt pre)
        rw [Nat.mul_succ] at bound
        omega
      simp [early]
    · have late : lane ≤ bit - lane * idx := by
        have bound := Nat.mul_le_mul_left lane (Nat.succ_le_of_lt post)
        rw [Nat.mul_succ] at bound
        omega
      simp [Nat.not_lt.2 late]

theorem xor_insert (mask : BitVec 32) (v : BitVec part) (shift : Nat)
    (full : mask = (BitVec.allOnes part).setWidth 32) :
    word ^^^ ((word &&& ~~~(mask <<< shift)) ||| (v.setWidth 32 <<< shift)) =
      ((word >>> shift).setWidth part ^^^ v).setWidth 32 <<< shift := by
  subst full
  apply eq_of_getLsbD_eq
  intro bit inside
  by_cases early : bit < shift
  · simp [early, inside]
  · by_cases within : bit - shift < part
    · have back : shift + (bit - shift) = bit := by omega
      have low : bit - shift < 32 := by omega
      simp [early, inside, within, back, low]
    · simp [early, inside, within, getLsbD_of_ge v (bit - shift) (by omega)]

end AflPlusPlus.Machine.LaneWord
