/-
The changes that the deterministic stages make, as exclusive or patterns.

The stages walk the bits of each byte from the most significant one, so a run of 2 or 4
bits that crosses from one byte into the next one of a little endian word is none of
their flips.
-/

import AflPlusPlus.DetTrials
import AflPlusPlus.Machine.Carry

namespace AflPlusPlus

open Machine List BitVec
open Machine.LaneWord

/-- `swap` reverses the bytes of a word. -/
def Reverses (w : Nat) (swap : BitVec (8 * w) → BitVec (8 * w)) : Prop :=
  ∀ x k, k < w → laneAt 8 (swap x) k = laneAt 8 x (w - 1 - k)

theorem reverses8 : Reverses 1 id := by
  intro x k inside
  rw [show 1 - 1 - k = k by omega]
  rfl

theorem reverses16 : Reverses 2 swap16 := by
  intro x k inside
  apply eq_of_getLsbD_eq
  intro bit low
  have cases : k = 0 ∨ k = 1 := by omega
  rw [getLsbD_laneAt, getLsbD_laneAt]
  unfold swap16
  rw [getLsbD_or, getLsbD_shiftLeft]
  rcases cases with rfl | rfl
  · simp [low, show bit < 16 by omega]
  · simp [low, show 8 + bit < 16 by omega, getLsbD_of_ge x (8 + (8 + bit)) (by omega)]

theorem reverses32 : Reverses 4 swap32 := by
  intro x k inside
  apply eq_of_getLsbD_eq
  intro bit low
  have third : ∀ n, n < 32 → (0x00FF0000#32).getLsbD n = decide (n / 8 = 2) := by decide
  have second : ∀ n, n < 32 → (0x0000FF00#32).getLsbD n = decide (n / 8 = 1) := by decide
  have beyond : ∀ n, 32 ≤ n → x.getLsbD n = false := fun n => getLsbD_of_ge x n
  have byte : (8 * k + bit) / 8 = k := by omega
  have cases : k = 0 ∨ k = 1 ∨ k = 2 ∨ k = 3 := by omega
  rw [getLsbD_laneAt, getLsbD_laneAt]
  unfold swap32
  simp only [getLsbD_or, getLsbD_and, getLsbD_shiftLeft,
    getLsbD_ushiftRight, third (8 * k + bit) (by omega), second (8 * k + bit) (by omega),
    byte]
  rcases cases with rfl | rfl | rfl | rfl
  · simp [low, show bit < 24 by omega]
  · simp [low, show 8 + bit < 24 by omega, show 8 + (8 + bit) = 16 + bit by omega,
      beyond (24 + (8 + bit)) (by omega)]
  · simp [low, show 16 + bit < 24 by omega, show 16 + bit < 32 by omega,
      show ¬ 16 + bit < 8 by omega, show 16 + bit - 8 = 8 + bit by omega,
      beyond (24 + (16 + bit)) (by omega)]
  · simp [low, show 24 + bit < 32 by omega, beyond (24 + (24 + bit)) (by omega)]

section Reverses

variable {w part : Nat} {swap : BitVec (8 * w) → BitVec (8 * w)}
  {turn : BitVec (8 * part) → BitVec (8 * part)} (reverses : Reverses w swap)
include reverses

theorem Reverses.swap_swap (x : BitVec (8 * w)) : swap (swap x) = x := by
  apply eq_of_laneAt_eq
  intro k inside
  rw [reverses _ _ inside, reverses _ _ (by omega), show w - 1 - (w - 1 - k) = k by omega]

theorem Reverses.swap_xor (x y : BitVec (8 * w)) : swap (x ^^^ y) = swap x ^^^ swap y := by
  apply eq_of_laneAt_eq
  intro k inside
  rw [laneAt_xor, reverses _ _ inside, reverses _ _ inside, reverses _ _ inside, laneAt_xor]

variable (inner : Reverses part turn) (whole : w = 2 * part)
include inner whole

/-- A word that fills the lower half fills the upper half when it is reversed. -/
theorem Reverses.half (pos : 0 < part) (short : part ≤ 2) (x : BitVec (8 * part)) :
    (swap (x.setWidth (8 * w))).setWidth 32 = (turn x).setWidth 32 <<< (8 * part) := by
  have lanes : ∀ k, laneAt (8 * part) ((swap (x.setWidth (8 * w))).setWidth 32) k =
      if k = 1 then turn x else 0 := by
    intro k
    rw [laneAt_setWidth (by omega)]
    rcases Nat.lt_or_ge k 2 with inside | beyond
    · apply eq_of_laneAt_eq
      intro byte low
      have cases : k = 0 ∨ k = 1 := by omega
      rw [laneAt_laneAt 8 part _ _ _ low]
      rcases cases with rfl | rfl
      · rw [reverses _ _ (by omega), laneAt_setWidth (by omega), if_neg (by decide), laneAt_zero]
        exact laneAt_beyond x _ (by omega)
      · rw [reverses _ _ (by omega), laneAt_setWidth (by omega), if_pos rfl, inner _ _ low]
        congr 1
        omega
    · rw [if_neg (by omega)]
      have := Nat.mul_le_mul_left (8 * part) beyond
      exact laneAt_beyond _ _ (by omega)
  have single := eq_shiftLeft_of_laneAt (show 0 < 8 * part by omega) _ 1
    (fun other ne => by rw [lanes, if_neg ne])
  rw [lanes, Nat.mul_one] at single
  exact single

theorem Reverses.load_half (buf : Buffer) (i : Nat) :
    (swap (load w buf i)).setWidth (8 * part) = turn (load part buf (i + part)) := by
  apply eq_of_laneAt_eq
  intro byte low
  have outer := laneAt_laneAt 8 part (swap (load w buf i)) 0 _ low
  rw [laneAt_first] at outer
  rw [outer, reverses _ _ (by omega), inner _ _ low, laneAt_load _ _ _ _ (by omega),
    laneAt_load _ _ _ _ (by omega)]
  congr 1
  omega

end Reverses

/-- Runs of 2 or 4 bits that cross from the lowest byte into the next one. -/
def straddling : List Nat := [0x180, 0x1E0, 0x3C0, 0x780]

def Straddles (xorVal : BitVec 32) : Prop :=
  ∃ pattern ∈ straddling, ∃ bytes ∈ [0, 1, 2], xorVal.toNat = pattern * 2 ^ (8 * bytes)

instance (xorVal : BitVec 32) : Decidable (Straddles xorVal) :=
  inferInstanceAs (Decidable (∃ pattern ∈ straddling, ∃ bytes ∈ [0, 1, 2],
    xorVal.toNat = pattern * 2 ^ (8 * bytes)))

variable {xorVal : BitVec 32} {bytes : Nat}

theorem Straddles.elim (holds : Nat → Prop) (straddles : Straddles xorVal)
    (all : ∀ pattern ∈ straddling, ∀ bytes ∈ [0, 1, 2], holds (pattern * 2 ^ (8 * bytes))) :
    holds xorVal.toNat := by
  obtain ⟨pattern, known, bytes, few, v⟩ := straddles
  rw [v]
  exact all _ known _ few

private theorem shiftOut_spec (fuel : Nat) (xorVal : BitVec 32) (sh : Nat) :
    sh ≤ (shiftOut fuel xorVal sh).2 ∧
      (shiftOut fuel xorVal sh).1.toNat * 2 ^ ((shiftOut fuel xorVal sh).2 - sh) =
        xorVal.toNat := by
  induction fuel generalizing xorVal sh with
  | zero => simp [shiftOut]
  | succ fuel ih =>
    unfold shiftOut
    split
    · rename_i even
      obtain ⟨_, product⟩ := ih (xorVal >>> 1) (sh + 1)
      have halves : xorVal.toNat = 2 * (xorVal >>> 1).toNat := by
        have bit := congrArg BitVec.toNat even
        change xorVal.toNat &&& 1 = 0 at bit
        rw [Nat.and_one_is_mod] at bit
        rw [toNat_ushiftRight]
        omega
      refine ⟨by omega, ?_⟩
      rw [halves, ← product, show (shiftOut fuel (xorVal >>> 1) (sh + 1)).2 - sh =
        (shiftOut fuel (xorVal >>> 1) (sh + 1)).2 - (sh + 1) + 1 by omega, Nat.pow_succ]
      rw [← Nat.mul_assoc, Nat.mul_comm _ 2]
    · simp

private theorem couldBeBitflip_run (xorVal : BitVec 32) (flips : couldBeBitflip xorVal = true) :
    xorVal = 0 ∨ ∃ run shift, xorVal.toNat = run * 2 ^ shift ∧
      (run ∈ [1, 3, 15] ∨ shift % 8 = 0 ∧ run ∈ [0xff, 0xffff, 0xffffffff]) := by
  unfold couldBeBitflip at flips
  split at flips
  · rename_i zero
    exact .inl zero
  · obtain ⟨_, product⟩ := shiftOut_spec 32 xorVal 0
    right
    refine ⟨(shiftOut 32 _ 0).1.toNat, (shiftOut 32 _ 0).2, product.symm, ?_⟩
    generalize shiftOut 32 xorVal 0 = shifted at flips
    obtain ⟨run, shift⟩ := shifted
    dsimp only at flips ⊢
    have low : shift &&& 7 = shift % 8 := Nat.and_two_pow_sub_one_eq_mod _ 3
    rw [low] at flips
    split at flips
    · rename_i few
      left
      rcases few with rfl | rfl | rfl <;> decide
    · split at flips
      · cases flips
      · rename_i aligned
        right
        refine ⟨Decidable.not_not.1 aligned, ?_⟩
        rcases of_decide_eq_true flips with rfl | rfl | rfl <;> decide

/-- The content that differs from the input by `xorVal` at `i` is executed. -/
def Reached (noArith : Bool) (len : Nat) (buf : Buffer) (i : Nat) (xorVal : BitVec 32) : Prop :=
  Tried noArith len buf false (xorAt buf i xorVal)

variable {w run : Nat}

section Reached

variable {noArith : Bool} {len : Nat} {buf : Buffer} {i : Nat}

theorem reached_zero : Reached noArith len buf i 0 := by
  unfold Reached
  rw [xorAt_zero]
  exact .input

theorem Reached.shift (reached : Reached noArith len buf (i + bytes) xorVal)
    (fits : xorVal.toNat * 2 ^ (8 * bytes) < 2 ^ 32) :
    Reached noArith len buf i (xorVal <<< (8 * bytes)) := by
  unfold Reached at reached ⊢
  rw [xorAt_shift _ _ fits]
  exact reached

private theorem Reached.of_toNat {small : Nat}
    (reached : Reached noArith len buf (i + bytes) (BitVec.ofNat 32 small))
    (v : xorVal.toNat = small * 2 ^ (8 * bytes)) : Reached noArith len buf i xorVal := by
  have bound := xorVal.isLt
  have below : small < 2 ^ 32 :=
    Nat.lt_of_le_of_lt (Nat.le_mul_of_pos_right _ (Nat.two_pow_pos (8 * bytes))) (by omega)
  have exact : (BitVec.ofNat 32 small).toNat = small := Nat.mod_eq_of_lt below
  have moved : xorVal = BitVec.ofNat 32 small <<< (8 * bytes) := by
    apply eq_of_toNat_eq
    rw [toNat_shiftLeft, exact, Nat.shiftLeft_eq, ← v, Nat.mod_eq_of_lt bound]
  rw [moved]
  exact reached.shift (by rw [exact]; omega)

private theorem reached_run (mem : run ∈ [1, 3, 15]) (shift : Nat)
    (within : run * 2 ^ shift < 256) (inside : i < len) :
    Reached noArith len buf i (BitVec.ofNat 32 (run * 2 ^ shift)) := by
  have flip : ∀ count ∈ [1, 2, 4], ∀ q, q + count ≤ 8 →
      Reached noArith len buf i (flipMask count q) := by
    intro count mem q fits
    unfold Reached
    rw [← flipBits_eq_xorAt _ _ _ _ (by omega)]
    exact .flip mem (by omega)
  have small : shift < 8 := by
    rw [← Nat.pow_lt_pow_iff_right (show 1 < 2 by decide)]
    have pos : 0 < run := by
      rcases mem_cons.1 mem with rfl | mem
      · decide
      · simp only [mem_cons, not_mem_nil, or_false] at mem
        omega
    exact Nat.lt_of_le_of_lt (Nat.le_mul_of_pos_left _ pos) within
  have ones : ∀ t, t < 8 → flipMask 1 (7 - t) = BitVec.ofNat 32 (1 * 2 ^ t) := by decide
  have pairs : ∀ t, t < 7 → flipMask 2 (6 - t) = BitVec.ofNat 32 (3 * 2 ^ t) := by decide
  have fours : ∀ t, t < 5 → flipMask 4 (4 - t) = BitVec.ofNat 32 (15 * 2 ^ t) := by decide
  simp only [mem_cons, not_mem_nil, or_false] at mem
  rcases mem with rfl | rfl | rfl
  · rw [← ones _ small]
    exact flip 1 (by decide) _ (by omega)
  · have lower : shift < 7 := by
      apply Nat.lt_of_le_of_ne (Nat.le_of_lt_succ small)
      rintro rfl
      omega
    rw [← pairs _ lower]
    exact flip 2 (by decide) _ (by omega)
  · have lower : shift < 5 := by
      rcases Nat.lt_or_ge _ 5 with lower | higher
      · exact lower
      · have bound := Nat.pow_le_pow_right (show 0 < 2 by decide) higher
        omega
    rw [← fours _ lower]
    exact flip 4 (by decide) _ (by omega)

private theorem reached_bytes (mem : w ∈ [1, 2, 4]) (inside : i + w ≤ len) :
    Reached noArith len buf i ((BitVec.allOnes (8 * w)).setWidth 32) := by
  have short : w ≤ 4 := by
    simp only [mem_cons, not_mem_nil, or_false] at mem
    omega
  unfold Reached
  rw [← invertAt_eq_xorAt short]
  exact .invert mem inside

theorem exponent_lt {power bound : Nat} (below : 2 ^ power < 2 ^ bound) : power < bound :=
  (Nat.pow_lt_pow_iff_right (by decide)).1 below

private theorem straddles_of_run (mem : run ∈ [1, 3, 15]) {rest : Nat} (lower : rest < 8)
    (wide : 256 ≤ run * 2 ^ rest) (v : xorVal.toNat = run * 2 ^ rest * 2 ^ (8 * bytes)) :
    Straddles xorVal := by
  have few : bytes < 3 := by
    have below : 2 ^ (8 + 8 * bytes) < 2 ^ 32 := by
      rw [Nat.pow_add]
      calc 2 ^ 8 * 2 ^ (8 * bytes) ≤ run * 2 ^ rest * 2 ^ (8 * bytes) :=
            Nat.mul_le_mul_right _ wide
        _ < 2 ^ 32 := by rw [← v]; exact xorVal.isLt
    have fits := exponent_lt below
    omega
  have crossing : ∀ run ∈ [1, 3, 15], ∀ rest, rest < 8 → 256 ≤ run * 2 ^ rest →
      run * 2 ^ rest ∈ straddling := by decide
  have cases : bytes = 0 ∨ bytes = 1 ∨ bytes = 2 := by omega
  refine ⟨_, crossing _ mem _ lower wide, bytes, ?_, v⟩
  simpa using cases

theorem reached_flip (inside : i + w ≤ len)
    (short : xorVal.toNat < 2 ^ (8 * w)) (flips : couldBeBitflip xorVal = true)
    (straight : ¬ Straddles xorVal) : Reached noArith len buf i xorVal := by
  rcases couldBeBitflip_run xorVal flips with rfl | ⟨run, shift, v, shape⟩
  · exact reached_zero
  · have parts : shift = shift % 8 + 8 * (shift / 8) := by omega
    have split : xorVal.toNat = run * 2 ^ (shift % 8) * 2 ^ (8 * (shift / 8)) := by
      rw [v, Nat.mul_assoc, ← Nat.pow_add, ← parts]
    rcases shape with mem | ⟨aligned, mem⟩
    · by_cases within : run * 2 ^ (shift % 8) < 256
      · have pos : 0 < run * 2 ^ (shift % 8) := by
          have someBits : ∀ run ∈ [1, 3, 15], 0 < run := by decide
          exact Nat.mul_pos (someBits _ mem) (Nat.two_pow_pos _)
        have pre : shift / 8 < w := by
          have below : 2 ^ (8 * (shift / 8)) < 2 ^ (8 * w) := by
            rw [split] at short
            exact Nat.lt_of_le_of_lt (Nat.le_mul_of_pos_left _ pos) short
          have fits := exponent_lt below
          omega
        exact (reached_run mem (shift % 8) within (by omega)).of_toNat split
      · exact absurd (straddles_of_run mem (Nat.mod_lt _ (by decide)) (by omega) split) straight
    · rw [aligned, Nat.pow_zero, Nat.mul_one] at split
      have whole : ∀ run ∈ [0xff, 0xffff, 0xffffffff], ∃ bytes ∈ [1, 2, 4],
          (BitVec.allOnes (8 * bytes)).setWidth 32 = BitVec.ofNat 32 run ∧
            2 ^ (8 * bytes - 1) ≤ run := by decide
      obtain ⟨bytes, known, ones, large⟩ := whole run mem
      have pre : shift / 8 + bytes ≤ w := by
        have below : 2 ^ (8 * bytes - 1 + 8 * (shift / 8)) < 2 ^ (8 * w) := by
          rw [Nat.pow_add]
          rw [split] at short
          exact Nat.lt_of_le_of_lt (Nat.mul_le_mul_right _ large) short
        have fits := exponent_lt below
        omega
      have reached : Reached noArith len buf (i + shift / 8) (BitVec.ofNat 32 run) := by
        rw [← ones]
        exact reached_bytes known (by omega)
      exact reached.of_toNat split

end Reached

end AflPlusPlus
