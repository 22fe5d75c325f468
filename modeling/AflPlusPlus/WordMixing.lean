import Mathlib
import AflPlusPlus.Common

/-! Arithmetic on machine words: rounding a size up to a power of two, the step of the
random generator and the coordinate hash. -/

namespace AflPlusPlus.WordMixing

/-- The least power of two that is at least `size`, 0 if `size_t` does not hold it. -/
def leastPow2 (size : Nat) : Nat := if size ≤ 2 ^ 63 then 2 ^ Nat.clog 2 size else 0

/-- Below the highest set bit no 32 bits in a row are zero. -/
def NoWideGap (word : Nat) : Prop := ∀ p, 2 ^ p ≤ word → ∃ k < 32, word.testBit (p + k)

/-- Every bit of `word` has spread to the `w` places from itself down. -/
def Smeared (word : BitVec 64) (w : Nat) (out : BitVec 64) : Prop :=
  ∀ p, out.getLsbD p ↔ ∃ k < w, word.getLsbD (p + k)

theorem Smeared.double {word out : BitVec 64} {w : Nat} (smeared : Smeared word w out) :
    Smeared word (2 * w) (out ||| out >>> w) := by
  intro p
  rw [BitVec.getLsbD_or, Bool.or_eq_true, BitVec.getLsbD_ushiftRight, smeared, smeared]
  constructor
  · rintro (⟨k, small, set⟩ | ⟨k, small, set⟩)
    · exact ⟨k, by omega, set⟩
    · exact ⟨w + k, by omega, by rwa [← Nat.add_assoc, Nat.add_comm p]⟩
  · rintro ⟨k, small, set⟩
    by_cases low : k < w
    · exact .inl ⟨k, low, set⟩
    · exact .inr ⟨k - w, by omega, by rwa [show w + p + (k - w) = p + k by omega]⟩

private theorem nextPow2_smeared (input : BitVec 64) :
    ∃ out, nextPow2 input = out + 1 ∧ Smeared (input - 1) 32 out := by
  have start : Smeared (input - 1) 1 (input - 1) := fun p => by simp
  exact ⟨_, rfl, start.double.double.double.double.double⟩

private theorem smeared_full_iff {word out : BitVec 64} (smeared : Smeared word 32 out) :
    out.toNat = 2 ^ word.toNat.size - 1 ↔ NoWideGap word.toNat := by
  have bits (p : Nat) : out.toNat.testBit p ↔ ∃ k < 32, word.toNat.testBit (p + k) := smeared p
  constructor
  · intro full p large
    rw [← bits, full, Nat.testBit_two_pow_sub_one, decide_eq_true (Nat.lt_size.mpr large)]
  · intro narrow
    apply Nat.eq_of_testBit_eq
    intro p
    rw [Nat.testBit_two_pow_sub_one, Bool.eq_iff_iff, bits, decide_eq_true_eq, Nat.lt_size]
    constructor
    · rintro ⟨k, -, set⟩
      exact (Nat.pow_le_pow_right (by decide) (by omega)).trans (Nat.ge_two_pow_of_testBit set)
    · exact narrow p

theorem nextPow2_least_iff (size : BitVec 64) (pos : 1 ≤ size.toNat) :
    (nextPow2 size).toNat = leastPow2 size.toNat ↔ NoWideGap (size.toNat - 1) := by
  obtain ⟨out, next, smeared⟩ := nextPow2_smeared size
  have pre : (size - 1).toNat = size.toNat - 1 :=
    BitVec.toNat_sub_of_le (by simpa [BitVec.le_def] using pos)
  have log : Nat.clog 2 size.toNat = (size - 1).toNat.size := by
    apply eq_of_forall_ge_iff
    intro k
    rw [Nat.clog_le_iff_le_pow (by decide), Nat.size_le, pre]
    omega
  have short : (size - 1).toNat.size ≤ 64 := Nat.size_le.mpr (size - 1).isLt
  have fits : size.toNat ≤ 2 ^ 63 ↔ (size - 1).toNat.size ≤ 63 := by
    rw [← log, Nat.clog_le_iff_le_pow (by decide)]
  rw [← pre, ← smeared_full_iff smeared, next, leastPow2, log, BitVec.toNat_add]
  have one : (1 : BitVec 64).toNat = 1 := rfl
  have bound := out.isLt
  have power := Nat.two_pow_pos (size - 1).toNat.size
  split
  next low =>
    have := Nat.pow_le_pow_right (n := 2) (by decide) (fits.mp low)
    rw [one]
    omega
  next high =>
    rw [show (size - 1).toNat.size = 64 by omega, one]
    omega

theorem nextPow2_least_thousand :
    1 ≤ (1000#64).toNat ∧ ((nextPow2 1000).toNat = leastPow2 1000 ↔ NoWideGap 999) :=
  ⟨by decide, nextPow2_least_iff 1000 (by decide)⟩

theorem nextPow2_wide_gap :
    (nextPow2 4294967297).toNat = 8589934591 ∧ leastPow2 4294967297 = 8589934592 := by
  decide +kernel

/-- `ROTL` on a 64-bit word. -/
def rotl (word : BitVec 64) (count : Nat) : BitVec 64 := word <<< count ||| word >>> (64 - count)

private theorem rotl_injective : Function.Injective (rotl · 27) := by
  intro first second same
  apply BitVec.eq_of_getLsbD_eq
  intro i small
  have bit (j : Nat) := congrArg (·.getLsbD j) same
  simp only [rotl, BitVec.getLsbD_or, BitVec.getLsbD_shiftLeft, BitVec.getLsbD_ushiftRight] at bit
  by_cases low : i < 37
  · have clear (word : BitVec 64) := word.getLsbD_of_ge (37 + (i + 27)) (by omega)
    simpa [show i + 27 < 64 by omega, clear] using bit (i + 27)
  · simpa [show i - 37 < 27 by omega, show 37 + (i - 37) = i by omega] using bit (i - 37)

/-- `rand_set_seed` from the hash of the seed; the third word is for 32-bit targets. -/
def randSetSeed (hash : BitVec 64) : BitVec 64 × BitVec 64 := (hash, hash ^^^ 0x1234567890abcdef)

/-- `rand_next` (romuDuoJr): the number drawn and the words left. -/
def randNext (seed : BitVec 64 × BitVec 64) : BitVec 64 × BitVec 64 × BitVec 64 :=
  (seed.1, 15241094284759029579 * seed.2, rotl (seed.2 - seed.1) 27)

private theorem randNext_injective : Function.Injective (randNext · |>.2) := by
  rintro ⟨s, t⟩ ⟨s', t'⟩ same
  obtain ⟨product, rotated⟩ := Prod.mk.inj same
  obtain rfl : t = t' :=
    (IsUnit.of_mul_eq_one 4888251478366616163 (by decide)).mul_right_injective product
  simpa using rotl_injective rotated

theorem randNext_never_zero :
    Function.Bijective (randNext · |>.2) ∧ (∀ seed, (randNext seed).2 = (0, 0) ↔ seed = (0, 0)) ∧
        ∀ hash steps, (randNext · |>.2)^[steps] (randSetSeed hash) ≠ (0, 0) := by
  have zero (seed) : (randNext seed).2 = (0, 0) ↔ seed = (0, 0) :=
    randNext_injective.eq_iff' (by decide)
  refine ⟨Finite.injective_iff_bijective.mp randNext_injective, zero, ?_⟩
  intro hash steps
  induction steps with
  | zero =>
    intro dead
    obtain ⟨rfl, second⟩ := Prod.mk.inj dead
    exact absurd second (by decide)
  | succ steps alive =>
    rw [Function.iterate_succ_apply', Ne, zero]
    exact alive

/-- Round `i` of the loop of `ijon_hashint`. -/
def interleave (x y res : BitVec 32) (i : Nat) : BitVec 32 :=
  res ||| ((x &&& 1#32 <<< i) <<< i ||| (y &&& 1#32 <<< i) <<< (i + 1))

def ijonHashint (old val : BitVec 32) : BitVec 32 :=
  let res := (List.range 16).foldl (interleave old val) 0
  let res := res ^^^ res >>> 16
  let res := res * 0x85ebca6b
  let res := res ^^^ res >>> 13
  let res := res * 0xc2b2ae35
  res ^^^ res >>> 16

private theorem interleave_bits (x y : BitVec 32) {j : Nat} (inside : j < 16) (rounds : Nat) :
    ((List.range rounds).foldl (interleave x y) 0).getLsbD (2 * j) =
        (decide (j < rounds) && x.getLsbD j) ∧
      ((List.range rounds).foldl (interleave x y) 0).getLsbD (2 * j + 1) =
        (decide (j < rounds) && y.getLsbD j) := by
  induction rounds with
  | zero => simp
  | succ rounds earlier =>
    simp only [List.range_succ, List.foldl_append, List.foldl_cons, List.foldl_nil, interleave,
      ← BitVec.twoPow_eq, BitVec.getLsbD_or, BitVec.getLsbD_shiftLeft, BitVec.getLsbD_and,
      BitVec.getLsbD_twoPow, earlier]
    grind

private theorem xorshift_injective {k : Nat} (pos : 0 < k) :
    Function.Injective fun word : BitVec 32 => word ^^^ word >>> k := by
  intro first second same
  -- from the top bit down
  have bits (d i : Nat) (high : 32 ≤ i + d) : first.getLsbD i = second.getLsbD i := by
    induction d generalizing i with
    | zero => rw [first.getLsbD_of_ge i high, second.getLsbD_of_ge i high]
    | succ d above =>
      have bit := congrArg (·.getLsbD i) same
      simpa [above (k + i) (by omega)] using bit
  exact BitVec.eq_of_getLsbD_eq fun i _ => bits 32 i (by omega)

private theorem eq_of_low_bits {first second : BitVec 32} (low : first < 65536)
    (low' : second < 65536)
    (bits : ∀ j < 16, first.getLsbD j = second.getLsbD j) : first = second := by
  apply BitVec.eq_of_getLsbD_eq
  intro i _
  by_cases small : i < 16
  · exact bits i small
  have clear {word : BitVec 32} (low : word < 65536) : word.getLsbD i = false :=
    Nat.testBit_lt_two_pow ((BitVec.lt_def.mp low).trans_le
      (Nat.pow_le_pow_right (n := 2) (by decide) (by omega : 16 ≤ i)))
  rw [clear low, clear low']

theorem ijonHashint_perfect :
    Set.InjOn (fun pair : BitVec 32 × BitVec 32 => ijonHashint pair.1 pair.2)
      {pair | pair.1 < 65536 ∧ pair.2 < 65536} := by
  rintro ⟨x, y⟩ ⟨lowX, lowY⟩ ⟨x', y'⟩ ⟨lowX', lowY'⟩ same
  -- undo the mixing, last step first
  have woven := xorshift_injective (by decide)
    ((IsUnit.of_mul_eq_one 2781581891 (by decide)).mul_left_injective
      (xorshift_injective (by decide)
        ((IsUnit.of_mul_eq_one 2127672349 (by decide)).mul_left_injective
          (xorshift_injective (by decide) same))))
  have bits {j : Nat} (inside : j < 16) :
      x.getLsbD j = x'.getLsbD j ∧ y.getLsbD j = y'.getLsbD j := by
    have first := interleave_bits x y inside 16
    have second := interleave_bits x' y' inside 16
    simp_all
  exact Prod.ext (eq_of_low_bits lowX lowX' fun j inside => (bits inside).1)
    (eq_of_low_bits lowY lowY' fun j inside => (bits inside).2)

end AflPlusPlus.WordMixing
