/-
Machine words seen as rows of equal lanes, and byte memory read and written a word at a
time.  A word is little endian: lane zero holds the low bits.
-/

import Mathlib.Logic.Function.Basic

namespace AflPlusPlus.Machine

abbrev Byte := BitVec 8

/-- Memory relative to a base pointer.  Bounds are the business of the caller
that fixes how far it walks. -/
abbrev Buffer := Nat → Byte

variable {w lane count : Nat}

namespace LaneWord

def laneAt {w : Nat} (lane : Nat) (word : BitVec w) (idx : Nat) :
    BitVec lane :=
  word.extractLsb' (lane * idx) lane

/-- Glue `count` lanes together, lane zero lowest. -/
def ofLanes (lane : Nat) : (count : Nat) → (Nat → BitVec lane) → BitVec (lane * count)
  | 0, _ => BitVec.zero (lane * 0)
  | count + 1, lanes =>
    (lanes count ++ ofLanes lane count lanes).cast (by
      rw [Nat.mul_succ, Nat.add_comm])

theorem getLsbD_laneAt (lane : Nat) (word : BitVec w) (idx bit : Nat) :
    (laneAt lane word idx).getLsbD bit =
      (decide (bit < lane) && word.getLsbD (lane * idx + bit)) := by
  unfold laneAt
  rw [BitVec.getLsbD_extractLsb']

private theorem lane_split {lane idx count bit : Nat} (inside : bit < lane) :
    lane * idx + bit < lane * count ↔ idx < count := by
  constructor
  · intro below
    by_contra outside
    have grown : lane * count ≤ lane * idx := Nat.mul_le_mul_left _ (Nat.le_of_not_lt outside)
    omega
  · intro below
    have grown : lane * (idx + 1) ≤ lane * count := Nat.mul_le_mul_left _ below
    rw [Nat.mul_succ] at grown
    omega

theorem laneAt_ofLanes (lane count : Nat) (lanes : Nat → BitVec lane)
    (idx : Nat) (within : idx < count) :
    laneAt lane (ofLanes lane count lanes) idx = lanes idx := by
  induction count with
  | zero => cases within
  | succ count ih =>
    apply BitVec.eq_of_getLsbD_eq
    intro bit inside
    rw [getLsbD_laneAt]
    simp only [inside, decide_true, Bool.true_and, ofLanes, BitVec.getLsbD_cast,
      BitVec.getLsbD_append]
    by_cases earlier : idx < count
    · rw [if_pos ((lane_split inside).mpr earlier)]
      have found := congrArg (fun word => word.getLsbD bit) (ih earlier)
      simp only [getLsbD_laneAt, inside, decide_true, Bool.true_and] at found
      exact found
    · have last : idx = count := by omega
      subst last
      rw [if_neg (by omega)]
      congr 1
      omega

theorem eq_of_laneAt_eq (left right : BitVec (lane * count))
    (same : ∀ idx, idx < count → laneAt lane left idx = laneAt lane right idx) :
    left = right := by
  apply BitVec.eq_of_getLsbD_eq
  intro bit inside
  have pos : 0 < lane := by
    rcases Nat.eq_zero_or_pos lane with none | some
    · subst none
      simp at inside
    · exact some
  have within : bit / lane < count := Nat.div_lt_of_lt_mul inside
  have found := congrArg (fun word => word.getLsbD (bit % lane)) (same (bit / lane) within)
  simp only [getLsbD_laneAt, Nat.mod_lt bit pos, decide_true, Bool.true_and,
    Nat.div_add_mod] at found
  exact found

@[simp] theorem laneAt_zero (lane idx : Nat) :
    laneAt lane (0 : BitVec w) idx = 0 := by
  apply BitVec.eq_of_getLsbD_eq
  intro bit _inside
  simp [getLsbD_laneAt]

theorem laneAt_and (lane : Nat) (left right : BitVec w) (idx : Nat) :
    laneAt lane (left &&& right) idx = laneAt lane left idx &&& laneAt lane right idx := by
  apply BitVec.eq_of_getLsbD_eq
  intro bit inside
  simp only [BitVec.getLsbD_and, getLsbD_laneAt, inside, decide_true, Bool.true_and]

theorem laneAt_not (word : BitVec (lane * count)) (idx : Nat) (within : idx < count) :
    laneAt lane (~~~word) idx = ~~~(laneAt lane word idx) := by
  apply BitVec.eq_of_getLsbD_eq
  intro bit inside
  have bounded := (lane_split inside).mpr within
  simp only [BitVec.getLsbD_not, getLsbD_laneAt, inside, bounded, decide_true, Bool.true_and]

theorem ne_zero_iff_exists_laneAt (word : BitVec (lane * count)) :
    word ≠ 0 ↔ ∃ idx, idx < count ∧ laneAt lane word idx ≠ 0 := by
  constructor
  · intro nonzero
    by_contra missing
    simp only [not_exists, not_and, ne_eq, not_not] at missing
    apply nonzero
    apply eq_of_laneAt_eq
    intro idx within
    rw [missing _ within, laneAt_zero]
  · rintro ⟨idx, _within, lit⟩ zero
    rw [zero, laneAt_zero] at lit
    exact lit rfl

theorem laneAt_laneAt (lane group : Nat) (word : BitVec w) (outer inner : Nat)
    (within : inner < group) :
    laneAt lane (laneAt (lane * group) word outer) inner =
      laneAt lane word (group * outer + inner) := by
  apply BitVec.eq_of_getLsbD_eq
  intro bit inside
  have bounded := (lane_split inside).mpr within
  simp only [getLsbD_laneAt, inside, bounded, decide_true, Bool.true_and]
  congr 1
  rw [Nat.mul_add, Nat.mul_assoc, Nat.add_assoc]

def load (w : Nat) (mem : Buffer) (base : Nat) : BitVec (8 * w) :=
  ofLanes 8 w (fun idx => mem (base + idx))

def store (w : Nat) (mem : Buffer) (base : Nat) (word : BitVec (8 * w)) :
    Buffer :=
  fun addr =>
    if base ≤ addr ∧ addr < base + w then laneAt 8 word (addr - base)
    else mem addr

theorem laneAt_load (w : Nat) (mem : Buffer) (base idx : Nat) (within : idx < w) :
    laneAt 8 (load w mem base) idx = mem (base + idx) :=
  laneAt_ofLanes 8 w _ idx within

theorem store_inside {w : Nat} {mem : Buffer} {base : Nat}
    {word : BitVec (8 * w)} {idx : Nat} (within : idx < w) :
    store w mem base word (base + idx) = laneAt 8 word idx := by
  unfold store
  rw [if_pos ⟨by omega, by omega⟩]
  congr 1
  omega

theorem store_outside {w : Nat} {mem : Buffer} {base : Nat} {word : BitVec (8 * w)} {addr : Nat}
    (outside : addr < base ∨ base + w ≤ addr) :
    store w mem base word addr = mem addr := by
  unfold store
  rw [if_neg (by omega)]

theorem load_and_ne_zero_iff (w : Nat) (left right : Buffer) (base : Nat) :
    load w left base &&& load w right base ≠ 0 ↔
      ∃ idx, idx < w ∧ left (base + idx) &&& right (base + idx) ≠ 0 := by
  rw [ne_zero_iff_exists_laneAt]
  constructor
  · rintro ⟨idx, within, lit⟩
    rw [laneAt_and, laneAt_load _ _ _ _ within, laneAt_load _ _ _ _ within] at lit
    exact ⟨idx, within, lit⟩
  · rintro ⟨idx, within, lit⟩
    refine ⟨idx, within, ?_⟩
    rw [laneAt_and, laneAt_load _ _ _ _ within, laneAt_load _ _ _ _ within]
    exact lit

theorem load_ne_zero_iff (w : Nat) (mem : Buffer) (base : Nat) :
    load w mem base ≠ 0 ↔ ∃ idx, idx < w ∧ mem (base + idx) ≠ 0 := by
  rw [ne_zero_iff_exists_laneAt]
  constructor
  · rintro ⟨idx, within, lit⟩
    rw [laneAt_load _ _ _ _ within] at lit
    exact ⟨idx, within, lit⟩
  · rintro ⟨idx, within, lit⟩
    refine ⟨idx, within, ?_⟩
    rw [laneAt_load _ _ _ _ within]
    exact lit

end LaneWord
end AflPlusPlus.Machine
