/-
The coverage map of the fork server and the passes that rewrite it in place.

The passes walk the map in machine words.  Both word sizes of the program are
modelled by one definition each, over the number of bytes in a word.  Every
pass comes with the law that says what it does to a single byte.
-/

import AflPlusPlus.Machine.CountedLoop

namespace AflPlusPlus

open Machine Function
open Machine.LaneWord

/-- The part of the fork server state that the coverage passes read. -/
structure Fsrv where
  traceBits : Buffer
  mapSize : Nat
  realMapSize : Nat

/-- `WORD_SIZE_64` selects one of the two coverage headers at build time. -/
inductive WordSize where
  | size64
  | size32
  deriving DecidableEq, Repr

def WordSize.bytes : WordSize → Nat
  | .size64 => 8
  | .size32 => 4

/-- `count_class_lookup8`: the bucket of a raw hit count. -/
def countClassLookup8 (count : Byte) : Byte :=
  if count.toNat = 0 then 0
  else if count.toNat = 1 then 1
  else if count.toNat ≤ 3 then 2
  else if count.toNat ≤ 7 then 4
  else if count.toNat ≤ 15 then 8
  else if count.toNat ≤ 31 then 16
  else if count.toNat ≤ 63 then 32
  else if count.toNat ≤ 127 then 64
  else 128

theorem countClassLookup8_eq_zero_iff (count : Byte) :
    countClassLookup8 count = 0 ↔ count = 0 := by
  constructor
  · intro zero
    apply BitVec.eq_of_toNat_eq
    unfold countClassLookup8 at zero
    split at zero
    · rename_i empty
      exact empty
    · exfalso
      repeat' split at zero
      all_goals exact absurd zero (by decide)
  · intro empty
    subst empty
    decide

def joinBytes (high low : Byte) : BitVec 16 :=
  (high.zeroExtend 16 <<< 8) ||| low.zeroExtend 16

/-- `init_count_class16`: fill the table of byte pairs. -/
def initCountClass16 (table : Nat → BitVec 16) : Nat → BitVec 16 :=
  forUpto 256 (fun b1 outer =>
    forUpto 256 (fun b2 inner =>
      update inner ((b1 <<< 8) + b2) (joinBytes (countClassLookup8 (BitVec.ofNat 8 b1))
          (countClassLookup8 (BitVec.ofNat 8 b2)))) outer) table

/-- `count_class_lookup16` as the program leaves it after initialisation. -/
def countClassLookup16 : Nat → BitVec 16 :=
  initCountClass16 (fun _ => 0)

private theorem countClassLookup16_pair (high low : Nat) (highByte : high < 256)
    (lowByte : low < 256) :
    countClassLookup16 (high * 256 + low) = joinBytes (countClassLookup8 (BitVec.ofNat 8 high))
        (countClassLookup8 (BitVec.ofNat 8 low)) := by
  have pos : high * 256 + low = (high <<< 8) + low := by
    rw [Nat.shiftLeft_eq]
  rw [pos]
  unfold countClassLookup16 initCountClass16
  generalize (fun _ => 0 : Nat → BitVec 16) = table
  -- induction over the rows: row `high` is either the last one or untouched by it
  have rows : ∀ bound, high < bound → bound ≤ 256 → forUpto bound (fun b1 outer =>
        forUpto 256 (fun b2 inner =>
          update inner ((b1 <<< 8) + b2) (joinBytes (countClassLookup8 (BitVec.ofNat 8 b1))
              (countClassLookup8 (BitVec.ofNat 8 b2)))) outer) table ((high <<< 8) + low) =
        joinBytes (countClassLookup8 (BitVec.ofNat 8 high))
          (countClassLookup8 (BitVec.ofNat 8 low)) := by
    intro bound
    induction bound with
    | zero => intro within; cases within
    | succ bound ih =>
      intro within small
      rw [forUpto_succ]
      by_cases last : high = bound
      · subst last
        exact forUpto_assign 256 (fun b2 => (high <<< 8) + b2) _ _
          (fun left right _ _ same => by omega) _ lowByte
      · rw [forUpto_assign_other 256 (fun b2 => (bound <<< 8) + b2)]
        · exact ih (by omega) (by omega)
        · intro b2 b2Byte
          omega
  exact rows 256 highByte (Nat.le_refl 256)

private theorem laneAt_joinBytes_low (high low : Byte) :
    laneAt 8 (joinBytes high low) 0 = low := by
  apply BitVec.eq_of_getLsbD_eq
  intro bit inside
  simp only [getLsbD_laneAt, joinBytes, BitVec.getLsbD_or, BitVec.getLsbD_shiftLeft,
    BitVec.zeroExtend, BitVec.getLsbD_setWidth, inside, Nat.mul_zero, Nat.zero_add,
    decide_true, Bool.not_true, Bool.true_and, Bool.and_false, Bool.false_and,
    Bool.false_or, show bit < 16 by omega]

private theorem laneAt_joinBytes_high (high low : Byte) :
    laneAt 8 (joinBytes high low) 1 = high := by
  apply BitVec.eq_of_getLsbD_eq
  intro bit inside
  have beyond : low.getLsbD (8 + bit) = false := BitVec.getLsbD_of_ge _ (8 + bit) (by omega)
  simp only [getLsbD_laneAt, joinBytes, BitVec.getLsbD_or, BitVec.getLsbD_shiftLeft,
    BitVec.zeroExtend, BitVec.getLsbD_setWidth, inside, Nat.mul_one, decide_true,
    Bool.true_and, beyond, Bool.and_false, Bool.or_false, show 8 + bit < 16 by omega,
    show ¬ 8 + bit < 8 by omega, decide_false, Bool.not_false, Nat.add_sub_cancel_left,
    show bit < 16 by omega]

private theorem halfword_toNat (half : BitVec 16) :
    half.toNat = (laneAt 8 half 1).toNat * 256 + (laneAt 8 half 0).toNat := by
  simp only [laneAt, BitVec.extractLsb'_toNat, Nat.shiftRight_eq_div_pow]
  omega

private theorem laneAt_countClassLookup16 (half : BitVec 16) (idx : Nat) (within : idx < 2) :
    laneAt 8 (countClassLookup16 half.toNat) idx = countClassLookup8 (laneAt 8 half idx) := by
  rw [halfword_toNat _, countClassLookup16_pair _ _ (laneAt 8 _ 1).isLt (laneAt 8 _ 0).isLt]
  simp only [BitVec.ofNat_toNat, BitVec.setWidth_eq]
  rcases (by omega : idx = 0 ∨ idx = 1) with low | high
  · subst low
    exact laneAt_joinBytes_low _ _
  · subst high
    exact laneAt_joinBytes_high _ _

def classifyWord : (size : WordSize) → BitVec (8 * size.bytes) → BitVec (8 * size.bytes)
  | .size64, word => ofLanes 16 4 (fun idx => countClassLookup16 (laneAt 16 word idx).toNat)
  | .size32, word => ofLanes 16 2 (fun idx => countClassLookup16 (laneAt 16 word idx).toNat)

private theorem laneAt_halves (count : Nat) (word : BitVec (16 * count)) (idx : Nat)
    (within : idx < 2 * count) :
    laneAt 8 (ofLanes 16 count (fun half => countClassLookup16 (laneAt 16 word half).toNat)) idx =
      countClassLookup8 (laneAt 8 word idx) := by
  have split : 2 * (idx / 2) + idx % 2 = idx := Nat.div_add_mod _ 2
  have parity : idx % 2 < 2 := Nat.mod_lt _ (by decide)
  have outer := laneAt_laneAt 8 2 (ofLanes 16 count
    (fun half => countClassLookup16 (laneAt 16 word half).toNat)) (idx / 2) (idx % 2) parity
  rw [split] at outer
  rw [← outer]
  rw [laneAt_ofLanes 16 _ _ (idx / 2) (by omega), laneAt_countClassLookup16 _ _ parity]
  have inner := laneAt_laneAt 8 2 word (idx / 2) (idx % 2) parity
  rw [split] at inner
  rw [inner]

variable (size : WordSize)

theorem laneAt_classifyWord (word : BitVec (8 * size.bytes)) (idx : Nat)
    (within : idx < size.bytes) :
    laneAt 8 (classifyWord size word) idx = countClassLookup8 (laneAt 8 word idx) := by
  cases size with
  | size64 => exact laneAt_halves 4 _ _ within
  | size32 => exact laneAt_halves 2 _ _ within

def WordSize.words (size : WordSize) (mapSize : Nat) : Nat :=
  match size with
  | .size64 => mapSize >>> 3
  | .size32 => mapSize >>> 2

theorem WordSize.bytes_mul_words (mapSize : Nat) (aligned : 8 ∣ mapSize) :
    size.bytes * size.words mapSize = mapSize := by
  cases size <;> simp only [bytes, words, Nat.shiftRight_eq_div_pow] <;> omega

def classifyStep (size : WordSize) (idx : Nat) (mem : Buffer) : Buffer :=
  let word := load size.bytes mem (size.bytes * idx)
  if word ≠ 0 then store size.bytes mem (size.bytes * idx) (classifyWord size word)
  else mem

def classifyCounts (size : WordSize) (fsrv : Fsrv) : Fsrv :=
  { fsrv with
    traceBits := forUpto (size.words fsrv.mapSize) (classifyStep size) fsrv.traceBits }

def simplifyLookup (count : Byte) : Byte :=
  if count = 0 then 1 else 128

/-- One step of `simplify_trace` at a word.  The branch for an all-zero word
stores the pattern of ones that the lookup would have produced. -/
def simplifyStep (size : WordSize) (idx : Nat) (mem : Buffer) : Buffer :=
  let base := size.bytes * idx
  let word := load size.bytes mem base
  if word ≠ 0 then
    forUpto size.bytes (fun k bytes =>
      update bytes (base + k) (simplifyLookup (bytes (base + k)))) mem
  else store size.bytes mem base (ofLanes 8 size.bytes (fun _ => 1))

def simplifyTrace (size : WordSize) (mapSize : Nat) (bytes : Buffer) : Buffer :=
  forUpto (size.words mapSize) (simplifyStep size) bytes

private theorem block_cases (w idx addr : Nat) (inside : w * idx ≤ addr ∧ addr < w * idx + w) :
    ∃ offset, offset < w ∧ addr = w * idx + offset :=
  ⟨addr - w * idx, by omega, by omega⟩

variable (idx : Nat) (mem : Buffer) (addr : Nat)

private theorem classifyStep_apply :
    classifyStep size idx mem addr =
      if size.bytes * idx ≤ addr ∧ addr < size.bytes * idx + size.bytes then
        countClassLookup8 (mem addr)
      else mem addr := by
  unfold classifyStep
  by_cases inside : size.bytes * idx ≤ addr ∧ addr < size.bytes * idx + size.bytes
  · rw [if_pos inside]
    obtain ⟨_, within, rfl⟩ := block_cases size.bytes idx addr inside
    by_cases lit : load size.bytes mem (size.bytes * idx) ≠ 0
    · rw [if_pos lit, store_inside within, laneAt_classifyWord _ _ _ within,
        laneAt_load _ _ _ _ within]
    · rw [if_neg lit]
      rw [load_ne_zero_iff] at lit
      simp only [not_exists, not_and, ne_eq, not_not] at lit
      rw [lit _ within]
      decide
  · split
    · exact store_outside (by omega)
    · rfl

private theorem simplify_bytes_apply {base count : Nat} {mem : Buffer} {addr : Nat} :
    forUpto count (fun k bytes =>
        update bytes (base + k) (simplifyLookup (bytes (base + k)))) mem addr =
      if base ≤ addr ∧ addr < base + count then simplifyLookup (mem addr)
      else mem addr := by
  induction count with
  | zero =>
    rw [forUpto_zero, if_neg (by omega)]
  | succ count ih =>
    rw [forUpto_succ]
    by_cases last : addr = base + count
    · subst last
      rw [update_self]
      have untouched : ∀ inner, inner ≤ count → forUpto inner (fun k bytes =>
            update bytes (base + k) (simplifyLookup (bytes (base + k)))) mem
            (base + count) = mem (base + count) := by
        intro inner bounded
        induction inner with
        | zero => rfl
        | succ inner next =>
          rw [forUpto_succ, update_of_ne (by omega), next (by omega)]
      rw [untouched _ (Nat.le_refl _), if_pos (by omega)]
    · rw [update_of_ne last, ih]
      by_cases earlier : base ≤ addr ∧ addr < base + count
      · rw [if_pos earlier, if_pos (by omega)]
      · rw [if_neg earlier, if_neg (by omega)]

private theorem simplifyStep_apply :
    simplifyStep size idx mem addr =
      if size.bytes * idx ≤ addr ∧ addr < size.bytes * idx + size.bytes then
        simplifyLookup (mem addr)
      else mem addr := by
  unfold simplifyStep
  by_cases lit : load size.bytes mem (size.bytes * idx) ≠ 0
  · simp only [if_pos lit]
    exact simplify_bytes_apply
  · simp only [if_neg lit]
    rw [load_ne_zero_iff] at lit
    simp only [not_exists, not_and, ne_eq, not_not] at lit
    by_cases inside : size.bytes * idx ≤ addr ∧ addr < size.bytes * idx + size.bytes
    · rw [if_pos inside]
      obtain ⟨_, within, rfl⟩ := block_cases size.bytes idx addr inside
      rw [store_inside within, laneAt_ofLanes _ _ _ _ within, lit _ within]
      rfl
    · rw [if_neg inside]
      exact store_outside (by omega)

theorem classifyCounts_apply (fsrv : Fsrv) (addr : Nat) :
    (classifyCounts size fsrv).traceBits addr =
      if addr < size.bytes * size.words fsrv.mapSize then
        countClassLookup8 (fsrv.traceBits addr)
      else fsrv.traceBits addr :=
  forUpto_blocks size.bytes _ _ (fun _ => countClassLookup8)
    (fun idx _ mem => classifyStep_apply size idx mem) fsrv.traceBits addr

theorem simplifyTrace_apply (mapSize : Nat) (bytes : Buffer) (addr : Nat) :
    simplifyTrace size mapSize bytes addr =
      if addr < size.bytes * size.words mapSize then simplifyLookup (bytes addr)
      else bytes addr :=
  forUpto_blocks size.bytes _ _ (fun _ => simplifyLookup)
    (fun idx _ mem => simplifyStep_apply size idx mem) bytes addr

@[simp] theorem classifyCounts_mapSize (size : WordSize) (fsrv : Fsrv) :
    (classifyCounts size fsrv).mapSize = fsrv.mapSize := rfl

@[simp] theorem classifyCounts_realMapSize (size : WordSize) (fsrv : Fsrv) :
    (classifyCounts size fsrv).realMapSize = fsrv.realMapSize := rfl

end AflPlusPlus
