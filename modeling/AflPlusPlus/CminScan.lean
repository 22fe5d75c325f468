/-
The two scans of afl-cmin for the tuples of a trace.

One scan compares 32 bytes at a time with zero and takes the bits of the resulting
mask from the lowest on; what is left at the end of the map is taken byte by byte.
The other one skips words of eight zero bytes and has no such rest.
-/

import AflPlusPlus.Machine.CountedLoop
import AflPlusPlus.Machine.Tally

namespace AflPlusPlus.Cmin

open Machine LaneWord List BitVec

def countClassHuman (count : Byte) : Nat :=
  if count.toNat ≤ 3 then count.toNat
  else if count.toNat ≤ 7 then 4
  else if count.toNat ≤ 15 then 5
  else if count.toNat ≤ 31 then 6
  else if count.toNat ≤ 127 then 7
  else 8

def classTuple (trace : Buffer) (pos : Nat) : Nat := pos * 8 + (countClassHuman (trace pos) - 1)

def u32Tuple (pos class_ : Nat) : BitVec 32 := BitVec.ofNat 32 (pos * 8 + (class_ - 1))

def hitTuple (trace : Buffer) (pos : Nat) : BitVec 32 := u32Tuple pos (countClassHuman (trace pos))

/-- `_mm256_movemask_epi8` of the comparison with zero. -/
def zeroMask (trace : Buffer) (base : Nat) : BitVec 32 :=
  ofLanes 1 32 (fun k => if trace (base + k) = 0 then 1 else 0)

/-- `while (mask)`: the index of the lowest bit, which is then cleared. -/
def setBits : Nat → BitVec 32 → List Nat
  | 0, _ => []
  | fuel + 1, mask =>
    if mask = 0 then [] else mask.ctz.toNat :: setBits fuel (mask &&& (mask - 1))

def avx2Counts (mapSize : Nat) (trace : Buffer) : List (BitVec 32) :=
  let mapSize256 := mapSize / 32
  (List.range mapSize256).flatMap (fun i => (setBits 32 (~~~zeroMask trace (i * 32))).map
      (fun idx => hitTuple trace (i * 32 + idx))) ++
    ((List.range' (mapSize256 * 32) (mapSize - mapSize256 * 32)).filter
      (fun k => trace k ≠ 0)).map (hitTuple trace)

def wordCounts (mapSize : Nat) (trace : Buffer) : List (BitVec 32) :=
  (List.range (mapSize / 8)).flatMap (fun i =>
    if load 8 trace (i * 8) ≠ 0 then
      ((List.range 8).filter (fun j => trace (i * 8 + j) ≠ 0)).map
        (fun j => hitTuple trace (i * 8 + j))
    else [])

theorem countClassHuman_le (count : Byte) : countClassHuman count ≤ 8 := by
  unfold countClassHuman
  split_ifs <;> omega

theorem flatMap_blocks {Tuple : Type} (hit : Nat → Bool) (tuple : Nat → Tuple) (size count : Nat) :
    (List.range count).flatMap (fun i => ((List.range size).filter
        (fun j => hit (i * size + j))).map (fun j => tuple (i * size + j))) =
      ((List.range (count * size)).filter hit).map tuple := by
  induction count with
  | zero => simp
  | succ count ih =>
    rw [range_succ, flatMap_append, ih, Nat.succ_mul, range_add, filter_append,
      map_append, filter_map, map_map, flatMap_singleton]
    rfl

theorem range_append_range' {short long : Nat} (shorter : short ≤ long) :
    List.range short ++ List.range' short (long - short) = List.range long := by
  rw [range_eq_range', range_eq_range', ← Nat.add_sub_cancel' shorter,
    ← List.range'_append_1, Nat.zero_add, Nat.add_sub_cancel_left]

private theorem getLsbD_clear_lowest {mask : BitVec 32} (some : mask ≠ 0) (j : Nat) :
    (mask &&& (mask - 1)).getLsbD j = (mask.getLsbD j && decide (j ≠ mask.ctz.toNat)) := by
  have lit := getLsbD_true_ctz_of_ne_zero some
  have dark : ∀ i, i < mask.ctz.toNat → mask.getLsbD i = false :=
    fun i below => getLsbD_false_of_lt_ctz below
  generalize mask.ctz.toNat = low at lit dark
  -- the mask is an even multiple of its lowest bit, and that bit
  have lowest : mask.toNat % 2 ^ (low + 1) = 2 ^ low := by
    apply Nat.eq_of_testBit_eq
    intro i
    rcases Nat.lt_trichotomy i low with below | rfl | above
    · simp [← BitVec.getLsbD.eq_1, dark i below, Nat.ne_of_gt below]
    · simp [← BitVec.getLsbD.eq_1, lit]
    · simp [Nat.not_lt.2 above, Nat.ne_of_lt above]
  obtain ⟨high, parts⟩ : ∃ high, mask.toNat = 2 ^ (low + 1) * high + 2 ^ low :=
    ⟨mask.toNat / 2 ^ (low + 1), by rw [← lowest, Nat.div_add_mod]⟩
  have larger : 2 ^ low < 2 ^ (low + 1) := Nat.pow_lt_pow_right (by decide) (by omega)
  have positive := Nat.two_pow_pos low
  have pred : (mask - 1).toNat = 2 ^ (low + 1) * high + (2 ^ low - 1) := by
    have least : (1 : BitVec 32) ≤ mask := show 1 ≤ mask.toNat by omega
    rw [toNat_sub_of_le least, parts]
    exact Nat.add_sub_assoc positive _
  unfold BitVec.getLsbD
  rw [toNat_and, Nat.testBit_and, pred, parts, Nat.testBit_two_pow_mul_add _ larger,
    Nat.testBit_two_pow_mul_add _ (by omega)]
  split
  · rcases Nat.lt_or_ge j low with below | above
    · simp [Nat.ne_of_gt below]
    · simp [show j = low by omega]
  · simp [show j ≠ low by omega]

private theorem setBits_eq (fuel low : Nat) (mask : BitVec 32)
    (dark : ∀ j, j < low → mask.getLsbD j = false) (enough : 32 ≤ low + fuel) :
    setBits fuel mask = (List.range' low (32 - low)).filter mask.getLsbD := by
  induction fuel generalizing low mask with
  | zero =>
    rw [show 32 - low = 0 by omega]
    rfl
  | succ fuel ih =>
    unfold setBits
    split
    · rename_i zero
      rw [zero]
      simp
    · rename_i some
      have lit := getLsbD_true_ctz_of_ne_zero some
      have inside : mask.ctz.toNat < 32 := lt_of_getLsbD lit
      have post : low ≤ mask.ctz.toNat := by
        by_contra pre
        rw [dark _ (Nat.not_le.1 pre)] at lit
        cases lit
      rw [ih (mask.ctz.toNat + 1) _ ?_ (by omega)]
      · obtain ⟨skip, place⟩ : ∃ skip, mask.ctz.toNat = low + skip := Nat.exists_eq_add_of_le post
        have split : 32 - low = skip + (32 - (mask.ctz.toNat + 1) + 1) := by omega
        have pre : (List.range' low skip).filter mask.getLsbD = [] := by
          refine filter_eq_nil_iff.2 (fun j mem => ?_)
          have below := (mem_range'_1.1 mem).2
          rw [getLsbD_false_of_lt_ctz (by omega)]
          decide
        rw [split, ← List.range'_append_1, List.range'_succ, filter_append, pre,
          ← place, filter_cons_of_pos lit]
        congr 1
        refine filter_congr (fun j mem => ?_)
        have above := (mem_range'_1.1 mem).1
        rw [getLsbD_clear_lowest some, decide_eq_true (by omega), Bool.and_true]
      · intro j below
        rw [getLsbD_clear_lowest some]
        rcases Nat.lt_succ_iff_lt_or_eq.1 below with earlier | rfl
        · rw [getLsbD_false_of_lt_ctz earlier, Bool.false_and]
        · simp

variable (mapSize : Nat) (trace : Buffer)

private theorem getLsbD_zeroMask (base : Nat) {k : Nat} (within : k < 32) :
    (~~~zeroMask trace base).getLsbD k = decide (trace (base + k) ≠ 0) := by
  have lane := congrArg (fun lane => BitVec.getLsbD lane 0)
    (laneAt_ofLanes 1 32 (fun k => if trace (base + k) = 0 then 1 else 0) k within)
  simp only [getLsbD_laneAt, Nat.one_mul, Nat.add_zero] at lane
  rw [getLsbD_not, decide_eq_true within]
  change (!(ofLanes 1 32 _).getLsbD k) = _
  change (true && (ofLanes 1 32 _).getLsbD k) = _ at lane
  rw [Bool.true_and] at lane
  rw [lane]
  by_cases zero : trace (base + k) = 0
  · rw [if_pos zero, decide_eq_false (not_not.2 zero)]
    rfl
  · rw [if_neg zero, decide_eq_true zero]
    rfl

def tupleSpec (mapSize : Nat) (trace : Buffer) : List Nat :=
  ((List.range mapSize).filter (fun k => trace k ≠ 0)).map (classTuple trace)

def hitTuples (size : Nat) (trace : Buffer) : List (BitVec 32) :=
  ((List.range size).filter (fun k => trace k ≠ 0)).map (hitTuple trace)

theorem avx2Counts_eq : avx2Counts mapSize trace = hitTuples mapSize trace := by
  have block : ∀ i, setBits 32 (~~~zeroMask trace (i * 32)) =
      (List.range 32).filter (fun j => trace (i * 32 + j) ≠ 0) := by
    intro i
    rw [setBits_eq 32 0 _ (fun _ never => absurd never (Nat.not_lt_zero _)) (by decide)]
    exact filter_congr (fun j mem => getLsbD_zeroMask _ _ (mem_range.1 mem))
  unfold avx2Counts hitTuples
  simp only [block]
  rw [flatMap_blocks (fun k => trace k ≠ 0), ← map_append, ← filter_append,
    range_append_range' (Nat.div_mul_le_self _ _)]

theorem wordCounts_eq : wordCounts mapSize trace = hitTuples (mapSize / 8 * 8) trace := by
  unfold wordCounts hitTuples
  rw [← flatMap_blocks]
  refine flatMap_congr (fun i _ => ?_)
  split
  · rfl
  · rename_i none
    rw [filter_eq_nil_iff.2 (fun j mem hit => none ((load_ne_zero_iff 8 _ _).2
      ⟨j, mem_range.1 mem, of_decide_eq_true hit⟩))]
    rfl

theorem hitTuples_toNat {size : Nat} {trace : Buffer} (small : size ≤ 2 ^ 29) :
    (hitTuples size trace).map BitVec.toNat = tupleSpec size trace := by
  unfold hitTuples tupleSpec
  rw [map_map]
  refine map_congr_left (fun k mem => ?_)
  have inside := mem_range.1 (mem_of_mem_filter mem)
  have class_le := countClassHuman_le (trace k)
  exact (toNat_ofNat _ _).trans (Nat.mod_eq_of_lt (by omega))

private theorem tupleSpec_ascending : (tupleSpec mapSize trace).Pairwise (· < ·) := by
  have cells : ((List.range mapSize).filter (fun k => trace k ≠ 0)).Pairwise (· < ·) :=
    pairwise_lt_range.filter _
  unfold tupleSpec
  rw [pairwise_map]
  apply cells.imp
  intro left right pre
  have class_le := countClassHuman_le (trace left)
  unfold classTuple
  omega

private theorem tupleSpec_append {short long : Nat} (shorter : short ≤ long) (trace : Buffer) :
    tupleSpec long trace = tupleSpec short trace ++
      ((List.range' short (long - short)).filter (fun k => trace k ≠ 0)).map
        (classTuple trace) := by
  unfold tupleSpec
  rw [← range_append_range' shorter, filter_append, map_append]

/-- Both scans return the tuples in ascending order, and a tuple tells its cell and its
class. -/
structure ScansAgree (mapSize : Nat) (trace : Buffer) : Prop where
  avx2 : (avx2Counts mapSize trace).map BitVec.toNat = tupleSpec mapSize trace
  word : (wordCounts mapSize trace).map BitVec.toNat = tupleSpec mapSize trace
  ascending : (tupleSpec mapSize trace).Pairwise (· < ·)
  distinct : ∀ pos other, pos < mapSize → other < mapSize →
    ∀ class_ ∈ List.range' 1 8, ∀ second ∈ List.range' 1 8,
      u32Tuple pos class_ = u32Tuple other second → pos = other ∧ class_ = second

private theorem u32Tuple_inj {pos other class_ second : Nat} (small : pos < 2 ^ 29)
    (fits : other < 2 ^ 29)
    (known : class_ ∈ List.range' 1 8) (named : second ∈ List.range' 1 8)
    (same : u32Tuple pos class_ = u32Tuple other second) : pos = other ∧ class_ = second := by
  have first := mem_range'_1.1 known
  have last := mem_range'_1.1 named
  have numbers := congrArg BitVec.toNat same
  simp only [u32Tuple, toNat_ofNat] at numbers
  omega

/-- The scans agree exactly if the tuples fit and the scan in words leaves out nothing
that is hit. -/
theorem scans_agree_iff (mapSize : Nat) (trace : Buffer) :
    ScansAgree mapSize trace ↔
      mapSize ≤ 2 ^ 29 ∧ ∀ k, mapSize / 8 * 8 ≤ k → k < mapSize → trace k = 0 := by
  have shorter := Nat.div_mul_le_self mapSize 8
  constructor
  · intro agree
    have small : mapSize ≤ 2 ^ 29 := by
      by_contra large
      have wraps : u32Tuple 0 1 = u32Tuple 536870912 1 := by decide
      have same := agree.distinct 0 536870912 (by omega) (by omega) 1 (by decide) 1
        (by decide) wraps
      exact absurd same.1 (by decide)
    refine ⟨small, fun k post pre => ?_⟩
    have word := agree.word
    rw [wordCounts_eq, hitTuples_toNat (Nat.le_trans shorter small),
      tupleSpec_append shorter, self_eq_append_right, map_eq_nil_iff,
      filter_eq_nil_iff] at word
    by_contra hit
    exact word k (mem_range'_1.2 ⟨post, by omega⟩) (decide_eq_true hit)
  · rintro ⟨small, silent⟩
    refine ⟨?_, ?_, tupleSpec_ascending _ _, ?_⟩
    · rw [avx2Counts_eq, hitTuples_toNat small]
    · rw [wordCounts_eq, hitTuples_toNat (Nat.le_trans shorter small),
        tupleSpec_append shorter, self_eq_append_right, map_eq_nil_iff,
        filter_eq_nil_iff]
      intro k mem hit
      have inside := mem_range'_1.1 mem
      exact of_decide_eq_true hit (silent k inside.1 (by omega))
    · intro pos other below within class_ known second named same
      exact u32Tuple_inj (by omega) (by omega) known named same

def lastCell : Buffer := fun k => if k = 65536 then 1 else 0

/-- With 65537 cells the scan in words misses the last one. -/
theorem word_scan_misses_last_cell :
    524288 ∈ tupleSpec 65537 lastCell ∧ wordCounts 65537 lastCell = [] := by
  constructor
  · exact mem_map.2 ⟨65536, mem_filter.2 ⟨mem_range.2 (by decide), by decide⟩, rfl⟩
  · rw [wordCounts_eq, hitTuples, map_eq_nil_iff, filter_eq_nil_iff]
    intro k mem hit
    have inside := mem_range.1 mem
    exact of_decide_eq_true hit (if_neg (by omega))

end AflPlusPlus.Cmin
