/-
The one-pass scan that most executions end in.

Four builds of `skim` walk the raw trace with different strides and different
ways to find the nonzero words.  Each of them answers one question about
bytes, and with that answer the fast path is the slow path.
-/

import AflPlusPlus.CoverageNovelty

namespace AflPlusPlus

open Machine
open Machine.LaneWord

/-- The builds of `skim`, by the instruction set they were compiled for. -/
inductive SkimVariant where
  | avx512
  | avx2
  | plain64
  | plain32
  deriving DecidableEq, Repr

namespace SkimVariant

def size : SkimVariant → WordSize
  | .avx512 => .size64
  | .avx2 => .size64
  | .plain64 => .size64
  | .plain32 => .size32

def lanes : SkimVariant → Nat
  | .avx512 => 8
  | .avx2 => 4
  | .plain64 => 4
  | .plain32 => 4

def stride (v : SkimVariant) : Nat := v.size.bytes * v.lanes

/-- The loop condition.  The widest variant compares for inequality. -/
def goesOn (v : SkimVariant) (offset stop : Nat) : Bool :=
  match v with
  | .avx512 => offset != stop
  | _ => offset < stop

end SkimVariant

/-- `_mm512_testn_epi64_mask`: one bit for each lane whose conjunction is zero. -/
def testnEpi64Mask (left right : BitVec (8 * 64)) : BitVec (1 * 8) :=
  ofLanes 1 8 (fun lane =>
    BitVec.ofBool (laneAt 64 left lane &&& laneAt 64 right lane == 0))

/-- `_mm256_cmpeq_epi64`: all ones in each lane where the operands agree. -/
def cmpeqEpi64 (left right : BitVec (8 * 32)) : BitVec (64 * 4) :=
  ofLanes 64 4 (fun lane =>
    if laneAt 64 left lane = laneAt 64 right lane then BitVec.allOnes 64 else 0)

/-- `_mm256_movemask_epi8`: the top bit of every byte. -/
def movemaskEpi8 (register : BitVec (64 * 4)) : BitVec (1 * 32) :=
  ofLanes 1 32 (fun idx => BitVec.ofBool (laneAt 8 register idx).msb)

def avx2LaneMask : Nat → BitVec 32
  | 0 => 0xff
  | 1 => 0xff00
  | 2 => 0xff0000
  | _ => 0xff000000

/-- `classify_word(current[x]) & virgin[x]` at a byte offset. -/
def wordIsNew (size : WordSize) (virgin cur : Buffer) (offset : Nat) : Bool :=
  classifyWord size (load size.bytes cur offset) &&& load size.bytes virgin offset != 0

def skimPack (v : SkimVariant) (virgin cur : Buffer) (base : Nat) : Bool :=
  match v with
  | .avx512 =>
    let value := load 64 cur base
    let mask := testnEpi64Mask value value
    if mask = 0xff then false
    else (List.range 8).any (fun x =>
      mask &&& (1 <<< x) == 0 && wordIsNew .size64 virgin cur (base + 8 * x))
  | .avx2 =>
    let value := load 32 cur base
    let mask := movemaskEpi8 (cmpeqEpi64 value 0)
    if mask = BitVec.allOnes 32 then false
    else (List.range 4).any (fun x =>
      mask &&& avx2LaneMask x == 0 && wordIsNew .size64 virgin cur (base + 8 * x))
  | .plain64 =>
    (List.range 4).any (fun x =>
      load 8 cur (base + 8 * x) != 0 && wordIsNew .size64 virgin cur (base + 8 * x))
  | .plain32 =>
    (List.range 4).any (fun x =>
      load 4 cur (base + 4 * x) != 0 && wordIsNew .size32 virgin cur (base + 4 * x))

/-- The loop of `skim`.  No answer means that the pointer ran past the end. -/
def skimLoop (v : SkimVariant) (virgin cur : Buffer) (stop : Nat) :
    Nat → Nat → Option Bool
  | 0, _ => none
  | fuel + 1, offset =>
    if v.goesOn offset stop then
      if skimPack v virgin cur offset then some true
      else skimLoop v virgin cur stop fuel (offset + v.stride)
    else some false

def skim (v : SkimVariant) (virgin cur : Buffer) (stop : Nat) : Option Bool :=
  skimLoop v virgin cur stop (stop + 1) 0

/-- `has_new_bits_unclassified`, with the new value of `*classified`. -/
def hasNewBitsUnclassified (v : SkimVariant) (cov : Coverage) (map : VirginMap)
    (classified : Bool) : Option (Nat × Coverage × Bool) :=
  match skim v (cov.virgin map) cov.fsrv.traceBits cov.fsrv.mapSize with
  | none => none
  | some false => some (0, cov, classified)
  | some true =>
    let call := hasNewBits v.size { cov with fsrv := classifyCounts v.size cov.fsrv } map
    some (call.1, call.2, true)

def NewInBlock (virgin cur : Buffer) (base w : Nat) : Prop :=
  ∃ k, k < w ∧ countClassLookup8 (cur (base + k)) &&& virgin (base + k) ≠ 0

variable (size : WordSize) (v : SkimVariant) (virgin cur : Buffer)

private theorem wordIsNew_iff (offset : Nat) :
    wordIsNew size virgin cur offset = true ↔ NewInBlock virgin cur offset size.bytes := by
  unfold wordIsNew NewInBlock
  rw [bne_iff_ne, ne_zero_iff_exists_laneAt]
  constructor
  · intro found
    obtain ⟨k, within, lit⟩ := found
    refine ⟨k, within, ?_⟩
    rw [laneAt_and, laneAt_classifyWord _ _ _ within, laneAt_load _ _ _ _ within,
      laneAt_load _ _ _ _ within] at lit
    exact lit
  · intro found
    obtain ⟨k, within, lit⟩ := found
    refine ⟨k, within, ?_⟩
    rw [laneAt_and, laneAt_classifyWord _ _ _ within, laneAt_load _ _ _ _ within,
      laneAt_load _ _ _ _ within]
    exact lit

theorem load_ne_zero_of_newInBlock {w : Nat} {virgin cur : Buffer} {base : Nat}
    (fresh : NewInBlock virgin cur base w) : load w cur base ≠ 0 := by
  rw [load_ne_zero_iff]
  obtain ⟨k, within, lit⟩ := fresh
  refine ⟨k, within, ?_⟩
  intro zero
  apply lit
  rw [zero]
  exact BitVec.zero_and

private theorem bit_ofLanes_one (count : Nat) (bits : Nat → Bool) (idx : Nat)
    (within : idx < count) :
    (ofLanes 1 count (fun k => BitVec.ofBool (bits k))).getLsbD idx = bits idx := by
  have lane := congrArg (fun word => word.getLsbD 0)
    (laneAt_ofLanes 1 _ (fun k => BitVec.ofBool (bits k)) _ within)
  simp only [getLsbD_laneAt, Nat.one_mul, Nat.add_zero, Nat.lt_one_iff, decide_true,
    Bool.true_and] at lane
  rw [lane]
  cases bits idx <;> rfl

private theorem load_lane (count : Nat) (cur : Buffer) (base lane : Nat) (within : lane < count) :
    laneAt 64 (load (8 * count) cur base) lane = load 8 cur (base + 8 * lane) := by
  apply @eq_of_laneAt_eq 8 8
  intro k inside
  have nested := laneAt_laneAt 8 8 (load (8 * count) cur base) lane k inside
  rw [nested, laneAt_load _ _ _ _ (by omega), laneAt_load _ _ _ _ inside, Nat.add_assoc]

variable (base x : Nat)

theorem testnEpi64Mask_bit (within : x < 8) :
    (testnEpi64Mask (load 64 cur base) (load 64 cur base)).getLsbD x =
      (load 8 cur (base + 8 * x) == 0) := by
  unfold testnEpi64Mask
  rw [bit_ofLanes_one 8 _ x within, BitVec.and_self]
  have lane := load_lane 8 cur base x within
  rw [lane]

private theorem cmpeq_byte (value : BitVec (8 * 32)) (idx : Nat) (within : idx < 32) :
    (laneAt 8 (cmpeqEpi64 value 0) idx).msb = (laneAt 64 value (idx / 8) == 0) := by
  have split : 8 * (idx / 8) + idx % 8 = idx := Nat.div_add_mod _ 8
  have inside : idx % 8 < 8 := Nat.mod_lt _ (by decide)
  have nested := laneAt_laneAt 8 8 (cmpeqEpi64 value 0) (idx / 8) (idx % 8) inside
  rw [split] at nested
  rw [← nested]
  unfold cmpeqEpi64
  rw [laneAt_ofLanes 64 4 _ (idx / 8) (by omega), laneAt_zero]
  by_cases zero : laneAt 64 value (idx / 8) = 0
  · rw [if_pos zero, zero]
    have full : laneAt 8 (BitVec.allOnes 64) (idx % 8) = BitVec.allOnes 8 := by
      apply BitVec.eq_of_getLsbD_eq
      intro bit small
      simp only [getLsbD_laneAt, small, decide_true, Bool.true_and, BitVec.getLsbD_allOnes,
        decide_eq_true_eq]
      omega
    rw [full]
    rfl
  · have dark : (laneAt 64 value (idx / 8) == 0) = false := beq_eq_false_iff_ne.mpr zero
    rw [if_neg zero, laneAt_zero, dark]
    rfl

theorem movemask_bit (idx : Nat) (within : idx < 32) :
    (movemaskEpi8 (cmpeqEpi64 (load 32 cur base) 0)).getLsbD idx =
      (load 8 cur (base + 8 * (idx / 8)) == 0) := by
  unfold movemaskEpi8
  rw [bit_ofLanes_one 32 _ _ within, cmpeq_byte _ _ within]
  have lane := load_lane 4 cur base (idx / 8) (by omega)
  rw [lane]

private theorem oneBit_lane : ∀ x, x < 8 → ∀ k, k < 8 →
    ((1 : BitVec 8) <<< x).getLsbD k = decide (k = x) := by
  decide

private theorem avx2LaneMask_bit : ∀ x, x < 4 → ∀ k, k < 32 →
    (avx2LaneMask x).getLsbD k = decide (k / 8 = x) := by
  decide

private theorem mask_and_eq_zero_iff {w : Nat} (mask select : BitVec w) (group : Nat)
    (lane : Nat) (lit : Nat → Bool)
    (maskBit : ∀ k, k < w → mask.getLsbD k = lit (k / group))
    (selectBit : ∀ k, k < w → select.getLsbD k = decide (k / group = lane))
    (witness : Nat) (small : witness < w) (atLane : witness / group = lane) :
    mask &&& select = 0 ↔ lit lane = false := by
  constructor
  · intro zero
    have bit := congrArg (fun word => word.getLsbD witness) zero
    simp only [BitVec.getLsbD_and, maskBit witness small, selectBit witness small, atLane,
      decide_true, Bool.and_true] at bit
    simpa using bit
  · intro dark
    apply BitVec.eq_of_getLsbD_eq
    intro k inside
    rw [BitVec.getLsbD_and, maskBit k inside, selectBit k inside]
    by_cases here : k / group = lane
    · rw [here, dark]
      simp
    · simp [here]

private theorem testn_select_iff (within : x < 8) :
    (testnEpi64Mask (load 64 cur base) (load 64 cur base) &&& (1 <<< x) = 0) ↔
      load 8 cur (base + 8 * x) ≠ 0 := by
  rw [@mask_and_eq_zero_iff 8 _ _ 1 x (fun lane => load 8 _ (base + 8 * lane) == 0)
    (fun k small => by rw [Nat.div_one]; exact testnEpi64Mask_bit _ _ k small)
    (fun k small => by rw [Nat.div_one]; exact oneBit_lane x within k small)
    x within (Nat.div_one x)]
  rw [beq_eq_false_iff_ne]

private theorem movemask_select_iff (within : x < 4) :
    (movemaskEpi8 (cmpeqEpi64 (load 32 cur base) 0) &&& avx2LaneMask x = 0) ↔
      load 8 cur (base + 8 * x) ≠ 0 := by
  rw [@mask_and_eq_zero_iff 32 _ _ 8 x (fun lane => load 8 _ (base + 8 * lane) == 0)
    (fun k small => movemask_bit _ _ k small)
    (fun k small => avx2LaneMask_bit x within k small)
    (8 * x) (by omega) (by omega)]
  rw [beq_eq_false_iff_ne]

private theorem exists_word_iff (w lanes : Nat) :
    (∃ x, x < lanes ∧ NewInBlock virgin cur (base + w * x) w) ↔
      NewInBlock virgin cur base (w * lanes) := by
  constructor
  · intro found
    obtain ⟨x, within, k, inside, lit⟩ := found
    have grown : w * (x + 1) ≤ w * lanes := Nat.mul_le_mul_left _ within
    rw [Nat.mul_succ] at grown
    refine ⟨w * x + k, by omega, ?_⟩
    rw [← Nat.add_assoc]
    exact lit
  · intro found
    obtain ⟨k, inside, lit⟩ := found
    have pos : 0 < w := by
      rcases Nat.eq_zero_or_pos w with none | some
      · subst none
        omega
      · exact some
    refine ⟨k / w, Nat.div_lt_of_lt_mul inside, k % w, Nat.mod_lt k pos, ?_⟩
    rw [Nat.add_assoc, Nat.div_add_mod]
    exact lit

variable (lanes : Nat)

private theorem any_words_iff (test : Nat → Bool) (exact_test : ∀ x, x < lanes →
      (test x = true ↔ load size.bytes cur (base + size.bytes * x) ≠ 0)) :
    ((List.range lanes).any (fun x =>
        test x && wordIsNew size virgin cur (base + size.bytes * x)) = true) ↔
      NewInBlock virgin cur base (size.bytes * lanes) := by
  rw [← exists_word_iff, List.any_eq_true]
  constructor
  · intro found
    obtain ⟨x, mem, both⟩ := found
    rw [Bool.and_eq_true] at both
    exact ⟨x, List.mem_range.mp mem, (wordIsNew_iff _ _ _ _).mp both.2⟩
  · intro found
    obtain ⟨x, within, fresh⟩ := found
    refine ⟨x, List.mem_range.mpr within, ?_⟩
    rw [Bool.and_eq_true]
    exact ⟨(exact_test x within).mpr (load_ne_zero_of_newInBlock fresh),
      (wordIsNew_iff _ _ _ _).mpr fresh⟩

/-- The early `continue` on an all-zero pack is justified by the same test. -/
private theorem no_news_of_tests
    (zero : ∀ x, x < lanes → load size.bytes cur (base + size.bytes * x) = 0) :
    ¬ NewInBlock virgin cur base (size.bytes * lanes) := by
  intro fresh
  rw [← exists_word_iff] at fresh
  obtain ⟨x, within, news⟩ := fresh
  exact load_ne_zero_of_newInBlock news (zero x within)

private theorem skimPack_iff :
    skimPack v virgin cur base = true ↔ NewInBlock virgin cur base v.stride := by
  cases v with
  | avx512 =>
    unfold skimPack
    by_cases empty : testnEpi64Mask (load 64 cur base) (load 64 cur base) = 0xff
    · rw [if_pos empty]
      constructor
      · intro bad
        cases bad
      · intro fresh
        refine absurd fresh (no_news_of_tests .size64 _ _ _ 8 ?_)
        intro x within
        have bit := testnEpi64Mask_bit cur base x within
        rw [empty] at bit
        have lit : (0xff : BitVec (1 * 8)).getLsbD x = true := by
          have small : ∀ k, k < 8 → (0xff : BitVec (1 * 8)).getLsbD k = true := by decide
          exact small x within
        rw [lit] at bit
        change load 8 cur (base + 8 * x) = 0
        exact eq_of_beq bit.symm
    · rw [if_neg empty]
      apply any_words_iff .size64 _ _ _ 8
      intro x within
      rw [beq_iff_eq]
      exact testn_select_iff _ _ x within
  | avx2 =>
    unfold skimPack
    by_cases empty : movemaskEpi8 (cmpeqEpi64 (load 32 cur base) 0) = BitVec.allOnes 32
    · rw [if_pos empty]
      constructor
      · intro bad
        cases bad
      · intro fresh
        refine absurd fresh (no_news_of_tests .size64 _ _ _ 4 ?_)
        intro x within
        have bit := movemask_bit cur base (8 * x) (by omega)
        rw [empty, BitVec.getLsbD_allOnes, Nat.mul_div_cancel_left x (by decide),
          decide_eq_true (by omega : 8 * x < 32)] at bit
        change load 8 cur (base + 8 * x) = 0
        exact eq_of_beq bit.symm
    · rw [if_neg empty]
      apply any_words_iff .size64 _ _ _ 4
      intro x within
      rw [beq_iff_eq]
      exact movemask_select_iff _ _ x within
  | plain64 =>
    exact any_words_iff .size64 _ _ _ 4
      (fun x => load 8 _ (base + 8 * x) != 0) (fun x _within => bne_iff_ne)
  | plain32 =>
    exact any_words_iff .size32 _ _ _ 4
      (fun x => load 4 _ (base + 4 * x) != 0) (fun x _within => bne_iff_ne)

theorem SkimVariant.stride_pos : 0 < v.stride := by
  cases v <;> decide

private theorem SkimVariant.stride_dvd : v.stride ∣ 64 := by
  cases v <;> decide

private theorem newInBlock_append_iff (first second : Nat) :
    NewInBlock virgin cur base (first + second) ↔
      NewInBlock virgin cur base first ∨ NewInBlock virgin cur (base + first) second := by
  unfold NewInBlock
  rw [exists_block_iff]
  simp only [Nat.add_assoc]

private theorem goesOn_iff (done packs : Nat) (bounded : done ≤ packs) :
    v.goesOn (v.stride * done) (v.stride * packs) = true ↔ done < packs := by
  have order : v.stride * done < v.stride * packs ↔ done < packs := Nat.mul_lt_mul_left v.stride_pos
  have inside := Nat.mul_le_mul_left v.stride bounded
  cases v <;> simp only [SkimVariant.goesOn, bne_iff_ne, decide_eq_true_eq] <;> omega

private theorem skimLoop_spec (packs : Nat) : ∀ done fuel, packs - done < fuel → done ≤ packs →
    ∃ answer, skimLoop v virgin cur (v.stride * packs) fuel (v.stride * done) = some answer ∧
        (answer = true ↔ NewInBlock virgin cur (v.stride * done) (v.stride * (packs - done))) := by
  intro done fuel
  induction fuel generalizing done with
  | zero =>
    intro bad
    exact absurd bad (Nat.not_lt_zero _)
  | succ fuel ih =>
    intro enough bounded
    have runs := goesOn_iff v _ _ bounded
    unfold skimLoop
    by_cases later : done < packs
    · have len : v.stride * (packs - done) = v.stride + v.stride * (packs - (done + 1)) := by
        rw [show packs - done = packs - (done + 1) + 1 by omega, Nat.mul_succ, Nat.add_comm]
      rw [if_pos (runs.2 later), len, newInBlock_append_iff, ← Nat.mul_succ, ← skimPack_iff]
      cases skimPack v virgin cur (v.stride * done) with
      | true => exact ⟨true, rfl, fun _ => .inl rfl, fun _ => rfl⟩
      | false =>
        obtain ⟨answer, res, meaning⟩ := ih (done + 1) (by omega) later
        refine ⟨answer, res, ?_⟩
        rw [meaning, or_iff_right Bool.false_ne_true]
    · rw [if_neg (fun goes => later (runs.1 goes)), Nat.sub_eq_zero_of_le (Nat.le_of_not_lt later)]
      refine ⟨false, rfl, ?_⟩
      constructor
      · intro bad
        cases bad
      · intro fresh
        obtain ⟨k, within, _⟩ := fresh
        cases within

theorem skim_spec (stop : Nat) (aligned : 64 ∣ stop) :
    ∃ answer, skim v virgin cur stop = some answer ∧ (answer = true ↔
        ∃ i, i < stop ∧ countClassLookup8 (cur i) &&& virgin i ≠ 0) := by
  obtain ⟨packs, rfl⟩ := Nat.dvd_trans v.stride_dvd aligned
  have small : packs ≤ v.stride * packs := Nat.le_mul_of_pos_left _ v.stride_pos
  obtain ⟨answer, res, meaning⟩ := skimLoop_spec v virgin cur packs 0
    (v.stride * packs + 1) (by omega) (Nat.zero_le packs)
  refine ⟨answer, res, ?_⟩
  rw [meaning]
  unfold NewInBlock
  simp

private theorem WordSize.scanned_le_mapSize (mapSize realMapSize : Nat) (aligned : 64 ∣ mapSize)
    (bounded : realMapSize ≤ mapSize) : size.bytes * size.realWords realMapSize ≤ mapSize := by
  cases size <;> simp only [bytes, realWords, Nat.shiftRight_eq_div_pow] <;> omega

/-- The trace bytes between the real map and the end of the map are zero. -/
def Fsrv.Padded (fsrv : Fsrv) : Prop :=
  ∀ i, fsrv.realMapSize ≤ i → i < fsrv.mapSize → fsrv.traceBits i = 0

/-- The scan of the raw trace over the whole map answers the question that the
scan of the classified trace over the real map asks. -/
private theorem meets_classified_iff (cov : Coverage) (map : VirginMap)
    (aligned : 64 ∣ cov.fsrv.mapSize)
    (bounded : cov.fsrv.realMapSize ≤ cov.fsrv.mapSize) (padded : cov.fsrv.Padded) :
    (∃ i, i < cov.fsrv.mapSize ∧
        countClassLookup8 (cov.fsrv.traceBits i) &&& cov.virgin map i ≠ 0) ↔
      Meets (classifyCounts size cov.fsrv).traceBits (cov.virgin map)
        (size.bytes * size.realWords cov.fsrv.realMapSize) := by
  have whole := size.bytes_mul_words cov.fsrv.mapSize (Nat.dvd_trans (by decide) aligned)
  have inside := size.scanned_le_mapSize _ _ aligned bounded
  have covered := size.realMapSize_le_scanned cov.fsrv.realMapSize
  constructor
  · intro found
    obtain ⟨i, within, lit⟩ := found
    refine ⟨i, ?_, ?_⟩
    · by_contra outside
      apply lit
      rw [padded i (by omega) within]
      exact BitVec.zero_and
    · rw [classifyCounts_apply, whole, if_pos within]
      exact lit
  · intro found
    obtain ⟨i, within, lit⟩ := found
    refine ⟨i, by omega, ?_⟩
    rw [classifyCounts_apply, if_pos (by omega)] at lit
    exact lit

/-- The combined pass returns what classification followed by the novelty scan
returns and leaves the same virgin maps.  The trace is classified, and reported
so, exactly when something new was seen. -/
theorem hasNewBitsUnclassified_eq_slow_path (v : SkimVariant) (cov : Coverage)
    (map : VirginMap) (aligned : 64 ∣ cov.fsrv.mapSize)
    (bounded : cov.fsrv.realMapSize ≤ cov.fsrv.mapSize) (padded : cov.fsrv.Padded) :
    let slow := hasNewBits v.size { cov with fsrv := classifyCounts v.size cov.fsrv } map
    ∃ ret post classified,
      hasNewBitsUnclassified v cov map false = some (ret, post, classified) ∧ ret = slow.1 ∧
        (∀ other, post.virgin other = slow.2.virgin other) ∧
        post.bitmapChanged = slow.2.bitmapChanged ∧
        (ret = 0 → post.fsrv = cov.fsrv ∧ classified = false) ∧
        (ret ≠ 0 → post.fsrv = classifyCounts v.size cov.fsrv ∧ classified = true) := by
  intro slow
  obtain ⟨answer, res, meaning⟩ := skim_spec v (cov.virgin map) cov.fsrv.traceBits
    cov.fsrv.mapSize aligned
  rw [meets_classified_iff v.size _ _ aligned bounded padded] at meaning
  have verdict : slow.1 = novelty (classifyCounts v.size cov.fsrv).traceBits
      (cov.virgin map) (v.size.bytes * v.size.realWords cov.fsrv.realMapSize) := by
    have law := hasNewBits_verdict v.size { cov with fsrv := classifyCounts v.size cov.fsrv } map
    cases map <;> exact law
  unfold hasNewBitsUnclassified
  rw [res]
  cases answer with
  | false =>
    have zero : slow.1 = 0 := by
      rw [verdict, novelty_eq_zero_iff]
      intro meets
      exact absurd (meaning.mpr meets) (by decide)
    have same := hasNewBits_eq_self_of_zero v.size _ _ zero
    refine ⟨0, cov, false, rfl, zero.symm, ?_, ?_, ?_, ?_⟩
    · intro other
      rw [same]
      cases other <;> rfl
    · rw [same]
    · intro _
      exact ⟨rfl, rfl⟩
    · intro bad
      exact absurd rfl bad
  | true =>
    have nonzero : slow.1 ≠ 0 := by
      rw [verdict, Ne, novelty_eq_zero_iff, not_not]
      exact meaning.mp rfl
    refine ⟨slow.1, slow.2, true, rfl, rfl, fun _ => rfl, rfl, ?_, ?_⟩
    · intro zero
      exact absurd zero nonzero
    · intro _
      exact ⟨hasNewBits_fsrv _ _ _, rfl⟩

theorem hasNewBitsUnclassified_eq_slow_path_single_hit :
    let cov := (Coverage.initial 64 3).withTrace (singleHit 1)
    ∃ ret post classified,
      hasNewBitsUnclassified .avx2 cov .bits false = some (ret, post, classified) ∧
        ret = (hasNewBits .size64
          { cov with fsrv := classifyCounts .size64 cov.fsrv } .bits).1 := by
  intro cov
  obtain ⟨ret, post, classified, res, same, _⟩ :=
    hasNewBitsUnclassified_eq_slow_path .avx2 cov .bits (by decide) (by decide)
      (fun i outside _ => singleHit_padded 3 1 (by decide) i outside)
  exact ⟨ret, post, classified, res, same⟩

end AflPlusPlus
