/-
De-duplication of crashes over a campaign.

A crash trace is reduced to hit or not hit before it is compared with the
crash map.  The map then remembers, for every tuple, which of the two has been
seen; that memory is the whole history the verdict depends on.
-/

import AflPlusPlus.CoverageNovelty

namespace AflPlusPlus

open Machine

/-- A crash on its way to the crash map.  The trace may have been classified
by an earlier pass over the same execution. -/
structure Crash where
  trace : Buffer
  classified : Bool

def Crash.arrive (size : WordSize) (crash : Crash) (fsrv : Fsrv) : Fsrv :=
  if crash.classified then classifyCounts size { fsrv with traceBits := crash.trace }
  else { fsrv with traceBits := crash.trace }

/-- `simplify_trace` followed by `has_new_bits(virgin_crash)`. -/
def keepAsCrash (size : WordSize) (cov : Coverage) (crash : Crash) : Nat × Coverage :=
  let arrived := crash.arrive size cov.fsrv
  hasNewBits size (cov.withTrace (simplifyTrace size arrived.mapSize arrived.traceBits)) .crash

def crashRun (size : WordSize) (cov : Coverage) (crashes : List Crash) : Coverage :=
  crashes.foldl (fun cur crash => (keepAsCrash size cur crash).2) cov

private theorem simplifyLookup_countClassLookup8 (count : Byte) :
    simplifyLookup (countClassLookup8 count) = simplifyLookup count := by
  unfold simplifyLookup
  simp only [countClassLookup8_eq_zero_iff]

variable (size : WordSize)

theorem simplifyLookup_classifyCounts (fsrv : Fsrv) (i : Nat) :
    simplifyLookup ((classifyCounts size fsrv).traceBits i) =
      simplifyLookup (fsrv.traceBits i) := by
  rw [classifyCounts_apply]
  split
  · exact simplifyLookup_countClassLookup8 _
  · rfl

variable (crashes : List Crash) (crash : Crash)

private theorem simplify_arrive (fsrv : Fsrv) (i : Nat) (aligned : 8 ∣ fsrv.mapSize)
    (within : i < fsrv.mapSize) :
    simplifyTrace size (crash.arrive size fsrv).mapSize (crash.arrive size fsrv).traceBits i =
      simplifyLookup (crash.trace i) := by
  have whole := size.bytes_mul_words fsrv.mapSize aligned
  unfold Crash.arrive
  by_cases classified : crash.classified = true
  · rw [if_pos classified, classifyCounts_mapSize, simplifyTrace_apply]
    rw [whole, if_pos within, simplifyLookup_classifyCounts]
  · rw [if_neg classified, simplifyTrace_apply]
    rw [whole, if_pos within]

variable (size : WordSize) (cov : Coverage)

@[simp] theorem keepAsCrash_mapSize (crash : Crash) :
    (keepAsCrash size cov crash).2.fsrv.mapSize = cov.fsrv.mapSize := by
  unfold keepAsCrash
  rw [hasNewBits_fsrv]
  rfl

@[simp] theorem keepAsCrash_realMapSize (crash : Crash) :
    (keepAsCrash size cov crash).2.fsrv.realMapSize = cov.fsrv.realMapSize := by
  unfold keepAsCrash
  rw [hasNewBits_fsrv]
  rfl

variable {realMapSize : Nat}

theorem WordSize.scanned_le_of_dvd_eight {mapSize : Nat} (aligned : 8 ∣ mapSize)
    (bounded : realMapSize ≤ mapSize) : size.bytes * size.realWords realMapSize ≤ mapSize := by
  cases size <;> simp only [bytes, realWords, Nat.shiftRight_eq_div_pow] <;> omega

section Campaign

variable {size : WordSize} {cov : Coverage}
variable (aligned : 8 ∣ cov.fsrv.mapSize)
variable (bounded : cov.fsrv.realMapSize ≤ cov.fsrv.mapSize)

include aligned bounded

private theorem keepAsCrash_virgin (crash : Crash) (i : Nat) :
    (keepAsCrash size cov crash).2.virginCrash i =
      if i < size.bytes * size.realWords cov.fsrv.realMapSize then
        cov.virginCrash i &&& ~~~(simplifyLookup (crash.trace i))
      else cov.virginCrash i := by
  have inside := size.scanned_le_of_dvd_eight aligned bounded
  have law := hasNewBits_virgin size (cov.withTrace (simplifyTrace size
    (crash.arrive size cov.fsrv).mapSize (crash.arrive size cov.fsrv).traceBits)) .crash i
  rw [Coverage.withTrace_realMapSize, Coverage.withTrace_traceBits] at law
  refine law.trans ?_
  by_cases scanned : i < size.bytes * size.realWords cov.fsrv.realMapSize
  · rw [if_pos scanned, if_pos scanned, simplify_arrive _ _ cov.fsrv i aligned (by omega)]
    rfl
  · rw [if_neg scanned, if_neg scanned]
    rfl

theorem hasNewBits_simplified_iff (map : VirginMap) (trace : Buffer) :
    (hasNewBits size (cov.withTrace (simplifyTrace size cov.fsrv.mapSize trace)) map).1 ≠ 0 ↔
      ∃ i, i < size.bytes * size.realWords cov.fsrv.realMapSize ∧
        simplifyLookup (trace i) &&& cov.virgin map i ≠ 0 := by
  have inside := size.scanned_le_of_dvd_eight aligned bounded
  have simplified : ∀ i, i < size.bytes * size.realWords cov.fsrv.realMapSize →
      simplifyTrace size cov.fsrv.mapSize trace i = simplifyLookup (trace i) := by
    intro i scanned
    rw [simplifyTrace_apply, size.bytes_mul_words _ aligned, if_pos (by omega)]
  rw [hasNewBits_verdict, Ne, novelty_eq_zero_iff, not_not, Coverage.withTrace_traceBits]
  constructor
  · intro found
    obtain ⟨i, scanned, lit⟩ := found
    rw [simplified i scanned] at lit
    exact ⟨i, scanned, lit⟩
  · intro found
    obtain ⟨i, scanned, lit⟩ := found
    refine ⟨i, scanned, ?_⟩
    rw [simplified i scanned]
    exact lit

private theorem keepAsCrash_reports_iff (crash : Crash) :
    (keepAsCrash size cov crash).1 ≠ 0 ↔ ∃ i, i < size.bytes * size.realWords cov.fsrv.realMapSize ∧
        simplifyLookup (crash.trace i) &&& cov.virginCrash i ≠ 0 := by
  have arrived : (crash.arrive size cov.fsrv).mapSize = cov.fsrv.mapSize := by
    unfold Crash.arrive
    split <;> rfl
  have hidden : ∀ i, simplifyLookup ((crash.arrive size cov.fsrv).traceBits i) =
      simplifyLookup (crash.trace i) := by
    intro i
    unfold Crash.arrive
    split
    · exact simplifyLookup_classifyCounts _ _ i
    · rfl
  unfold keepAsCrash
  dsimp only
  rw [arrived, hasNewBits_simplified_iff aligned bounded]
  simp only [hidden]
  rfl

end Campaign

def seenMask (traces : List Buffer) (i : Nat) : Byte :=
  traces.foldr (fun trace mask => simplifyLookup (trace i) ||| mask) 0

theorem seenMask_eq (traces : List Buffer) (i : Nat) :
    seenMask traces i = (if ∃ trace ∈ traces, trace i ≠ 0 then 0x80 else 0) |||
        (if ∃ trace ∈ traces, trace i = 0 then 0x01 else 0) := by
  induction traces with
  | nil => simp [seenMask]
  | cons trace rest ih =>
    change simplifyLookup (trace i) ||| seenMask rest i = _
    rw [ih]
    by_cases zero : trace i = 0
    · simp only [simplifyLookup, zero, List.mem_cons, exists_eq_or_imp, ne_eq, not_true_eq_false,
        false_or, true_or, if_true]
      split <;> split <;> decide
    · simp only [simplifyLookup, zero, List.mem_cons, exists_eq_or_imp, ne_eq, not_false_eq_true,
        false_or, true_or, if_true, if_false]
      split <;> split <;> decide

section

variable (crashes : List Crash)

@[simp] theorem crashRun_mapSize :
    (crashRun size cov crashes).fsrv.mapSize = cov.fsrv.mapSize := by
  induction crashes generalizing cov with
  | nil => rfl
  | cons crash rest ih => exact (ih _).trans (keepAsCrash_mapSize _ _ _)

@[simp] theorem crashRun_realMapSize :
    (crashRun size cov crashes).fsrv.realMapSize = cov.fsrv.realMapSize := by
  induction crashes generalizing cov with
  | nil => rfl
  | cons crash rest ih => exact (ih _).trans (keepAsCrash_realMapSize _ _ _)

private theorem clear_twice (virgin first second : Byte) :
    virgin &&& ~~~first &&& ~~~second = virgin &&& ~~~(first ||| second) := by
  apply BitVec.eq_of_getLsbD_eq
  intro bit inside
  simp [inside, Bool.and_assoc]

theorem crashRun_virgin (aligned : 8 ∣ cov.fsrv.mapSize)
    (bounded : cov.fsrv.realMapSize ≤ cov.fsrv.mapSize) (i : Nat) :
    (crashRun size cov crashes).virginCrash i =
      if i < size.bytes * size.realWords cov.fsrv.realMapSize then
        cov.virginCrash i &&& ~~~(seenMask (crashes.map Crash.trace) i)
      else cov.virginCrash i := by
  induction crashes generalizing cov with
  | nil =>
    change cov.virginCrash i = if _ then cov.virginCrash i &&& ~~~(0 : Byte) else _
    have full : cov.virginCrash i &&& ~~~(0 : Byte) = cov.virginCrash i := BitVec.and_allOnes
    rw [full, ite_self]
  | cons crash rest ih =>
    have tail := ih (keepAsCrash size _ crash).2 (by rw [keepAsCrash_mapSize]; exact aligned)
      (by rw [keepAsCrash_mapSize, keepAsCrash_realMapSize]; exact bounded)
    change (crashRun size (keepAsCrash size cov crash).2 rest).virginCrash i = _
    rw [tail, keepAsCrash_realMapSize, keepAsCrash_virgin aligned bounded]
    by_cases scanned : i < size.bytes * size.realWords cov.fsrv.realMapSize
    · rw [if_pos scanned, if_pos scanned, if_pos scanned]
      exact clear_twice _ _ _
    · rw [if_neg scanned, if_neg scanned, if_neg scanned]

end

def Unseen (crashes : List Crash) (crash : Crash) (i : Nat) : Prop :=
  ∀ earlier ∈ crashes, ¬ (earlier.trace i = 0 ↔ crash.trace i = 0)

private theorem simplified_meets_iff (i : Nat) :
    simplifyLookup (crash.trace i) &&& (0xff &&& ~~~(seenMask (crashes.map Crash.trace) i)) ≠ 0 ↔
      Unseen crashes crash i := by
  rw [seenMask_eq]
  simp only [List.mem_map, exists_exists_and_eq_and]
  by_cases zero : crash.trace i = 0
  · -- bit 0 alone decides
    have unseen : Unseen crashes crash i ↔ ¬ ∃ earlier ∈ crashes, earlier.trace i = 0 := by
      simp [Unseen, zero]
    rw [unseen]
    simp only [simplifyLookup, zero, if_true]
    by_cases missed : ∃ earlier ∈ crashes, earlier.trace i = 0
    · simp only [missed, if_true, not_true_eq_false, iff_false]
      split <;> decide
    · simp only [missed, if_false, not_false_eq_true, iff_true]
      split <;> decide
  · -- bit 7 alone decides
    have unseen : Unseen crashes crash i ↔ ¬ ∃ earlier ∈ crashes, earlier.trace i ≠ 0 := by
      simp only [Unseen, zero, iff_false, not_not, not_exists, not_and, ne_eq]
    rw [unseen]
    simp only [simplifyLookup, zero, if_false]
    by_cases hit : ∃ earlier ∈ crashes, earlier.trace i ≠ 0
    · simp only [hit, if_true, not_true_eq_false, iff_false]
      split <;> decide
    · simp only [hit, if_false, not_false_eq_true, iff_true]
      split <;> decide

section History

variable {size : WordSize} {cov : Coverage} (aligned : 8 ∣ cov.fsrv.mapSize)
variable (bounded : cov.fsrv.realMapSize ≤ cov.fsrv.mapSize)

include aligned bounded

theorem crashRun_seen (virgin : ∀ i, i < cov.fsrv.mapSize → cov.virginCrash i = 0xff)
    (crashes : List Crash) (i : Nat)
    (scanned : i < size.bytes * size.realWords cov.fsrv.realMapSize) :
    (crashRun size cov crashes).virginCrash i =
      0xff &&& ~~~(seenMask (crashes.map Crash.trace) i) := by
  have inside := size.scanned_le_of_dvd_eight aligned bounded
  rw [crashRun_virgin _ _ _ aligned bounded, if_pos scanned, virgin i (by omega)]

theorem keepAsCrash_after_run_iff (crashes : List Crash) (crash : Crash) :
    (keepAsCrash size (crashRun size cov crashes) crash).1 ≠ 0 ↔
      ∃ i, i < size.bytes * size.realWords cov.fsrv.realMapSize ∧
        simplifyLookup (crash.trace i) &&& (crashRun size cov crashes).virginCrash i ≠ 0 := by
  have alignedAfter : 8 ∣ (crashRun size cov crashes).fsrv.mapSize := by
    rw [crashRun_mapSize]
    exact aligned
  have boundedAfter : (crashRun size cov crashes).fsrv.realMapSize ≤
      (crashRun size cov crashes).fsrv.mapSize := by
    rw [crashRun_mapSize, crashRun_realMapSize]
    exact bounded
  rw [keepAsCrash_reports_iff alignedAfter boundedAfter, crashRun_realMapSize]

theorem keepAsCrash_unseen_iff (virgin : ∀ i, i < cov.fsrv.mapSize → cov.virginCrash i = 0xff)
    (crashes : List Crash) (crash : Crash) :
    (keepAsCrash size (crashRun size cov crashes) crash).1 ≠ 0 ↔
      ∃ i, i < size.bytes * size.realWords cov.fsrv.realMapSize ∧ Unseen crashes crash i := by
  rw [keepAsCrash_after_run_iff aligned bounded]
  constructor
  · intro found
    obtain ⟨i, scanned, lit⟩ := found
    rw [crashRun_seen aligned bounded virgin _ i scanned, simplified_meets_iff] at lit
    exact ⟨i, scanned, lit⟩
  · intro found
    obtain ⟨i, scanned, unseen⟩ := found
    refine ⟨i, scanned, ?_⟩
    rw [crashRun_seen aligned bounded virgin _ i scanned, simplified_meets_iff]
    exact unseen

private theorem crashRun_virgin_congr {crashes others : List Crash}
    (traces : others.map Crash.trace = crashes.map Crash.trace) :
    (crashRun size cov others).virginCrash = (crashRun size cov crashes).virginCrash := by
  funext i
  rw [crashRun_virgin _ _ _ aligned bounded, crashRun_virgin _ _ _ aligned bounded, traces]

end History

private theorem WordSize.scanned_zero : size.bytes * size.realWords 0 = 0 := by
  cases size <;> rfl

/-- Past the real map every padded trace is zero, so only the first crash can be
new there, and then it is new at the first tuple as well. -/
private theorem unseen_scanned_iff {crashes : List Crash} {crash : Crash}
    (padded : ∀ item ∈ crash :: crashes, Padded realMapSize item.trace) :
    (∃ i, i < size.bytes * size.realWords realMapSize ∧ Unseen crashes crash i) ↔
      ∃ i, i < realMapSize ∧ Unseen crashes crash i := by
  have covered := size.realMapSize_le_scanned realMapSize
  constructor
  · intro found
    obtain ⟨i, scanned, unseen⟩ := found
    by_cases within : i < realMapSize
    · exact ⟨i, within, unseen⟩
    · have zero := padded _ List.mem_cons_self i (Nat.le_of_not_lt within)
      cases crashes with
      | nil =>
        have nonempty : realMapSize ≠ 0 := by
          intro empty
          rw [empty, size.scanned_zero] at scanned
          cases scanned
        exact ⟨0, Nat.pos_of_ne_zero nonempty, nofun⟩
      | cons earlier rest =>
        have zeroEarlier := padded _ (List.mem_cons_of_mem _ List.mem_cons_self) i
          (Nat.le_of_not_lt within)
        refine absurd ?_ (unseen _ List.mem_cons_self)
        rw [zero, zeroEarlier]
  · intro found
    obtain ⟨i, within, unseen⟩ := found
    exact ⟨i, Nat.lt_of_lt_of_le within covered, unseen⟩

/-- The history law of crash de-duplication.  The crash map records which
tuples some crash hit and which some crash missed; a crash is new exactly when
one of its tuples has a status no processed crash had; and raw and classified
traces cannot be told apart. -/
theorem crash_campaign_law (size : WordSize) (cov : Coverage) (crashes : List Crash)
    (aligned : 8 ∣ cov.fsrv.mapSize) (bounded : cov.fsrv.realMapSize ≤ cov.fsrv.mapSize)
    (virgin : ∀ i, i < cov.fsrv.mapSize → cov.virginCrash i = 0xff) :
    let post := crashRun size cov crashes
    (∀ i, i < cov.fsrv.realMapSize → post.virginCrash i = 0xff &&&
        ~~~(if ∃ crash ∈ crashes, crash.trace i ≠ 0 then 0x80 else 0) &&&
        ~~~(if ∃ crash ∈ crashes, crash.trace i = 0 then 0x01 else 0)) ∧
      (∀ crash, (keepAsCrash size post crash).1 ≠ 0 ↔
        ∃ i, i < size.bytes * size.realWords cov.fsrv.realMapSize ∧ Unseen crashes crash i) ∧
      (∀ crash, (∀ item ∈ crash :: crashes, Padded cov.fsrv.realMapSize item.trace) →
        ((keepAsCrash size post crash).1 ≠ 0 ↔
          ∃ i, i < cov.fsrv.realMapSize ∧ Unseen crashes crash i)) ∧
      (∀ others, others.map Crash.trace = crashes.map Crash.trace →
        (crashRun size cov others).virginCrash = post.virginCrash ∧
        ∀ crash other, other.trace = crash.trace →
          ((keepAsCrash size (crashRun size cov others) other).1 ≠ 0 ↔
            (keepAsCrash size post crash).1 ≠ 0)) := by
  intro post
  have covered := size.realMapSize_le_scanned cov.fsrv.realMapSize
  have reports := @keepAsCrash_unseen_iff size _ aligned bounded virgin crashes
  refine ⟨?_, reports, ?_, ?_⟩
  · intro i within
    have scanned := Nat.lt_of_lt_of_le within covered
    rw [crashRun_seen aligned bounded virgin _ i scanned, clear_twice, seenMask_eq]
    simp
  · intro crash padded
    rw [reports _]
    exact unseen_scanned_iff _ padded
  · intro others traces
    have map := @crashRun_virgin_congr size _ aligned bounded _ _ traces
    refine ⟨map, ?_⟩
    intro crash other same
    rw [keepAsCrash_after_run_iff aligned bounded, keepAsCrash_after_run_iff aligned bounded, map,
      same]

/-- After a crash at tuple 1 and one at tuple 2, one at both is no news; one at
tuple 0 is. -/
theorem crash_campaign_law_four_crashes :
    (keepAsCrash .size64 (crashRun .size64 (Coverage.initial 64 3)
      [⟨singleHit 1, false⟩, ⟨singleHit 2, true⟩])
      ⟨fun i => if i = 1 ∨ i = 2 then 1 else 0, false⟩).1 = 0 ∧
    (keepAsCrash .size64 (crashRun .size64 (Coverage.initial 64 3)
      [⟨singleHit 1, false⟩, ⟨singleHit 2, true⟩]) ⟨singleHit 0, false⟩).1 ≠ 0 := by
  have law := crash_campaign_law .size64 (Coverage.initial 64 3)
    [⟨singleHit 1, false⟩, ⟨singleHit 2, true⟩] (by decide) (by decide) (fun _ _ => rfl)
  constructor
  · by_contra new
    obtain ⟨i, inside, unseen⟩ := (law.2.1 _).1 new
    have seen : ∀ i, i < 8 → ∃ earlier ∈ [Crash.mk (singleHit 1) false, ⟨singleHit 2, true⟩],
        (earlier.trace i = 0 ↔ (if i = 1 ∨ i = 2 then 1 else 0 : Byte) = 0) := by decide
    obtain ⟨earlier, mem, same⟩ := seen i inside
    exact unseen earlier mem same
  · refine (law.2.1 ⟨singleHit 0, false⟩).2 ⟨0, by decide, ?_⟩
    intro earlier mem
    rcases List.mem_cons.1 mem with first | later
    · rw [first]
      decide
    · rw [List.mem_singleton.1 later]
      decide

end AflPlusPlus
