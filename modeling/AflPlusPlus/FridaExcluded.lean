/-
Which addresses FRIDA mode excludes from instrumentation (`ranges_init`).

The merged list has a gap between any two ranges, so the lookup may stop at the first
range behind the address.  Together with the set algebra of the scans this settles
what is excluded.
-/

import AflPlusPlus.FridaRanges

namespace AflPlusPlus.Frida

open List

def Untouching (list : List MemoryRange) : Prop :=
  (∀ range ∈ list, range.lo < range.hi) ∧ list.Pairwise (fun a b => a.hi < b.lo)

variable {list : List MemoryRange}

private theorem mergeFrom_spec {rp : MemoryRange} (fits : ∀ range ∈ rp :: list, range.Fits)
    (separate : Separate (rp :: list)) :
    (∀ range ∈ mergeFrom rp list, range.Fits ∧ rp.lo ≤ range.lo) ∧
      Untouching (mergeFrom rp list) ∧ cover (mergeFrom rp list) = cover (rp :: list) := by
  induction list generalizing rp with
  | nil =>
    refine ⟨?_, ⟨?_, pairwise_singleton _ _⟩, rfl⟩
    · intro range mem
      rw [mem_singleton.1 mem]
      exact ⟨fits rp mem_cons_self, Nat.le_refl _⟩
    · intro range mem
      rw [mem_singleton.1 mem]
      exact separate.nonempty rp mem_cons_self
  | cons r rest ih =>
    obtain ⟨fitsRp, fitsRest⟩ := forall_mem_cons.1 fits
    obtain ⟨fitsR, fitsLater⟩ := forall_mem_cons.1 fitsRest
    obtain ⟨someRp, someRest⟩ := forall_mem_cons.1 separate.nonempty
    obtain ⟨_, someLater⟩ := forall_mem_cons.1 someRest
    obtain ⟨behindRp, apartRest⟩ := pairwise_cons.1 separate.apart
    obtain ⟨behindR, apartLater⟩ := pairwise_cons.1 apartRest
    have limit := MemoryRange.toNat_limit fitsRp
    unfold mergeFrom
    by_cases touch : rp.limit = r.baseAddress
    · rw [if_pos touch]
      have meets : rp.hi = r.lo := by
        rw [← limit, touch]
        rfl
      have lo : MemoryRange.lo ⟨rp.baseAddress, rp.size + r.size⟩ = rp.lo := rfl
      have hi : MemoryRange.hi ⟨rp.baseAddress, rp.size + r.size⟩ = r.hi := by
        unfold MemoryRange.Fits at fitsR
        unfold MemoryRange.hi MemoryRange.lo at *
        rw [BitVec.toNat_add]
        omega
      have joined : Separate (⟨rp.baseAddress, rp.size + r.size⟩ :: rest) := by
        refine ⟨forall_mem_cons.2 ⟨by omega, someLater⟩, pairwise_cons.2 ⟨?_, apartLater⟩⟩
        intro range listed
        rw [hi]
        exact behindR _ listed
      have fitsJoined : MemoryRange.Fits ⟨rp.baseAddress, rp.size + r.size⟩ := by
        unfold MemoryRange.Fits
        rw [hi]
        exact fitsR
      obtain ⟨bounds, untouching, same⟩ := ih (forall_mem_cons.2 ⟨fitsJoined, fitsLater⟩) joined
      refine ⟨bounds, untouching, same.trans ?_⟩
      ext addr
      rw [mem_cover_cons, mem_cover_cons, mem_cover_cons, ← or_assoc]
      apply or_congr_left
      unfold MemoryRange.Has
      omega
    · rw [if_neg touch]
      have gap : rp.hi < r.lo := by
        have ordered := behindRp r mem_cons_self
        have differs : rp.hi ≠ r.lo := by
          intro meets
          apply touch
          apply BitVec.eq_of_toNat_eq
          rw [limit, meets]
          rfl
        omega
      obtain ⟨bounds, untouching, same⟩ := ih fitsRest ⟨someRest, apartRest⟩
      refine ⟨forall_mem_cons.2 ⟨⟨fitsRp, Nat.le_refl _⟩, ?_⟩,
        ⟨forall_mem_cons.2 ⟨someRp, untouching.1⟩, pairwise_cons.2 ⟨?_, untouching.2⟩⟩, ?_⟩
      · intro range listed
        have bound := bounds _ listed
        exact ⟨bound.1, by omega⟩
      · intro range listed
        have bound := bounds _ listed
        omega
      · ext addr
        rw [mem_cover_cons, mem_cover_cons, same]

variable (fits : ∀ range ∈ list, range.Fits)

include fits

private theorem mergeRanges_spec (separate : Separate list) :
    (∀ range ∈ mergeRanges list, range.Fits) ∧ Untouching (mergeRanges list) ∧
      cover (mergeRanges list) = cover list := by
  cases list with
  | nil =>
    refine ⟨fun range bad => ?_, ⟨fun range bad => ?_, List.Pairwise.nil⟩, rfl⟩
    all_goals cases bad
  | cons rp rest =>
    obtain ⟨bounds, untouching, same⟩ := mergeFrom_spec fits separate
    exact ⟨fun range mem => (bounds _ mem).1, untouching, same⟩

private theorem rangeIsExcluded_iff (untouching : Untouching list) (addr : BitVec 64) :
    rangeIsExcluded addr list = true ↔ addr.toNat ∈ cover list := by
  induction list with
  | nil => simp [rangeIsExcluded]
  | cons curr rest ih =>
    obtain ⟨fitsCurr, fitsRest⟩ := forall_mem_cons.1 fits
    have limit := MemoryRange.toNat_limit fitsCurr
    obtain ⟨behind, apart⟩ := pairwise_cons.1 untouching.2
    have ordered := curr.lo_le_hi
    have later := ih fitsRest ⟨(forall_mem_cons.1 untouching.1).2, apart⟩
    unfold rangeIsExcluded
    rw [mem_cover_cons]
    unfold MemoryRange.Has
    by_cases pre : addr < curr.baseAddress
    · rw [if_pos pre]
      change addr.toNat < curr.lo at pre
      refine ⟨fun bad => absurd bad Bool.false_ne_true, ?_⟩
      rintro (here | ⟨range, known, _, _⟩)
      · omega
      · have gap := behind _ known
        omega
    · rw [if_neg pre]
      change ¬ addr.toNat < curr.lo at pre
      by_cases inside : addr < curr.limit
      · rw [if_pos inside]
        rw [BitVec.lt_def, limit] at inside
        exact ⟨fun _ => .inl ⟨by omega, inside⟩, fun _ => rfl⟩
      · rw [if_neg inside, later]
        rw [BitVec.lt_def] at inside
        refine ⟨.inr, ?_⟩
        rintro (here | further)
        · omega
        · exact further

omit fits

/-- Every list is sorted by address and disjoint, and no limit wraps. -/
structure Inputs.WellFormed (inputs : Inputs) : Prop where
  ascending : ∀ list ∈ [inputs.moduleRanges, inputs.libsRanges, inputs.includeRanges,
    inputs.excludeRanges, inputs.jitRanges], Ascending list
  fits : ∀ list ∈ [inputs.moduleRanges, inputs.libsRanges, inputs.includeRanges,
    inputs.excludeRanges, inputs.jitRanges], ∀ range ∈ list, range.Fits

def Inputs.wanted (inputs : Inputs) : Set Nat :=
  ((cover inputs.moduleRanges ∩ cover inputs.libsRanges ∩
    (if inputs.includeRanges = [] then Set.univ else cover inputs.includeRanges)) \
      cover inputs.excludeRanges) \ cover inputs.jitRanges

def Inputs.considered (inputs : Inputs) : Set Nat :=
  if inputs.instDynamicLoad then cover inputs.moduleRanges
  else {addr | addr < 2 ^ 64 - 1}

theorem wholeMemory_fits : ∀ range ∈ wholeMemory, range.Fits := by
  intro range mem
  rw [mem_singleton.1 mem]
  exact Nat.lt_of_sub_eq_succ rfl

theorem wholeMemory_ascending : Ascending wholeMemory :=
  ⟨pairwise_singleton _ _, pairwise_singleton _ _⟩

theorem mem_cover_wholeMemory {addr : Nat} :
    addr ∈ cover wholeMemory ↔ addr < 2 ^ 64 - 1 := by
  unfold wholeMemory
  rw [mem_cover_cons]
  simp [MemoryRange.Has, MemoryRange.lo, MemoryRange.hi]

include fits in
private theorem cover_subset_wholeMemory :
    cover list ⊆ cover wholeMemory := by
  rintro addr ⟨range, known, _, _⟩
  rw [mem_cover_wholeMemory]
  have bound := fits _ known
  unfold MemoryRange.Fits at bound
  omega

section Inputs

variable {inputs : Inputs} (wellFormed : inputs.WellFormed)

include wellFormed

private theorem includes_fits :
    ∀ range ∈ includes inputs, range.Fits := by
  unfold includes
  split
  · exact wholeMemory_fits
  · exact wellFormed.fits inputs.includeRanges (by simp)

private theorem includes_ascending : Ascending (includes inputs) := by
  unfold includes
  split
  · exact wholeMemory_ascending
  · exact wellFormed.ascending inputs.includeRanges (by simp)

omit wellFormed

private theorem inter_includes {modules : Set Nat} (inside : modules ⊆ cover wholeMemory) :
    modules ∩ cover (includes inputs) = modules ∩
      (if inputs.includeRanges = [] then Set.univ else cover inputs.includeRanges) := by
  unfold includes
  by_cases none : inputs.includeRanges = []
  · rw [if_pos none, if_pos (length_eq_zero_iff.2 none), Set.inter_univ]
    exact Set.inter_eq_left.2 inside
  · rw [if_neg none, if_neg (fun empty => none (length_eq_zero_iff.1 empty))]

include wellFormed

private theorem instrumented_spec :
    let step4 := subtractRanges (subtractRanges (intersectRanges
      (intersectRanges inputs.moduleRanges inputs.libsRanges) (includes inputs))
        inputs.excludeRanges) inputs.jitRanges
    (∀ range ∈ step4, range.Fits) ∧ Separate step4 ∧ cover step4 = inputs.wanted := by
  have fitsModules := wellFormed.fits inputs.moduleRanges (by simp)
  have fitsLibs := wellFormed.fits inputs.libsRanges (by simp)
  have fitsExcludes := wellFormed.fits inputs.excludeRanges (by simp)
  have fitsJit := wellFormed.fits inputs.jitRanges (by simp)
  have modules := wellFormed.ascending inputs.moduleRanges (by simp)
  have libs := wellFormed.ascending inputs.libsRanges (by simp)
  have excludes := wellFormed.ascending inputs.excludeRanges (by simp)
  have jit := wellFormed.ascending inputs.jitRanges (by simp)
  have fitsIncludes := includes_fits wellFormed
  have included := includes_ascending wellFormed
  have fits1 := intersectRanges_fits fitsModules fitsLibs
  have separate1 := separate_intersectRanges fitsModules fitsLibs modules libs
  have fits2 := intersectRanges_fits fits1 fitsIncludes
  have separate2 := separate_intersectRanges fits1 fitsIncludes separate1.ascending included
  have fits3 := subtractRanges_fits fits2 fitsExcludes
  have separate3 := separate_subtractRanges fits2 fitsExcludes separate2.ascending
  refine ⟨subtractRanges_fits fits3 fitsJit,
    separate_subtractRanges fits3 fitsJit separate3.ascending, ?_⟩
  have inside := cover_subset_wholeMemory fits1
  rw [cover_intersectRanges fitsModules fitsLibs libs.sorted] at inside
  rw [cover_subtractRanges fits3 fitsJit jit.sorted,
    cover_subtractRanges fits2 fitsExcludes excludes.sorted,
    cover_intersectRanges fits1 fitsIncludes included.sorted,
    cover_intersectRanges fitsModules fitsLibs libs.sorted, inter_includes inside]
  rfl

private theorem rangesInit_spec :
    (∀ range ∈ rangesInit inputs, range.Fits) ∧ Untouching (rangesInit inputs) ∧
      cover (rangesInit inputs) = inputs.considered \ inputs.wanted := by
  obtain ⟨fits4, separate4, same4⟩ := instrumented_spec wellFormed
  have fitsModules := wellFormed.fits inputs.moduleRanges (by simp)
  have modules := wellFormed.ascending inputs.moduleRanges (by simp)
  have sorted4 := separate4.ascending.sorted
  unfold rangesInit Inputs.considered
  dsimp only
  by_cases dynamic : inputs.instDynamicLoad = true
  · rw [if_pos dynamic, if_pos dynamic]
    obtain ⟨fits, untouching, same⟩ := mergeRanges_spec
      (subtractRanges_fits fitsModules fits4) (separate_subtractRanges fitsModules fits4 modules)
    refine ⟨fits, untouching, same.trans ?_⟩
    rw [cover_subtractRanges fitsModules fits4 sorted4, same4]
  · rw [if_neg dynamic, if_neg dynamic]
    obtain ⟨fits, untouching, same⟩ := mergeRanges_spec (subtractRanges_fits wholeMemory_fits fits4)
      (separate_subtractRanges wholeMemory_fits fits4 wholeMemory_ascending)
    refine ⟨fits, untouching, same.trans ?_⟩
    rw [cover_subtractRanges wholeMemory_fits fits4 sorted4]
    congr 1
    ext addr
    exact mem_cover_wholeMemory

end Inputs

/-- For sorted disjoint lists of ranges whose limits do not wrap: the excluded addresses
are exactly those considered that are not to be instrumented, and the final list is
sorted and disjoint without ranges that touch. -/
theorem excluded_iff_not_wanted (inputs : Inputs) (wellFormed : inputs.WellFormed) :
    (∀ addr : BitVec 64, rangeIsExcluded addr (rangesInit inputs) = true ↔
      addr.toNat ∈ inputs.considered ∧ addr.toNat ∉ inputs.wanted) ∧
      (rangesInit inputs).Pairwise (fun a b => a.hi < b.lo) := by
  obtain ⟨fits, untouching, same⟩ := rangesInit_spec wellFormed
  refine ⟨?_, untouching.2⟩
  intro addr
  rw [rangeIsExcluded_iff fits untouching, same, Set.mem_sdiff]

def twoModules : Inputs where
  moduleRanges := [⟨0x1000, 0x3000⟩, ⟨0x8000, 0x1000⟩]
  libsRanges := [⟨0x2000, 0x1000⟩]
  includeRanges := []
  excludeRanges := [⟨0x2400, 0x100⟩]
  jitRanges := []
  instDynamicLoad := true

theorem twoModules_excluded :
    twoModules.WellFormed ∧ rangesInit twoModules =
        [⟨0x1000, 0x1000⟩, ⟨0x2400, 0x100⟩, ⟨0x3000, 0x1000⟩, ⟨0x8000, 0x1000⟩] ∧
      (rangesInit twoModules).Pairwise (fun a b => a.hi < b.lo) := by
  have wellFormed : twoModules.WellFormed := by
    constructor
    · intro list mem
      have separate : ∀ list ∈ [twoModules.moduleRanges, twoModules.libsRanges,
          twoModules.includeRanges, twoModules.excludeRanges, twoModules.jitRanges],
          (∀ range ∈ list, range.lo < range.hi) ∧
            list.Pairwise (fun a b => a.hi ≤ b.lo) := by decide
      exact Separate.ascending ⟨(separate list mem).1, (separate list mem).2⟩
    · decide
  exact ⟨wellFormed, by decide, (excluded_iff_not_wanted twoModules wellFormed).2⟩

end AflPlusPlus.Frida
