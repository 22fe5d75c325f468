/-
The address ranges that FRIDA mode does not instrument (`ranges.c`).

Lists of ranges are intersected and subtracted by nested scans that stop early,
merged, and searched by a scan that stops early.  On sorted disjoint lists whose
limits fit the address type the scans compute set algebra.
-/

import Mathlib
import AflPlusPlus.Machine.CountedLoop

namespace AflPlusPlus.Frida

open List

structure MemoryRange where
  baseAddress : BitVec 64
  size : BitVec 64
  deriving DecidableEq, Repr

def MemoryRange.limit (range : MemoryRange) : BitVec 64 := range.baseAddress + range.size

/-- No result: `ra` is before `rb`, and the function returns false. -/
def intersectRange (ra rb : MemoryRange) : Option MemoryRange :=
  if ra.limit < rb.baseAddress then none
  else if ra.baseAddress > rb.limit then some ⟨0, 0⟩
  else
    let rrb := if ra.baseAddress > rb.baseAddress then ra.baseAddress else rb.baseAddress
    let rrl := if ra.limit < rb.limit then ra.limit else rb.limit
    some ⟨rrb, rrl - rrb⟩

def intersectOne (ra : MemoryRange) : List MemoryRange → List MemoryRange
  | [] => []
  | rb :: rest =>
    match intersectRange ra rb with
    | none => []
    | some ri => if ri.size = 0 then intersectOne ra rest else ri :: intersectOne ra rest

def intersectRanges (a b : List MemoryRange) : List MemoryRange :=
  a.flatMap (fun ra => intersectOne ra b)

def remainder (ra : MemoryRange) : List MemoryRange := if ra.size ≠ 0 then [ra] else []

def subtractOne (ral : BitVec 64) (ra : MemoryRange) : List MemoryRange → List MemoryRange
  | [] => remainder ra
  | rb :: rest =>
    match intersectRange ra rb with
    | none => remainder ra
    | some ri =>
      if ri.size = 0 then subtractOne ral ra rest
      else
        let rs := if ra.baseAddress < ri.baseAddress then
          [⟨ra.baseAddress, ri.baseAddress - ra.baseAddress⟩] else []
        if ri.limit > ral then rs ++ remainder ⟨ral, 0⟩
        else rs ++ subtractOne ral ⟨ri.limit, ral - ri.limit⟩ rest

def subtractRanges (a b : List MemoryRange) : List MemoryRange :=
  a.flatMap (fun ra => subtractOne ra.limit ra b)

def mergeFrom (rp : MemoryRange) : List MemoryRange → List MemoryRange
  | [] => [rp]
  | r :: rest =>
    if rp.limit = r.baseAddress then mergeFrom ⟨rp.baseAddress, rp.size + r.size⟩ rest
    else rp :: mergeFrom r rest

def mergeRanges : List MemoryRange → List MemoryRange
  | [] => []
  | rp :: rest => mergeFrom rp rest

/-- From 0 over `G_MAXULONG` bytes. -/
def wholeMemory : List MemoryRange := [⟨0, BitVec.allOnes 64⟩]

structure Inputs where
  moduleRanges : List MemoryRange
  libsRanges : List MemoryRange
  includeRanges : List MemoryRange
  excludeRanges : List MemoryRange
  jitRanges : List MemoryRange
  instDynamicLoad : Bool

def includes (inputs : Inputs) : List MemoryRange :=
  if inputs.includeRanges.length = 0 then wholeMemory else inputs.includeRanges

def rangesInit (inputs : Inputs) : List MemoryRange :=
  let step1 := intersectRanges inputs.moduleRanges inputs.libsRanges
  let step2 := intersectRanges step1 (includes inputs)
  let step3 := subtractRanges step2 inputs.excludeRanges
  let step4 := subtractRanges step3 inputs.jitRanges
  let step5 := if inputs.instDynamicLoad then subtractRanges inputs.moduleRanges step4
    else subtractRanges wholeMemory step4
  mergeRanges step5

def rangeIsExcluded (addr : BitVec 64) : List MemoryRange → Bool
  | [] => false
  | curr :: rest =>
    if addr < curr.baseAddress then false
    else if addr < curr.limit then true
    else rangeIsExcluded addr rest

namespace MemoryRange

def lo (range : MemoryRange) : Nat := range.baseAddress.toNat

def hi (range : MemoryRange) : Nat := range.baseAddress.toNat + range.size.toNat

def Fits (range : MemoryRange) : Prop := range.hi < 2 ^ 64

instance (range : MemoryRange) : Decidable range.Fits :=
  inferInstanceAs (Decidable (range.hi < 2 ^ 64))

def Has (range : MemoryRange) (addr : Nat) : Prop := range.lo ≤ addr ∧ addr < range.hi

variable (range : MemoryRange)

theorem lo_le_hi : range.lo ≤ range.hi := Nat.le_add_right _ _

theorem toNat_limit {range : MemoryRange} (fits : range.Fits) : range.limit.toNat = range.hi := by
  exact Nat.mod_eq_of_lt fits

theorem size_eq_zero_iff : range.size = 0 ↔ range.hi ≤ range.lo := by
  unfold hi lo
  constructor
  · intro none
    rw [none]
    exact Nat.le_refl _
  · intro none
    apply BitVec.eq_of_toNat_eq
    change range.size.toNat = 0
    omega

end MemoryRange

def cover (list : List MemoryRange) : Set Nat := {addr | ∃ range ∈ list, range.Has addr}

@[simp] theorem cover_nil : cover [] = ∅ := by
  ext addr
  simp [cover]

variable {addr : Nat} {list : List MemoryRange} {ral : BitVec 64}

theorem mem_cover_cons {range : MemoryRange} {rest : List MemoryRange} :
    addr ∈ cover (range :: rest) ↔ range.Has addr ∨ addr ∈ cover rest := by
  simp [cover]

theorem mem_cover_flatMap {f : MemoryRange → List MemoryRange} :
    addr ∈ cover (list.flatMap f) ↔ ∃ range ∈ list, addr ∈ cover (f range) := by
  constructor
  · rintro ⟨part, mem, inside⟩
    obtain ⟨range, known, listed⟩ := mem_flatMap.1 mem
    exact ⟨range, known, part, listed, inside⟩
  · rintro ⟨range, known, part, listed, inside⟩
    exact ⟨part, mem_flatMap.2 ⟨range, known, listed⟩, inside⟩

variable (x : BitVec 64) {rb first : MemoryRange} (y : BitVec 64)

private theorem toNat_max : (if x > y then x else y).toNat = max x.toNat y.toNat := by
  split
  · next above =>
      rw [gt_iff_lt, BitVec.lt_def] at above
      omega
  · next below =>
      rw [gt_iff_lt, BitVec.lt_def] at below
      omega

private theorem toNat_min : (if x < y then x else y).toNat = min x.toNat y.toNat := by
  split
  · next below =>
      rw [BitVec.lt_def] at below
      omega
  · next above =>
      rw [BitVec.lt_def] at above
      omega

theorem between {low high : BitVec 64} (ordered : low ≤ high) :
    let range : MemoryRange := ⟨low, high - low⟩
    range.lo = low.toNat ∧ range.hi = high.toNat := by
  refine ⟨rfl, ?_⟩
  change low.toNat + (high - low).toNat = high.toNat
  rw [BitVec.toNat_sub_of_le ordered]
  exact Nat.add_sub_cancel' ordered

variable {ra : MemoryRange}

theorem intersectRange_spec (fitsA : ra.Fits) (fitsB : rb.Fits) :
    match intersectRange ra rb with
    | none => ra.hi < rb.lo
    | some ri => ri.Fits ∧ (ri.size = 0 ∧ min ra.hi rb.hi ≤ max ra.lo rb.lo ∨
          ri.size ≠ 0 ∧ ri.lo = max ra.lo rb.lo ∧ ri.hi = min ra.hi rb.hi) := by
  have limitA := MemoryRange.toNat_limit fitsA
  have limitB := MemoryRange.toNat_limit fitsB
  have orderedA := ra.lo_le_hi
  have orderedB := rb.lo_le_hi
  have baseA : ra.baseAddress.toNat = ra.lo := rfl
  have baseB : rb.baseAddress.toNat = rb.lo := rfl
  unfold intersectRange
  by_cases pre : ra.limit < rb.baseAddress
  · rw [if_pos pre]
    rw [BitVec.lt_def, limitA] at pre
    exact pre
  rw [if_neg pre]
  rw [BitVec.lt_def] at pre
  by_cases post : ra.baseAddress > rb.limit
  · rw [if_pos post]
    rw [gt_iff_lt, BitVec.lt_def] at post
    exact ⟨Nat.two_pow_pos 64, .inl ⟨rfl, by omega⟩⟩
  rw [if_neg post]
  rw [gt_iff_lt, BitVec.lt_def] at post
  generalize lowEq : (if ra.baseAddress > rb.baseAddress then ra.baseAddress
    else rb.baseAddress) = low
  generalize highEq : (if ra.limit < rb.limit then ra.limit else rb.limit) = high
  have lowNat : low.toNat = max ra.lo rb.lo := by
    rw [← lowEq]
    exact toNat_max _ _
  have highNat : high.toNat = min ra.hi rb.hi := by
    rw [← highEq, toNat_min, limitA, limitB]
  have ordered : low ≤ high := by
    rw [BitVec.le_def]
    omega
  obtain ⟨_, _⟩ := between ordered
  refine ⟨?_, ?_⟩
  · unfold MemoryRange.Fits
    omega
  · by_cases none : high - low = 0
    · refine .inl ⟨none, ?_⟩
      have empty := (MemoryRange.size_eq_zero_iff ⟨low, high - low⟩).1 none
      omega
    · exact .inr ⟨none, by omega, by omega⟩

structure Ascending (list : List MemoryRange) : Prop where
  sorted : list.Pairwise (fun a b => a.lo ≤ b.lo)
  disjoint : list.Pairwise (fun a b => ∀ addr, ¬(a.Has addr ∧ b.Has addr))

structure Separate (list : List MemoryRange) : Prop where
  nonempty : ∀ range ∈ list, range.lo < range.hi
  apart : list.Pairwise (fun a b => a.hi ≤ b.lo)

theorem Ascending.apart {second : MemoryRange} (ascending : Ascending (first :: list))
    (mem : second ∈ list) (some : second.lo < second.hi) : first.hi ≤ second.lo := by
  have sorted := (pairwise_cons.1 ascending.sorted).1 _ mem
  have disjoint := (pairwise_cons.1 ascending.disjoint).1 _ mem second.lo
  by_contra overlap
  exact disjoint ⟨⟨sorted, by omega⟩, Nat.le_refl _, some⟩

theorem Ascending.tail (ascending : Ascending (first :: list)) : Ascending list :=
  ⟨(pairwise_cons.1 ascending.sorted).2, (pairwise_cons.1 ascending.disjoint).2⟩

theorem Separate.ascending (separate : Separate list) :
    Ascending list where
  sorted := separate.apart.imp_of_mem (fun first _ apart =>
    Nat.le_trans (Nat.le_of_lt (separate.nonempty _ first)) apart)
  disjoint := separate.apart.imp (fun apart addr both => by
    have upper := both.1.2
    have lower := both.2.1
    omega)

theorem separate_flatMap {cut : MemoryRange → List MemoryRange} (ascending : Ascending list)
    (separate : ∀ range ∈ list, Separate (cut range))
    (within : ∀ range ∈ list, ∀ piece ∈ cut range, range.lo ≤ piece.lo ∧ piece.hi ≤ range.hi) :
    Separate (list.flatMap cut) where
  nonempty := by
    intro piece mem
    obtain ⟨range, known, listed⟩ := mem_flatMap.1 mem
    exact (separate _ known).nonempty _ listed
  apart := by
    rw [pairwise_flatMap]
    refine ⟨fun range known => (separate _ known).apart, ?_⟩
    induction list with
    | nil => exact List.Pairwise.nil
    | cons first rest ih =>
      refine pairwise_cons.2 ⟨?_, ih ascending.tail
        (fun range known => separate _ (mem_cons_of_mem _ known))
        (fun range known => within _ (mem_cons_of_mem _ known))⟩
      intro second mem early cutEarly late cutLate
      have someLate := (separate _ (mem_cons_of_mem _ mem)).nonempty _ cutLate
      have inEarly := within _ mem_cons_self _ cutEarly
      have inLate := within _ (mem_cons_of_mem _ mem) _ cutLate
      have apart := ascending.apart mem (by omega)
      omega

section Intersection

variable {ra : MemoryRange}

section

variable (fits : ra.Fits) {b : List MemoryRange} (fitsB : ∀ rb ∈ b, rb.Fits)
include fits fitsB

theorem intersectOne_fits {ri : MemoryRange} (mem : ri ∈ intersectOne ra b) :
    ri.Fits ∧ ri.lo < ri.hi ∧ ∃ rb ∈ b, ri.lo = max ra.lo rb.lo ∧ ri.hi = min ra.hi rb.hi := by
  induction b with
  | nil => cases mem
  | cons rb rest ih =>
    obtain ⟨fitsRb, fitsRest⟩ := forall_mem_cons.1 fitsB
    have later := ih fitsRest
    have spec := intersectRange_spec fits fitsRb
    unfold intersectOne at mem
    cases found : intersectRange ra rb with
    | none =>
      rw [found] at mem
      cases mem
    | some common =>
      rw [found] at mem spec
      obtain ⟨fitsCommon, part⟩ := spec
      have deeper : ri ∈ intersectOne ra rest → ri.Fits ∧ ri.lo < ri.hi ∧
          ∃ range ∈ rb :: rest, ri.lo = max ra.lo range.lo ∧ ri.hi = min ra.hi range.hi := by
        intro listed
        obtain ⟨fitsRi, some, range, known, ends⟩ := later listed
        exact ⟨fitsRi, some, range, mem_cons_of_mem _ known, ends⟩
      dsimp only at mem
      by_cases none : common.size = 0
      · rw [if_pos none] at mem
        exact deeper mem
      · rw [if_neg none] at mem
        rcases mem_cons.1 mem with rfl | listed
        · have ends := part.resolve_left (fun empty => none empty.1)
          have some := mt (MemoryRange.size_eq_zero_iff ri).2 none
          exact ⟨fitsCommon, by omega, rb, mem_cons_self, ends.2⟩
        · exact deeper listed

/-- The scan may stop at a range behind `ra`: all later ones are behind it too. -/
private theorem mem_cover_intersectOne (sorted : b.Pairwise (fun x y => x.lo ≤ y.lo)) :
    addr ∈ cover (intersectOne ra b) ↔ ra.Has addr ∧ addr ∈ cover b := by
  induction b with
  | nil => simp [intersectOne]
  | cons rb rest ih =>
    obtain ⟨fitsRb, fitsRest⟩ := forall_mem_cons.1 fitsB
    obtain ⟨behindRb, sortedRest⟩ := pairwise_cons.1 sorted
    have later := ih fitsRest sortedRest
    have spec := intersectRange_spec fits fitsRb
    unfold intersectOne
    rw [mem_cover_cons]
    cases found : intersectRange ra rb with
    | none =>
      rw [found] at spec
      rw [cover_nil]
      refine ⟨False.elim, ?_⟩
      rintro ⟨here, ⟨low, _⟩ | ⟨range, known, low, _⟩⟩
      · have upper := here.2
        omega
      · have behind := behindRb range known
        have upper := here.2
        omega
    | some common =>
      rw [found] at spec
      obtain ⟨_, part⟩ := spec
      dsimp only
      by_cases none : common.size = 0
      · have empty := (part.resolve_right (fun some => some.1 none)).2
        rw [if_pos none, later]
        refine ⟨fun both => ⟨both.1, .inr both.2⟩, ?_⟩
        rintro ⟨here, there | further⟩
        · have bounds := here
          unfold MemoryRange.Has at bounds there
          omega
        · exact ⟨here, further⟩
      · have ends := (part.resolve_left (fun empty => none empty.1)).2
        rw [if_neg none, mem_cover_cons]
        have meet : common.Has addr ↔ ra.Has addr ∧ rb.Has addr := by
          unfold MemoryRange.Has
          omega
        tauto

private theorem separate_intersectOne (ascending : Ascending b) : Separate (intersectOne ra b) where
  nonempty := fun ri mem => (intersectOne_fits fits fitsB mem).2.1
  apart := by
    induction b with
    | nil => exact List.Pairwise.nil
    | cons rb rest ih =>
      obtain ⟨fitsRb, fitsRest⟩ := forall_mem_cons.1 fitsB
      have later := ih fitsRest ascending.tail
      have spec := intersectRange_spec fits fitsRb
      unfold intersectOne
      cases found : intersectRange ra rb with
      | none => exact List.Pairwise.nil
      | some common =>
        rw [found] at spec
        dsimp only at spec ⊢
        by_cases none : common.size = 0
        · rw [if_pos none]
          exact later
        · have ends := (spec.2.resolve_left (fun empty => none empty.1)).2
          rw [if_neg none]
          refine pairwise_cons.2 ⟨?_, later⟩
          intro ri mem
          obtain ⟨_, some, _, known, _, _⟩ := intersectOne_fits fits fitsRest mem
          have apart := ascending.apart known (by omega)
          omega

end

end Intersection

variable {a b : List MemoryRange}

section

variable (fitsA : ∀ ra ∈ a, ra.Fits) (fitsB : ∀ rb ∈ b, rb.Fits)
include fitsA fitsB

theorem cover_intersectRanges (sorted : b.Pairwise (fun x y => x.lo ≤ y.lo)) :
    cover (intersectRanges a b) = cover a ∩ cover b := by
  ext addr
  unfold intersectRanges
  rw [mem_cover_flatMap]
  constructor
  · rintro ⟨ra, known, covered⟩
    obtain ⟨here, there⟩ := (mem_cover_intersectOne (fitsA ra known) fitsB sorted).1 covered
    exact ⟨⟨ra, known, here⟩, there⟩
  · rintro ⟨⟨ra, known, here⟩, there⟩
    exact ⟨ra, known, (mem_cover_intersectOne (fitsA ra known) fitsB sorted).2 ⟨here, there⟩⟩

theorem intersectRanges_fits : ∀ ri ∈ intersectRanges a b, ri.Fits := by
  intro ri mem
  obtain ⟨ra, known, listed⟩ := mem_flatMap.1 mem
  exact (intersectOne_fits (fitsA ra known) fitsB listed).1

theorem separate_intersectRanges (ascendingA : Ascending a) (ascendingB : Ascending b) :
    Separate (intersectRanges a b) := by
  refine separate_flatMap ascendingA
    (fun ra known => separate_intersectOne (fitsA ra known) fitsB ascendingB) ?_
  intro ra known ri listed
  obtain ⟨_, _, _, _, _, _⟩ := intersectOne_fits (fitsA ra known) fitsB listed
  omega

end

private theorem remainder_spec {piece : MemoryRange} (mem : piece ∈ remainder ra) :
    piece = ra ∧ ra.lo < ra.hi := by
  unfold remainder at mem
  split at mem
  · next some =>
      have filled := mt (MemoryRange.size_eq_zero_iff ra).2 some
      exact ⟨mem_singleton.1 mem, by omega⟩
  · cases mem

private theorem remainder_within (fits : ra.Fits) :
    Separate (remainder ra) ∧
      ∀ piece ∈ remainder ra, piece.Fits ∧ ra.lo ≤ piece.lo ∧ piece.hi ≤ ra.hi := by
  refine ⟨⟨?_, ?_⟩, ?_⟩
  · intro piece mem
    obtain ⟨rfl, some⟩ := remainder_spec mem
    exact some
  · unfold remainder
    split
    · exact pairwise_singleton _ _
    · exact List.Pairwise.nil
  · intro piece mem
    obtain ⟨rfl, _⟩ := remainder_spec mem
    exact ⟨fits, Nat.le_refl _, Nat.le_refl _⟩

theorem mem_cover_remainder : addr ∈ cover (remainder ra) ↔ ra.Has addr := by
  unfold remainder
  split
  · simp [cover]
  · next none =>
      have empty := (MemoryRange.size_eq_zero_iff ra).1 (not_not.1 none)
      rw [cover_nil]
      refine ⟨False.elim, ?_⟩
      intro inside
      unfold MemoryRange.Has at inside
      omega

/-- One round of the inner loop: it ends, or passes over `rb`, or keeps what is before
`rb` and goes on behind it.  The test for a common part that extends past the range
never succeeds. -/
inductive Round (ral : BitVec 64) (ra rb : MemoryRange) (rest : List MemoryRange) :
    List MemoryRange → Prop
  | ends (pre : ra.hi < rb.lo) : Round ral ra rb rest (remainder ra)
  | passes (apart : min ra.hi rb.hi ≤ max ra.lo rb.lo) :
      Round ral ra rb rest (subtractOne ral ra rest)
  | cuts {rs behind : MemoryRange} (overlap : max ra.lo rb.lo < min ra.hi rb.hi)
      (starts : ra.lo < rb.lo) (fitsKept : rs.Fits) (keptLo : rs.lo = ra.lo)
      (keptHi : rs.hi = rb.lo) (fits : behind.Fits) (lo : behind.lo = min ra.hi rb.hi)
      (hi : behind.hi = ra.hi) : Round ral ra rb rest (rs :: subtractOne ral behind rest)
  | moves {behind : MemoryRange} (overlap : max ra.lo rb.lo < min ra.hi rb.hi)
      (starts : rb.lo ≤ ra.lo) (fits : behind.Fits) (lo : behind.lo = min ra.hi rb.hi)
      (hi : behind.hi = ra.hi) : Round ral ra rb rest (subtractOne ral behind rest)

theorem subtractOne_round (rest : List MemoryRange) (fits : ra.Fits) (fitsB : rb.Fits)
    (limit : ral.toNat = ra.hi) : Round ral ra rb rest (subtractOne ral ra (rb :: rest)) := by
  have spec := intersectRange_spec fits fitsB
  unfold subtractOne
  cases found : intersectRange ra rb with
  | none =>
    rw [found] at spec
    exact .ends spec
  | some ri =>
    rw [found] at spec
    obtain ⟨fitsRi, ⟨none, apart⟩ | ⟨some, _, _⟩⟩ := spec
    · dsimp only
      rw [if_pos none]
      exact .passes apart
    · have filled := mt (MemoryRange.size_eq_zero_iff ri).2 some
      have overlap : max ra.lo rb.lo < min ra.hi rb.hi := by omega
      have limitRi := MemoryRange.toNat_limit fitsRi
      have inside : ri.limit ≤ ral := by
        rw [BitVec.le_def]
        omega
      obtain ⟨_, behindHi⟩ := between inside
      have never : ¬ ri.limit > ral := by
        rw [BitVec.not_lt]
        exact inside
      have fitsBehind : MemoryRange.Fits ⟨ri.limit, ral - ri.limit⟩ := by
        unfold MemoryRange.Fits
        rw [behindHi]
        exact ral.isLt
      dsimp only
      rw [if_neg some, if_neg never]
      by_cases starts : ra.baseAddress < ri.baseAddress
      · rw [if_pos starts]
        obtain ⟨keptLo, keptHi⟩ := between (BitVec.le_of_lt starts)
        change ra.lo < ri.lo at starts
        change _ = ri.lo at keptHi
        refine .cuts overlap (by omega) ?_ keptLo (by omega) fitsBehind (by omega) (by omega)
        unfold MemoryRange.Fits at fitsRi ⊢
        omega
      · rw [if_neg starts]
        change ¬ ra.lo < ri.lo at starts
        exact .moves overlap (by omega) fitsBehind (by omega) (by omega)

private theorem mem_cover_subtractOne (fits : ra.Fits) (fitsB : ∀ rb ∈ b, rb.Fits)
    (limit : ral.toNat = ra.hi) (sorted : b.Pairwise (fun x y => x.lo ≤ y.lo)) :
    addr ∈ cover (subtractOne ral ra b) ↔ ra.Has addr ∧ addr ∉ cover b := by
  induction b generalizing ra with
  | nil => simp [subtractOne, mem_cover_remainder]
  | cons rb rest ih =>
    obtain ⟨fitsRb, fitsRest⟩ := forall_mem_cons.1 fitsB
    obtain ⟨behindRb, sortedRest⟩ := pairwise_cons.1 sorted
    -- whatever is covered by a later range is not before `rb`
    have later : addr ∈ cover rest → rb.lo ≤ addr := by
      rintro ⟨_, known, low, _⟩
      exact Nat.le_trans (behindRb _ known) low
    rw [mem_cover_cons]
    have round := subtractOne_round rest fits fitsRb limit
    generalize subtractOne ral ra (rb :: rest) = pieces at round ⊢
    cases round with
    | ends pre =>
      rw [mem_cover_remainder]
      refine ⟨fun here => ⟨here, ?_⟩, And.left⟩
      rintro (there | further)
      · unfold MemoryRange.Has at here there
        omega
      · have low := later further
        unfold MemoryRange.Has at here
        omega
    | passes apart =>
      rw [ih fits fitsRest limit sortedRest, not_or]
      constructor
      · rintro ⟨here, absent⟩
        refine ⟨here, ?_, absent⟩
        intro there
        unfold MemoryRange.Has at here there
        omega
      · rintro ⟨here, _, absent⟩
        exact ⟨here, absent⟩
    | cuts overlap starts fitsKept keptLo keptHi fitsBehind lo hi =>
      rw [mem_cover_cons, ih fitsBehind fitsRest (limit.trans hi.symm) sortedRest, not_or]
      unfold MemoryRange.Has
      by_cases further : addr ∈ cover rest
      · have low := later further
        simp only [further, not_true_eq_false, and_false, or_false, iff_false]
        omega
      · simp only [further, not_false_eq_true, and_true]
        omega
    | moves overlap starts fitsBehind lo hi =>
      rw [ih fitsBehind fitsRest (limit.trans hi.symm) sortedRest, not_or]
      unfold MemoryRange.Has
      by_cases further : addr ∈ cover rest
      · simp [further]
      · simp only [further, not_false_eq_true, and_true]
        omega

theorem subtractOne_within (fits : ra.Fits) (fitsB : ∀ rb ∈ b, rb.Fits)
    (limit : ral.toNat = ra.hi) :
    Separate (subtractOne ral ra b) ∧
      ∀ piece ∈ subtractOne ral ra b, piece.Fits ∧ ra.lo ≤ piece.lo ∧ piece.hi ≤ ra.hi := by
  induction b generalizing ra with
  | nil => exact remainder_within fits
  | cons rb rest ih =>
    obtain ⟨fitsRb, fitsRest⟩ := forall_mem_cons.1 fitsB
    have round := subtractOne_round rest fits fitsRb limit
    generalize subtractOne ral ra (rb :: rest) = pieces at round ⊢
    cases round with
    | ends pre => exact remainder_within fits
    | passes apart => exact ih fits fitsRest limit
    | @cuts rs behind overlap starts fitsKept keptLo keptHi fitsBehind lo hi =>
      obtain ⟨separate, within⟩ := ih fitsBehind fitsRest (limit.trans hi.symm)
      refine ⟨⟨?_, pairwise_cons.2 ⟨?_, separate.apart⟩⟩, ?_⟩
      · intro piece mem
        rcases mem_cons.1 mem with rfl | listed
        · omega
        · exact separate.nonempty _ listed
      · intro piece listed
        have bounds := within _ listed
        omega
      · intro piece mem
        rcases mem_cons.1 mem with rfl | listed
        · exact ⟨fitsKept, by omega, by omega⟩
        · have bounds := within _ listed
          exact ⟨bounds.1, by omega, by omega⟩
    | moves overlap starts fitsBehind lo hi =>
      obtain ⟨separate, within⟩ := ih fitsBehind fitsRest (limit.trans hi.symm)
      refine ⟨separate, ?_⟩
      intro piece listed
      have bounds := within _ listed
      exact ⟨bounds.1, by omega, by omega⟩

section Subtraction

variable {a b : List MemoryRange} (fitsA : ∀ ra ∈ a, ra.Fits) (fitsB : ∀ rb ∈ b, rb.Fits)

include fitsA fitsB

theorem cover_subtractRanges (sorted : b.Pairwise (fun x y => x.lo ≤ y.lo)) :
    cover (subtractRanges a b) = cover a \ cover b := by
  ext addr
  unfold subtractRanges
  rw [mem_cover_flatMap]
  constructor
  · rintro ⟨ra, known, covered⟩
    have limit := MemoryRange.toNat_limit (fitsA ra known)
    obtain ⟨here, none⟩ := (mem_cover_subtractOne (fitsA ra known) fitsB limit sorted).1 covered
    exact ⟨⟨ra, known, here⟩, none⟩
  · rintro ⟨⟨ra, known, here⟩, none⟩
    have limit := MemoryRange.toNat_limit (fitsA ra known)
    exact ⟨ra, known, (mem_cover_subtractOne (fitsA ra known) fitsB limit sorted).2 ⟨here, none⟩⟩

theorem subtractRanges_fits : ∀ piece ∈ subtractRanges a b, piece.Fits := by
  intro piece mem
  obtain ⟨ra, known, listed⟩ := mem_flatMap.1 mem
  have limit := MemoryRange.toNat_limit (fitsA ra known)
  exact ((subtractOne_within (fitsA ra known) fitsB limit).2 _ listed).1

theorem separate_subtractRanges (ascending : Ascending a) : Separate (subtractRanges a b) := by
  refine separate_flatMap ascending ?_ ?_
  · intro ra known
    have limit := MemoryRange.toNat_limit (fitsA ra known)
    exact (subtractOne_within (fitsA ra known) fitsB limit).1
  · intro ra known piece listed
    have limit := MemoryRange.toNat_limit (fitsA ra known)
    exact ((subtractOne_within (fitsA ra known) fitsB limit).2 _ listed).2

end Subtraction

end AflPlusPlus.Frida
