/-
What the oracle says about a store.

A store into a block that has a record and lies in one window is checked against that
block.  A store into another block is checked against a neighbour that has granules next
to it, if there is one.
-/

import AflPlusPlus.AllocHistory

namespace AflPlusPlus.AllocOracle

open Machine List

variable {t : Tracker} {w : World}

variable {a window i g off : Nat} {block : Block}

theorem covers_iff_granules (index : i ∈ recordIndices) :
    t.Covers i (window, g) ↔ ∃ extent, t.recordGranules (t.records i) = some extent ∧
        extent.window = window ∧ extent.start ≤ g ∧ g < extent.stop := by
  constructor
  · rintro ⟨-, used, some, extent, measured, same, inside⟩
    exact ⟨extent, recordGranules_eq_some.2 ⟨used, some, measured⟩, same.symm, inside⟩
  · rintro ⟨extent, granules, rfl, inside⟩
    obtain ⟨used, some, measured⟩ := recordGranules_eq_some.1 granules
    exact ⟨index, used, some, extent, measured, rfl, inside⟩

variable (rest : List Nat)

theorem scan_cons_of_covers (best : Option Nat) (covers : t.Covers i (window, g)) :
    t.scan a window g (i :: rest) best =
      if (t.records i).contains a then some i
      else if a ≥ (t.records i).base ∧
          best.all (fun b => (t.records i).base > (t.records b).base) then
        t.scan a window g rest (some i)
      else t.scan a window g rest best := by
  obtain ⟨_, granules, rfl, _, _⟩ := (covers_iff_granules covers.1).1 covers
  rw [Tracker.scan, granules]
  dsimp only
  rw [if_neg (not_not_intro rfl), if_neg (by omega)]

theorem scan_cons_of_not_covers (best : Option Nat) (index : i ∈ recordIndices)
    (free : ¬ t.Covers i (window, g)) :
    t.scan a window g (i :: rest) best = t.scan a window g rest best := by
  rw [covers_iff_granules index] at free
  rw [Tracker.scan]
  cases granules : t.recordGranules (t.records i) with
  | none => rfl
  | some extent =>
    dsimp only
    split
    · rfl
    case isFalse same =>
      rw [if_pos]
      by_contra inside
      exact free ⟨extent, granules, not_not.1 same, by omega, by omega⟩

variable (indices : List Nat)

private theorem scan_contains (best : Option Nat) (inside : ∀ i ∈ indices, i ∈ recordIndices)
    (mem : i ∈ indices) (covers : t.Covers i (window, g))
    (contains : (t.records i).contains a = true) :
    ∃ j ∈ recordIndices, t.scan a window g indices best = some j ∧
      (t.records j).contains a = true := by
  induction indices generalizing best with
  | nil => cases mem
  | cons first rest ih =>
    have index := inside _ mem_cons_self
    have later := fun j present => inside j (mem_cons_of_mem _ present)
    by_cases here : t.Covers first (window, g)
    · rw [scan_cons_of_covers _ _ here]
      by_cases holds : (t.records first).contains a = true
      · rw [if_pos holds]
        exact ⟨first, index, rfl, holds⟩
      · have behind : i ∈ rest := by
          rcases mem_cons.1 mem with rfl | behind
          · exact absurd contains holds
          · exact behind
        rw [if_neg holds]
        split <;> exact ih _ later behind
    · have behind : i ∈ rest := by
        rcases mem_cons.1 mem with rfl | behind
        · exact absurd covers here
        · exact behind
      rw [scan_cons_of_not_covers _ _ index here]
      exact ih _ later behind

/-- What the loop may return when no record contains the address. -/
def Lower (t : Tracker) (a window g : Nat) (i : Nat) : Prop :=
  t.Covers i (window, g) ∧ (t.records i).base ≤ a

private theorem scan_lower (best : Option Nat) (inside : ∀ i ∈ indices, i ∈ recordIndices)
    (none_ : ∀ i, t.Covers i (window, g) → (t.records i).contains a = false)
    (lower : ∀ i ∈ best, Lower t a window g i) :
    (∀ i ∈ t.scan a window g indices best, Lower t a window g i) ∧
      ((best.isSome ∨ ∃ i ∈ indices, Lower t a window g i) →
        (t.scan a window g indices best).isSome) := by
  induction indices generalizing best with
  | nil =>
    refine ⟨lower, ?_⟩
    rintro (present | ⟨i, mem, -⟩)
    · exact present
    · cases mem
  | cons first rest ih =>
    have index := inside _ mem_cons_self
    have later := fun j present => inside j (mem_cons_of_mem _ present)
    by_cases here : t.Covers first (window, g)
    · rw [scan_cons_of_covers _ _ here, none_ _ here, if_neg Bool.false_ne_true]
      split
      case isTrue better =>
        have own : Lower t a window g first := ⟨here, better.1⟩
        obtain ⟨sound, found⟩ := ih (some first) later (by
          intro i same
          rw [← Option.some.inj same]
          exact own)
        exact ⟨sound, fun _ => found (.inl rfl)⟩
      case isFalse worse =>
        obtain ⟨sound, found⟩ := ih best later lower
        refine ⟨sound, ?_⟩
        rintro (present | ⟨i, mem, low⟩)
        · exact found (.inl present)
        · rcases mem_cons.1 mem with rfl | behind
          · -- it was passed over for a better one
            cases best with
            | none => exact absurd ⟨low.2, rfl⟩ worse
            | some held => exact found (.inl rfl)
          · exact found (.inr ⟨i, behind, low⟩)
    · rw [scan_cons_of_not_covers _ _ index here]
      obtain ⟨sound, found⟩ := ih best later lower
      refine ⟨sound, ?_⟩
      rintro (present | ⟨i, mem, low⟩)
      · exact found (.inl present)
      · rcases mem_cons.1 mem with rfl | behind
        · exact absurd low.1 here
        · exact found (.inr ⟨i, behind, low⟩)

theorem contains_iff {record : Record} :
    record.contains a = true ↔
      record.inUse = true ∧ record.base ≤ a ∧ a < record.base + record.size := by
  simp only [Record.contains, Bool.and_eq_true, decide_eq_true_eq, and_assoc]
  refine and_congr_right fun _ => and_congr_right fun from_ => ?_
  omega

variable {j : Nat} (consistent : Consistent w)

include consistent

private theorem Consistent.contains_unique {i a : Nat}
    (index : i ∈ recordIndices) (other : j ∈ recordIndices)
    (first : (w.tracker.records i).contains a = true)
    (second : (w.tracker.records j).contains a = true) : i = j := by
  obtain ⟨usedI, _, _⟩ := contains_iff.1 first
  obtain ⟨usedJ, _, _⟩ := contains_iff.1 second
  refine consistent.unique i index j other usedI usedJ ?_
  by_contra bases
  have ne : (w.tracker.records i).block ≠ (w.tracker.records j).block :=
    fun same => bases (congrArg Block.base same)
  have apart := (consistent.disjoint (consistent.owned i index usedI).1
    (consistent.owned j other usedJ).1 ne).2
  simp only [Record.block] at apart
  omega

theorem Consistent.findOracleRecord_eq (covers : w.tracker.Covers i (window, off / granuleBytes))
    (contains : (w.tracker.records i).contains a = true) (idx : Nat) :
    w.tracker.findOracleRecord a window off idx = some i := by
  unfold Tracker.findOracleRecord
  split
  case isTrue fast =>
    obtain ⟨pos, below, holds⟩ := fast
    have index := mem_recordIndices.2 ⟨Nat.pos_of_ne_zero pos, below⟩
    rw [consistent.contains_unique index covers.1 holds contains]
  case isFalse slow =>
    obtain ⟨j, index, found, holds⟩ := scan_contains recordIndices none (fun _ mem => mem)
      covers.1 covers contains
    rw [found, consistent.contains_unique index covers.1 holds contains]

theorem Consistent.findOracleRecord_lower
    (named : w.tracker.value (window, off / granuleBytes) ≠ 0) :
    let found := w.tracker.findOracleRecord a window off
      (w.tracker.value (window, off / granuleBytes))
    (∀ i ∈ found, Lower w.tracker a window (off / granuleBytes) i) ∧
      ((∃ i, Lower w.tracker a window (off / granuleBytes) i) → found.isSome) := by
  by_cases owner : ∃ i, w.tracker.Covers i (window, off / granuleBytes) ∧
      (w.tracker.records i).contains a = true
  · obtain ⟨i, covers, contains⟩ := owner
    rw [consistent.findOracleRecord_eq covers contains]
    refine ⟨?_, fun _ => rfl⟩
    intro j same
    rw [← Option.some.inj same]
    exact ⟨covers, (contains_iff.1 contains).2.1⟩
  · have none_ (i : Nat) (covers : w.tracker.Covers i (window, off / granuleBytes)) :
        (w.tracker.records i).contains a = false :=
      Bool.eq_false_iff.2 fun contains => owner ⟨i, covers, contains⟩
    have missed := none_ _ (consistent.ok.painted.sound _ named)
    obtain ⟨sound, found⟩ := scan_lower recordIndices none (fun _ mem => mem) none_
      (fun i present => by cases present)
    unfold Tracker.findOracleRecord
    rw [missed, if_neg (by simp)]
    refine ⟨sound, ?_⟩
    rintro ⟨i, low⟩
    exact found (.inr ⟨i, low.1.1, low⟩)

omit consistent

def Tracked (t : Tracker) (block : Block) : Prop :=
  ∃ i ∈ recordIndices, (t.records i).inUse = true ∧ (t.records i).block = block ∧
    (t.extent block.base block.size).isSome

/-- The block has bytes among the `len` bytes from `start`. -/
def Block.Overlaps (block : Block) (start len : Nat) : Prop :=
  block.base < start + len ∧ start < block.base + block.size

theorem tracked_room (aligned : Aligned t.windows) {block : Block}
    (measured : (t.extent block.base block.size).isSome) :
    block.base % trackedRange + block.size ≤ trackedRange ∧
      ∃ window : Nat, (t.windows.map Window.origin)[window]? = some (home block.base) := by
  obtain ⟨extent, measured⟩ := Option.isSome_iff_exists.1 measured
  obtain ⟨-, _, found, room, -, -⟩ := extent_eq_some measured
  obtain ⟨rfl, starts⟩ := find_origin aligned found
  exact ⟨room, extent.window, starts⟩

theorem home_eq_of_overlaps {origin g : Nat} (start : trackedRange ∣ origin)
    (below : g < granuleCount) (room : block.base % trackedRange + block.size ≤ trackedRange)
    (overlaps : block.Overlaps (origin + granuleBytes * g) granuleBytes) :
    home block.base = origin := by
  obtain ⟨_, _⟩ := overlaps
  unfold home trackedRange granuleBytes granuleCount at *
  omega

theorem covers_of_overlaps (aligned : Aligned t.windows) {i window g origin : Nat}
    (index : i ∈ recordIndices) (used : (t.records i).inUse = true)
    (nonempty : (t.records i).size ≠ 0)
    (measured : (t.extent (t.records i).base (t.records i).size).isSome)
    (starts : (t.windows.map Window.origin)[window]? = some origin)
    (below : g < granuleCount)
    (overlaps : (t.records i).block.Overlaps (origin + granuleBytes * g) granuleBytes) :
    t.Covers i (window, g) := by
  obtain ⟨room, -⟩ := @tracked_room _ aligned (t.records i).block measured
  obtain ⟨_, mem, rfl⟩ := mem_map.1 (mem_of_getElem? starts)
  have same := home_eq_of_overlaps (aligned.aligned _ mem) below room overlaps
  rw [← same] at starts overlaps
  exact ⟨index, used, nonempty, spans_of_bytes aligned nonempty room starts overlaps.1 overlaps.2⟩

/-- The block is tracked and has bytes in the granule of the address. -/
def Touches (t : Tracker) (a : Nat) (block : Block) : Prop :=
  Tracked t block ∧ block.Overlaps (a / granuleBytes * granuleBytes) granuleBytes

theorem granule_start (a : Nat) :
    home a + granuleBytes * (a % trackedRange / granuleBytes) =
      a / granuleBytes * granuleBytes := by
  unfold home trackedRange granuleBytes
  omega

private theorem granule_lt (a : Nat) : a % trackedRange / granuleBytes < granuleCount := by
  unfold trackedRange granuleBytes granuleCount
  omega

theorem touches_of_covers (aligned : Aligned t.windows) {a window off : Nat}
    (found : t.find a = some (window, off))
    (covers : t.Covers j (window, off / granuleBytes)) :
    Touches t a (t.records j).block := by
  obtain ⟨index, used, -, spans⟩ := covers
  obtain ⟨rfl, starts⟩ := find_origin aligned found
  obtain ⟨from_, below⟩ := spans_bytes aligned spans starts
  rw [granule_start] at from_ below
  obtain ⟨extent, measured, -⟩ := spans
  exact ⟨⟨j, index, used, rfl, Option.isSome_iff_exists.2 ⟨extent, measured⟩⟩, from_, below⟩

include consistent in
theorem Consistent.covers_of_touches (touches : Touches w.tracker a block) :
    ∃ window j, w.tracker.find a = some (window, a % trackedRange) ∧
      w.tracker.Covers j (window, a % trackedRange / granuleBytes) ∧
      (w.tracker.records j).block = block := by
  obtain ⟨⟨j, index, used, rfl, measured⟩, overlaps⟩ := touches
  have aligned := consistent.ok.windows
  obtain ⟨room, window, starts⟩ := tracked_room aligned measured
  rw [← granule_start] at overlaps
  have same := home_eq_of_overlaps ⟨a / trackedRange, Nat.mul_comm _ _⟩ (granule_lt a) room overlaps
  rw [same] at starts
  exact ⟨window, j, find_at aligned starts,
    covers_of_overlaps aligned index used (consistent.owned j index used).2 measured starts
      (granule_lt a) overlaps, rfl⟩

private theorem overlaps_of_inside (from_ : block.base ≤ a) (below : a < block.base + block.size) :
    block.Overlaps (a / granuleBytes * granuleBytes) granuleBytes := by
  unfold Block.Overlaps granuleBytes
  omega

include consistent in
theorem Consistent.oracleRecord_tracked (tracked : Tracked w.tracker block) (from_ : block.base ≤ a)
    (below : a < block.base + block.size) :
    ∃ i, w.tracker.oracleRecord a = some i ∧ (w.tracker.records i).block = block := by
  obtain ⟨_, i, found, covers, rfl⟩ := consistent.covers_of_touches
    ⟨tracked, overlaps_of_inside from_ below⟩
  have contains : (w.tracker.records i).contains a = true :=
    contains_iff.2 ⟨covers.2.1, from_, below⟩
  have painted := consistent.ok.painted.complete i _ covers
  refine ⟨i, ?_, rfl⟩
  unfold Tracker.oracleRecord
  rw [found]
  dsimp only
  rw [if_pos painted]
  exact consistent.findOracleRecord_eq covers contains _

theorem oracle_reports (found : t.oracleRecord a = some i) (size : Nat) :
    let record := t.records i
    (t.oracle a size).2 =
      if a ≥ record.stop ∨ storeBytes size > record.stop - a then
        some ⟨storeBytes size, a, record.base, record.stop, record.size, record.allocSiteId,
          a - record.base⟩
      else none := by
  unfold Tracker.oracle
  rw [found]
  dsimp only
  split <;> rfl

theorem storeBytes_pos (size : Nat) : 0 < storeBytes size := by
  unfold storeBytes
  split <;> omega

theorem stop_le (record : Record) : record.stop ≤ record.base + record.size :=
  Nat.mod_le _ _

variable {ptr : Nat}

include consistent in
private theorem Consistent.oracle_tracked (live : block ∈ w.live)
    (tracked : Tracked w.tracker block) {size : Nat} (from_ : block.base ≤ ptr)
    (until_ : ptr + storeBytes size ≤ block.base + block.size) :
    (w.tracker.oracle ptr size).2 = none ↔ block.base + block.size < 2 ^ 64 := by
  have pos := storeBytes_pos size
  obtain ⟨i, found, rfl⟩ := consistent.oracleRecord_tracked tracked from_ (by omega)
  have valid := (consistent.valid _ live).2
  rw [oracle_reports found]
  dsimp only [Record.block] at *
  rw [ite_eq_right_iff]
  unfold Record.stop u64
  constructor
  · intro silent
    by_contra last
    have whole : (w.tracker.records i).base + (w.tracker.records i).size = 2 ^ 64 := by
      omega
    rw [whole] at silent
    cases silent (.inl (Nat.zero_le ptr))
  · intro below reported
    omega

/-- A tracked block that starts at or before the address has bytes in the granule of the
address; or no tracked block has, and one has bytes in the granule of the byte before. -/
def Bordered (t : Tracker) (a : Nat) : Prop :=
  (∃ block, Touches t a block ∧ block.base ≤ a) ∨
    (t.find a).isSome ∧ (∀ block, ¬ Touches t a block) ∧ ∃ block, Touches t (a - 1) block

include consistent

private theorem Consistent.eq_of_mem {block other : Block}
    (live : block ∈ w.live) (too : other ∈ w.live) (from_ : block.base ≤ a)
    (below : a < block.base + block.size) (from' : other.base ≤ a)
    (below' : a < other.base + other.size) : block = other := by
  by_contra ne
  have apart := (consistent.disjoint live too ne).2
  omega

theorem Consistent.stop_le_of_untracked (live : block ∈ w.live)
    (untracked : ¬ Tracked w.tracker block) (from_ : block.base ≤ a)
    (below : a < block.base + block.size)
    (tracked : Tracked w.tracker (w.tracker.records i).block)
    (owned : (w.tracker.records i).block ∈ w.live)
    (starts : (w.tracker.records i).base ≤ a) : (w.tracker.records i).stop ≤ a := by
  refine Nat.le_trans (stop_le _) ?_
  by_contra beyond
  have same := consistent.eq_of_mem live owned from_ below starts (Nat.lt_of_not_le beyond)
  exact untracked (same ▸ tracked)

variable (found : w.tracker.find a = some (window, off))

include found

theorem Consistent.oracleRecord_painted (named : w.tracker.value (window, off / granuleBytes) ≠ 0) :
    (∀ i ∈ w.tracker.oracleRecord a, Lower w.tracker a window (off / granuleBytes) i) ∧
      ((w.tracker.oracleRecord a).isSome ↔ Bordered w.tracker a) := by
  have aligned := consistent.ok.windows
  have record : w.tracker.oracleRecord a = w.tracker.findOracleRecord a window off
      (w.tracker.value (window, off / granuleBytes)) := by
    unfold Tracker.oracleRecord
    rw [found]
    dsimp only
    rw [if_pos named]
  obtain ⟨sound, complete⟩ := consistent.findOracleRecord_lower (a := a) named
  rw [record]
  refine ⟨sound, ?_, ?_⟩
  · intro present
    obtain ⟨i, same⟩ := Option.isSome_iff_exists.1 present
    obtain ⟨covers, starts⟩ := sound i same
    exact .inl ⟨_, touches_of_covers aligned found covers, starts⟩
  · rintro (⟨_, touches, starts⟩ | ⟨-, untouched, -⟩)
    · obtain ⟨window', j, found', covers, rfl⟩ := consistent.covers_of_touches touches
      obtain ⟨rfl, rfl⟩ := Prod.mk.inj (Option.some.inj (found.symm.trans found'))
      exact complete ⟨j, covers, starts⟩
    · exact absurd (touches_of_covers aligned found (consistent.ok.painted.sound _ named))
        (untouched _)

private theorem Consistent.not_touches
    (zero : w.tracker.value (window, off / granuleBytes) = 0) (block : Block) :
    ¬ Touches w.tracker a block := by
  intro touches
  obtain ⟨window', j, found', covers, -⟩ := consistent.covers_of_touches touches
  obtain ⟨rfl, rfl⟩ := Prod.mk.inj (Option.some.inj (found.symm.trans found'))
  exact consistent.ok.painted.complete j _ covers zero

omit found consistent

private theorem touches_before (untouched : ¬ Touches t a block)
    (touches : Touches t (a - 1) block) : block.base ≤ a - 1 := by
  obtain ⟨tracked, _, _⟩ := touches
  by_contra beyond
  refine untouched ⟨tracked, ?_⟩
  unfold Block.Overlaps granuleBytes at *
  omega

include consistent

private theorem Consistent.oracleRecord_unpainted
    (live : block ∈ w.live) (untracked : ¬ Tracked w.tracker block) (from_ : block.base ≤ a)
    (below : a < block.base + block.size) (found : w.tracker.find a = some (window, off))
    (zero : w.tracker.value (window, off / granuleBytes) = 0) :
    (∀ i ∈ w.tracker.oracleRecord a, (w.tracker.records i).stop ≤ a) ∧
      ((w.tracker.oracleRecord a).isSome ↔ Bordered w.tracker a) := by
  have aligned := consistent.ok.windows
  have untouched := consistent.not_touches found zero
  have pos : a ≠ 0 := by
    have := (consistent.valid _ live).1
    omega
  have bordered : Bordered w.tracker a ↔ ∃ other, Touches w.tracker (a - 1) other := by
    unfold Bordered
    rw [found]
    constructor
    · rintro (⟨other, touches, -⟩ | ⟨-, -, pre⟩)
      · exact absurd touches (untouched _)
      · exact pre
    · intro pre
      exact .inr ⟨rfl, untouched, pre⟩
  unfold Tracker.oracleRecord
  rw [found, bordered]
  dsimp only
  rw [if_neg (not_not_intro zero), if_pos pos]
  cases prev : w.tracker.find (a - 1) with
  | none =>
    refine ⟨nofun, iff_of_false (by simp) ?_⟩
    rintro ⟨other, touches⟩
    obtain ⟨window', j, found', -⟩ := consistent.covers_of_touches touches
    rw [prev] at found'
    cases found'
  | some hit =>
    obtain ⟨window', off'⟩ := hit
    dsimp only
    by_cases named : w.tracker.value (window', off' / granuleBytes) = 0
    · rw [if_neg (not_not_intro named)]
      refine ⟨nofun, iff_of_false (by simp) ?_⟩
      rintro ⟨other, touches⟩
      exact consistent.not_touches prev named _ touches
    · rw [if_pos named]
      obtain ⟨sound, complete⟩ := consistent.findOracleRecord_lower (a := a - 1) named
      have covers := consistent.ok.painted.sound _ named
      have pre := touches_of_covers aligned prev covers
      obtain ⟨i, same⟩ := Option.isSome_iff_exists.1
        (complete ⟨_, covers, touches_before (untouched _) pre⟩)
      obtain ⟨lower, starts⟩ := sound i same
      have ended := consistent.stop_le_of_untracked live untracked from_ below
        (touches_of_covers aligned prev lower).1
        (consistent.owned i lower.1 lower.2.1).1 (Nat.le_trans starts (Nat.sub_le a 1))
      rw [same, Option.filter_some, if_pos (decide_eq_true ended)]
      refine ⟨?_, iff_of_true rfl ⟨_, pre⟩⟩
      intro j equal
      rw [← Option.some.inj equal]
      exact ended

private theorem Consistent.oracle_untracked (live : block ∈ w.live)
    (untracked : ¬ Tracked w.tracker block) (from_ : block.base ≤ ptr)
    (below : ptr < block.base + block.size) (size : Nat) :
    (w.tracker.oracle ptr size).2 = none ↔ ¬ Bordered w.tracker ptr := by
  have spec : (∀ i ∈ w.tracker.oracleRecord ptr, (w.tracker.records i).stop ≤ ptr) ∧
      ((w.tracker.oracleRecord ptr).isSome ↔ Bordered w.tracker ptr) := by
    cases found : w.tracker.find _ with
    | none =>
      have nothing : w.tracker.oracleRecord ptr = none := by
        unfold Tracker.oracleRecord
        rw [found]
      rw [nothing]
      refine ⟨nofun, iff_of_false (by simp) ?_⟩
      rintro (⟨_, touches, -⟩ | ⟨present, -⟩)
      · obtain ⟨window, j, found', -⟩ := consistent.covers_of_touches touches
        rw [found] at found'
        cases found'
      · rw [found] at present
        cases present
    | some hit =>
      obtain ⟨window, off⟩ := hit
      by_cases zero : w.tracker.value (window, off / granuleBytes) = 0
      · exact consistent.oracleRecord_unpainted live untracked from_ below found zero
      · obtain ⟨sound, bordered⟩ := consistent.oracleRecord_painted found zero
        refine ⟨?_, bordered⟩
        intro i present
        obtain ⟨covers, starts⟩ := sound i present
        exact consistent.stop_le_of_untracked live untracked from_ below
          (touches_of_covers consistent.ok.windows found covers).1
          (consistent.owned i covers.1 covers.2.1).1 starts
  obtain ⟨ended, bordered⟩ := spec
  rw [← bordered]
  cases record : w.tracker.oracleRecord ptr with
  | none =>
    refine iff_of_true ?_ (by simp)
    unfold Tracker.oracle
    rw [record]
  | some i =>
    refine iff_of_false ?_ (by simp)
    rw [oracle_reports record, if_pos (.inl (ended i record))]
    exact Option.some_ne_none _

omit consistent

/-- A store inside a block of the program is let through in exactly two cases: the block is
tracked and does not end at the last address, or it is not tracked and nothing that is tracked
borders on the store. -/
theorem store_inside_silent_iff (bugMap : Option (Nat → Nat)) (calls : List Call)
    (proper : Along World.step World.Proper (World.initial bugMap) calls) (block : Block)
    (live : block ∈ (runFrom World.step (World.initial bugMap) calls).live) (ptr size : Nat)
    (from_ : block.base ≤ ptr) (until_ : ptr + storeBytes size ≤ block.base + block.size) :
    let t := (runFrom World.step (World.initial bugMap) calls).tracker
    (t.oracle ptr size).2 = none ↔ (Tracked t block ∧ block.base + block.size < 2 ^ 64) ∨
        (¬ Tracked t block ∧ ¬ Bordered t ptr) := by
  have consistent := consistent_run _ _ proper
  have pos := storeBytes_pos size
  dsimp only
  by_cases tracked : Tracked (runFrom World.step (World.initial bugMap) calls).tracker block
  · rw [consistent.oracle_tracked live tracked from_ until_]
    simp [tracked]
  · rw [consistent.oracle_untracked live tracked from_ (by omega) _]
    simp [tracked]

/-- The block at the border goes on beyond the first window and is not tracked. -/
def borderCalls : List Call :=
  [.register ⟨4096, 40⟩ 1, .register ⟨2 ^ 34 - 128, 32⟩ 2, .register ⟨2 ^ 34 - 32, 64⟩ 3]

private theorem border_proper : Along World.step World.Proper (World.initial none) borderCalls := by
  decide +kernel

private theorem border_untouched {a : Nat} (from_ : 2 ^ 34 - 64 ≤ a) (block : Block) :
    ¬ Touches (runFrom World.step (World.initial none) borderCalls).tracker a block := by
  rintro ⟨⟨i, inside, used, same, measured⟩, _, post⟩
  have live := ((consistent_run _ _ border_proper).owned i inside used).1
  rw [same] at live
  have all : (runFrom World.step (World.initial none) borderCalls).live =
      [⟨2 ^ 34 - 32, 64⟩, ⟨2 ^ 34 - 128, 32⟩, ⟨4096, 40⟩] := by decide +kernel
  rw [all, List.mem_cons, List.mem_cons, List.mem_singleton] at live
  rcases live with rfl | rfl | rfl
  · exact absurd measured (by decide +kernel)
  · unfold granuleBytes at post
    dsimp only at post
    omega
  · unfold granuleBytes at post
    dsimp only at post
    omega

/-- A store into the block that is tracked, and one into the block that is not, on
which nothing that is tracked borders. -/
theorem store_inside_silent_iff_border :
    ((runFrom World.step (World.initial none) borderCalls).tracker.oracle (2 ^ 34 - 100) 4).2 =
        none ∧
      ((runFrom World.step (World.initial none) borderCalls).tracker.oracle (2 ^ 34 - 32) 8).2 =
        none := by
  constructor
  · refine (store_inside_silent_iff none borderCalls border_proper ⟨2 ^ 34 - 128, 32⟩
      (by decide +kernel) (2 ^ 34 - 100) 4 (by decide) (by decide)).2 (.inl ⟨⟨2, ?_⟩, by decide⟩)
    exact ⟨List.mem_range'_1.2 (by decide), by decide +kernel⟩
  · refine (store_inside_silent_iff none borderCalls border_proper ⟨2 ^ 34 - 32, 64⟩
      (by decide +kernel) (2 ^ 34 - 32) 8 (by decide) (by decide)).2 (.inr ⟨?_, ?_⟩)
    · rintro ⟨_, _, _, _, measured⟩
      exact absurd measured (by decide +kernel)
    · rintro (⟨block, touches, _⟩ | ⟨_, _, block, touches⟩)
      · exact border_untouched (by decide) block touches
      · exact border_untouched (by decide) block touches

/-- Two blocks share the last granule of the first window, and the second goes on beyond it. -/
def straddlingCalls : List Call :=
  [.register ⟨2 ^ 34 - 64, 32⟩ 1, .register ⟨2 ^ 34 - 32, 64⟩ 2]

private theorem straddling_proper :
    Along World.step World.Proper (World.initial none) straddlingCalls := by
  decide

/-- Its first byte is reported as a store past the end of the other block. -/
theorem store_inside_reported :
    Along World.step World.Proper (World.initial none) straddlingCalls ∧
      ⟨2 ^ 34 - 32, 64⟩ ∈ (runFrom World.step (World.initial none) straddlingCalls).live ∧
      ((runFrom World.step (World.initial none) straddlingCalls).tracker.oracle (2 ^ 34 - 32) 1).2 =
        some ⟨1, 2 ^ 34 - 32, 2 ^ 34 - 64, 2 ^ 34 - 32, 32, 1, 32⟩ :=
  ⟨straddling_proper, by decide, by decide +kernel⟩

end AflPlusPlus.AllocOracle
