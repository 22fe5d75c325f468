/-
Histories of allocations.

As long as the blocks of the program are disjoint, the live records are blocks of the
program, no two of them are the same block, and the shadow is faithful to them.
-/

import AflPlusPlus.AllocPainted
import AflPlusPlus.Machine.GuardedRun
import Mathlib.Data.List.Pairwise

namespace AflPlusPlus.AllocOracle

open Machine Function

theorem home_add_mod (a : Nat) : home a + a % trackedRange = a := by
  unfold home trackedRange
  omega

variable {t t' : Tracker} {w : World} {window i a : Nat} (aligned : Aligned t.windows)

include aligned

variable {window g : Nat}

theorem spans_bytes {base size origin : Nat} (spans : t.Spans base size (window, g))
    (starts : (t.windows.map Window.origin)[window]? = some origin) :
    base < origin + granuleBytes * g + granuleBytes ∧ origin + granuleBytes * g < base + size := by
  obtain ⟨extent, measured, same, _, _⟩ := spans
  obtain ⟨-, _, found, -, _, _⟩ := extent_eq_some measured
  obtain ⟨_, -, there⟩ := findIn_eq_some aligned.aligned found
  obtain rfl : window = extent.window := same
  rw [Nat.sub_zero, starts] at there
  obtain rfl := Option.some.inj there
  have whole := home_add_mod base
  unfold granuleBytes at *
  omega

theorem find_at (starts : (t.windows.map Window.origin)[window]? = some (home a)) :
    t.find a = some (window, a % trackedRange) := by
  have present : home a ∈ t.windows.map Window.origin := List.mem_of_getElem? starts
  obtain ⟨⟨position, _⟩, found⟩ :=
    Option.isSome_iff_exists.1 (findIn_isSome aligned.aligned 0 present)
  obtain ⟨rfl, -, there⟩ := findIn_eq_some aligned.aligned found
  have below := (List.getElem?_eq_some_iff.1 there).1
  obtain rfl : position = window :=
    (List.getElem?_inj below aligned.distinct).1 (there.trans starts.symm)
  exact found

theorem find_origin {a off : Nat} (found : t.find a = some (window, off)) :
    off = a % trackedRange ∧ (t.windows.map Window.origin)[window]? = some (home a) := by
  obtain ⟨offset, -, there⟩ := findIn_eq_some aligned.aligned found
  exact ⟨offset, there⟩

omit aligned

theorem extent_at {base size : Nat} (nonempty : size ≠ 0)
    (room : base % trackedRange + size ≤ trackedRange)
    (found : t.find base = some (window, base % trackedRange)) :
    t.extent base size = some ⟨window, base % trackedRange / granuleBytes,
      (base % trackedRange + size + (granuleBytes - 1)) / granuleBytes⟩ := by
  unfold Tracker.extent
  rw [if_neg (by omega), found]
  dsimp only
  unfold trackedRange granuleBytes granuleCount at *
  rw [if_neg (by omega), if_neg (by omega), Nat.min_eq_left (by omega)]

include aligned in
theorem spans_of_bytes {base size : Nat}
    (nonempty : size ≠ 0) (room : base % trackedRange + size ≤ trackedRange)
    (starts : (t.windows.map Window.origin)[window]? = some (home base))
    (from_ : base < home base + granuleBytes * g + granuleBytes)
    (below : home base + granuleBytes * g < base + size) :
    t.Spans base size (window, g) := by
  have whole := home_add_mod base
  refine ⟨_, extent_at nonempty room (find_at aligned starts), rfl, ?_, ?_⟩
  all_goals
    dsimp only
    unfold granuleBytes at *
    omega

def Record.block (record : Record) : Block := ⟨record.base, record.size⟩

structure Consistent (w : World) : Prop where
  ok : w.tracker.Ok
  valid : ∀ block ∈ w.live, block.Valid
  apart : w.live.Pairwise Block.Disjoint
  owned : ∀ i ∈ recordIndices, (w.tracker.records i).inUse = true →
    (w.tracker.records i).block ∈ w.live ∧ (w.tracker.records i).size ≠ 0
  unique : ∀ i ∈ recordIndices, ∀ j ∈ recordIndices, (w.tracker.records i).inUse = true →
    (w.tracker.records j).inUse = true →
      (w.tracker.records i).base = (w.tracker.records j).base → i = j

variable {block other : Block}

private theorem Block.Disjoint.symm (disjoint : block.Disjoint other) :
    other.Disjoint block :=
  ⟨disjoint.1.symm, disjoint.2.symm⟩

instance : Std.Symm Block.Disjoint := ⟨fun _ _ => Block.Disjoint.symm⟩

variable (consistent : Consistent w)

include consistent in
theorem Consistent.disjoint (present : block ∈ w.live) (too : other ∈ w.live) (ne : block ≠ other) :
    block.Disjoint other :=
  consistent.apart.forall present too ne

variable (bugMap : Option (Nat → Nat))

theorem Consistent.initial : Consistent (World.initial bugMap) :=
  ⟨Tracker.initial_ok bugMap, nofun, List.Pairwise.nil, nofun, nofun⟩

variable (records : Nat → Record)

private theorem pickFrom_spec (fuel next : Nat) (picked : (pickFrom records fuel next).1 ≠ 0) :
    (pickFrom records fuel next).1 ∈ recordIndices ∧
      (records (pickFrom records fuel next).1).inUse = false := by
  induction fuel generalizing next with
  | zero => exact absurd rfl picked
  | succ fuel ih =>
    rw [pickFrom] at picked ⊢
    split at picked
    case isTrue reserved =>
      rw [if_pos reserved]
      exact ih _ picked
    case isFalse usable =>
      rw [if_neg usable]
      split at picked
      case isTrue free =>
        rw [if_pos free]
        exact ⟨mem_recordIndices.2 ⟨Nat.pos_of_ne_zero usable, Nat.mod_lt _ (by decide)⟩, free⟩
      case isFalse used =>
        rw [if_neg used]
        exact ih _ picked

private theorem recordOf_eq_some (found : t.recordOf a = some i) :
    i ∈ recordIndices ∧ (t.records i).inUse = true ∧ (t.records i).base = a := by
  unfold Tracker.recordOf at found
  dsimp only at found
  split at found
  case isTrue fast =>
    obtain ⟨pos, below, used, base⟩ := fast
    rw [Option.some.injEq] at found
    rw [found] at pos below used base
    exact ⟨mem_recordIndices.2 ⟨Nat.pos_of_ne_zero pos, below⟩, used, base⟩
  case isFalse slow =>
    have holds := List.find?_some found
    rw [Bool.and_eq_true, decide_eq_true_iff] at holds
    exact ⟨List.mem_of_find?_eq_some found, holds⟩

private theorem recordOf_eq_none (missed : t.recordOf a = none) (index : i ∈ recordIndices)
    (used : (t.records i).inUse = true) :
    (t.records i).base ≠ a := by
  unfold Tracker.recordOf at missed
  dsimp only at missed
  split at missed
  case isTrue fast => cases missed
  case isFalse slow =>
    intro same
    have fails := List.find?_eq_none.1 missed i index
    rw [used, same] at fails
    simp at fails

private theorem pickFrom_full (fuel next : Nat) (full : (pickFrom records fuel next).1 = 0)
    (k : Nat)
    (below : k < fuel) (usable : (next + k) % recordCount ≠ 0) :
    (records ((next + k) % recordCount)).inUse = true := by
  induction fuel generalizing next k with
  | zero => cases below
  | succ fuel ih =>
    rw [pickFrom] at full
    -- the counter is a 32-bit word, and that is a whole number of rounds
    have around (k : Nat) :
        ((next + 1) % 2 ^ 32 + k) % recordCount = (next + (k + 1)) % recordCount := by
      unfold recordCount
      omega
    have later (rest : (pickFrom records fuel ((next + 1) % 2 ^ 32)).1 = 0) (k : Nat)
        (below : k < fuel) (usable : (next + (k + 1)) % recordCount ≠ 0) :
        (records ((next + (k + 1)) % recordCount)).inUse = true := by
      rw [← around] at usable ⊢
      exact ih _ rest k below usable
    split at full
    case isTrue reserved =>
      cases k with
      | zero => exact absurd reserved usable
      | succ k => exact later full k (Nat.lt_of_succ_lt_succ below) usable
    case isFalse named =>
      split at full
      case isTrue free => exact absurd full named
      case isFalse used =>
        cases k with
        | zero => rwa [Bool.not_eq_false] at used
        | succ k => exact later full k (Nat.lt_of_succ_lt_succ below) usable

private theorem pickFrom_eq_zero {records : Nat → Record} {next : Nat}
    (full : (pickFrom records recordCount next).1 = 0) {i : Nat} (index : i ∈ recordIndices) :
    (records i).inUse = true := by
  obtain ⟨pos, _⟩ := mem_recordIndices.1 index
  have turn : (next + (i + recordCount - next % recordCount) % recordCount) % recordCount = i := by
    unfold recordCount at *
    omega
  have used := pickFrom_full _ _ _ full
    ((i + recordCount - next % recordCount) % recordCount) (Nat.mod_lt _ (by decide))
  rw [turn] at used
  exact used (Nat.ne_of_gt pos)

/-- What registering a block does: there is no record left, or one is filled and painted. -/
structure Registers (pre post : Tracker) (block : Block) (idx : Nat) : Prop where
  index : idx ∈ recordIndices
  free : (pre.records idx).inUse = false
  ok : post.Ok
  own : (post.records idx).inUse = true ∧ (post.records idx).block = block
  other : ∀ j, j ≠ idx → post.records j = pre.records j
  find : ∀ a, (pre.find a).isSome → post.find a = pre.find a
  found : block.size ≤ trackedRange →
    (pre.find block.base).isSome ∨ pre.windows.length ≤ extraWindows → (post.find block.base).isSome

theorem Tracker.Ok.register_spec (ok : t.Ok) (nonzero : block.base ≠ 0)
    (nonempty : block.size ≠ 0) (allocSiteId : Nat) :
    ((∀ i ∈ recordIndices, (t.records i).inUse = true) ∧
      ∃ next, t.register block.base block.size allocSiteId = { t with nextIdx := next }) ∨
    ∃ idx, Registers t (t.register block.base block.size allocSiteId) block idx := by
  unfold Tracker.register
  rw [if_neg (not_or.2 ⟨nonzero, nonempty⟩)]
  have spec := pickFrom_spec t.records recordCount t.nextIdx
  have full := @pickFrom_eq_zero t.records t.nextIdx
  generalize pickFrom t.records recordCount t.nextIdx = choice at spec full ⊢
  obtain ⟨idx, next⟩ := choice
  dsimp only at spec full ⊢
  split
  case isTrue none_ => exact .inl ⟨fun i index => full none_ index, next, rfl⟩
  case isFalse picked =>
    right
    obtain ⟨index, free⟩ := spec picked
    have readyOk : Tracker.Ok { t with nextIdx := next } := ⟨ok.windows, ok.windowed, ok.painted⟩
    have added := @Tracker.Ok.add _ readyOk _ index free
      ⟨true, block.base, block.size, allocSiteId, 0⟩ rfl nonempty
    have paints := @paint_paints { t with
        nextIdx := next
        records := update t.records idx ⟨true, block.base, block.size, allocSiteId, 0⟩ }
      ok.windows block.base block.size _ picked
    refine ⟨idx, index, free, added, ?_, ?_, fun a known => paints.find a (.inl known),
      paints.found⟩
    · rw [paints.records]
      dsimp only
      rw [update_self]
      exact ⟨rfl, rfl⟩
    · intro j ne
      rw [paints.records]
      exact update_of_ne ne ..

section

variable (consistent : Consistent w) {block : Block} (valid : block.Valid)
  (apart : ∀ other ∈ w.live, block.Disjoint other)
include consistent valid apart

theorem Consistent.register_ok (ok : t.Ok)
    (owned : ∀ i ∈ recordIndices, (t.records i).inUse = true →
      (t.records i).block ∈ block :: w.live ∧ (t.records i).size ≠ 0)
    (unique : ∀ i ∈ recordIndices, ∀ j ∈ recordIndices, (t.records i).inUse = true →
      (t.records j).inUse = true → (t.records i).base = (t.records j).base → i = j) :
    Consistent ⟨t, block :: w.live⟩ := by
  refine ⟨ok, ?_, List.Pairwise.cons apart consistent.apart, owned, unique⟩
  intro other mem
  rcases List.mem_cons.1 mem with rfl | pre
  · exact valid
  · exact consistent.valid _ pre

private theorem Consistent.register_same (ok : t.Ok) (records : t.records = w.tracker.records) :
    Consistent ⟨t, block :: w.live⟩ := by
  refine consistent.register_ok valid apart ok ?_ ?_
  · rw [records]
    intro i index used
    obtain ⟨mem, nonempty⟩ := consistent.owned i index used
    exact ⟨List.mem_cons_of_mem _ mem, nonempty⟩
  · rw [records]
    exact consistent.unique

private theorem Consistent.register_new (nonempty : block.size ≠ 0) {post : Tracker} {idx : Nat}
    (registers : Registers w.tracker post block idx) :
    Consistent ⟨post, block :: w.live⟩ := by
  obtain ⟨-, own⟩ := registers.own
  have base : (post.records idx).base = block.base := congrArg Block.base own
  have fresh {j : Nat} (inside : j ∈ recordIndices) (ne : j ≠ idx)
      (used : (post.records j).inUse = true) : (post.records j).base ≠ block.base := by
    rw [registers.other j ne] at used ⊢
    exact ((apart _ (consistent.owned j inside used).1).1).symm
  refine consistent.register_ok valid apart registers.ok ?_ ?_
  · intro j inside used
    by_cases same : j = idx
    · rw [same, own]
      have size : (post.records idx).size = block.size := congrArg Block.size own
      exact ⟨List.mem_cons_self, size.symm ▸ nonempty⟩
    · rw [registers.other j same] at used ⊢
      obtain ⟨mem, some⟩ := consistent.owned j inside used
      exact ⟨List.mem_cons_of_mem _ mem, some⟩
  · intro j inside k within usedJ usedK same
    by_cases first : j = idx
    · by_cases second : k = idx
      · rw [first, second]
      · rw [first, base] at same
        exact absurd same.symm (fresh within second usedK)
    · by_cases second : k = idx
      · rw [second, base] at same
        exact absurd same (fresh inside first usedJ)
      · rw [registers.other j first] at usedJ same
        rw [registers.other k second] at usedK same
        exact consistent.unique j inside k within usedJ usedK same

theorem Consistent.register (allocSiteId : Nat) :
    Consistent (w.step (.register block allocSiteId)) := by
  have ok := consistent.ok
  unfold World.step
  by_cases empty : block.size = 0
  · have same : w.tracker.register block.base block.size allocSiteId = w.tracker := by
      unfold Tracker.register
      rw [if_pos (.inr empty)]
    dsimp only
    rw [same]
    exact consistent.register_same valid apart ok rfl
  · rcases ok.register_spec valid.1 empty allocSiteId with ⟨-, _, same⟩ | ⟨_, registers⟩
    · dsimp only
      rw [same]
      exact consistent.register_same valid apart ⟨ok.windows, ok.windowed, ok.painted⟩ rfl
    · exact consistent.register_new valid apart empty registers

end

include aligned in
private theorem spans_origin {base size : Nat} (spans : t.Spans base size (window, g)) :
    (t.windows.map Window.origin)[window]? = some (home base) := by
  obtain ⟨extent, measured, same, -⟩ := spans
  obtain ⟨-, _, found, -⟩ := extent_eq_some measured
  obtain rfl : window = extent.window := same
  exact (find_origin aligned found).2

include consistent

theorem Consistent.alone (index : i ∈ recordIndices) (used : (w.tracker.records i).inUse = true)
    (whole : wholeGranules (w.tracker.records i).base (w.tracker.records i).size = true)
    (j : Nat) (cell : Nat × Nat) (ne : j ≠ i) (covers : w.tracker.Covers j cell) :
    ¬ w.tracker.Spans (w.tracker.records i).base (w.tracker.records i).size cell := by
  intro spans
  obtain ⟨inside, usedJ, -, spansJ⟩ := covers
  have aligned := consistent.ok.windows
  have starts := spans_origin aligned spans
  obtain ⟨_, _⟩ := spans_bytes aligned spans starts
  obtain ⟨_, _⟩ := spans_bytes aligned spansJ starts
  have bases : (w.tracker.records i).base ≠ (w.tracker.records j).base := by
    intro same
    exact ne (consistent.unique j inside i index usedJ used same.symm)
  have blocks : (w.tracker.records i).block ≠ (w.tracker.records j).block :=
    fun same => bases (congrArg Block.base same)
  obtain ⟨-, apart⟩ := consistent.disjoint (consistent.owned i index used).1
    (consistent.owned j inside usedJ).1 blocks
  simp only [wholeGranules, Bool.and_eq_true, decide_eq_true_eq] at whole
  have origin : home (w.tracker.records i).base % granuleBytes = 0 := by
    unfold home trackedRange granuleBytes
    omega
  simp only [Record.block] at apart
  unfold granuleBytes at *
  omega

theorem Consistent.unregister_cases (ptr : Nat) :
    (w.tracker.unregister ptr = w.tracker ∧
      ∀ i ∈ recordIndices, (w.tracker.records i).inUse = true → (w.tracker.records i).base ≠ ptr) ∨
    ∃ i ∈ recordIndices, (w.tracker.records i).inUse = true ∧ (w.tracker.records i).base = ptr ∧
      w.tracker.unregister ptr = w.tracker.release i := by
  unfold Tracker.unregister
  by_cases zero : ptr = 0
  · rw [if_pos zero]
    refine .inl ⟨rfl, ?_⟩
    intro i index used
    rw [zero]
    exact (consistent.valid _ (consistent.owned i index used).1).1
  · rw [if_neg zero]
    cases found : w.tracker.recordOf ptr with
    | none => exact .inl ⟨rfl, fun i index used => recordOf_eq_none found index used⟩
    | some i =>
      obtain ⟨index, used, base⟩ := recordOf_eq_some found
      exact .inr ⟨i, index, used, base, rfl⟩

theorem Consistent.released (index : i ∈ recordIndices)
    (used : (w.tracker.records i).inUse = true) :
    SameLayout (w.tracker.freed i) (w.tracker.release i) ∧ (w.tracker.release i).Ok :=
  consistent.ok.release (consistent.owned i index used).2 (consistent.alone index used)

omit consistent

private theorem freed_inUse {i j : Nat} (used : ((t.freed i).records j).inUse = true) :
    j ≠ i ∧ (t.freed i).records j = t.records j := by
  have ne : j ≠ i := by
    rintro rfl
    rw [freed_own] at used
    cases used
  exact ⟨ne, freed_other _ ne⟩

include consistent in
theorem Consistent.unregister (ptr : Nat) :
    Consistent (w.step (.unregister ptr)) := by
  have valid : ∀ other ∈ w.live.filter (fun block => block.base ≠ ptr), other.Valid :=
    fun other mem => consistent.valid _ (List.mem_of_mem_filter mem)
  have apart : (w.live.filter (fun block => block.base ≠ ptr)).Pairwise Block.Disjoint :=
    consistent.apart.filter _
  have stays {other : Block} (mem : other ∈ w.live) (base : other.base ≠ ptr) :
      other ∈ w.live.filter (fun block => block.base ≠ ptr) :=
    List.mem_filter.2 ⟨mem, decide_eq_true base⟩
  unfold World.step
  dsimp only
  rcases consistent.unregister_cases ptr with ⟨same, others⟩ | ⟨i, index, used, base, same⟩
  · rw [same]
    refine ⟨consistent.ok, valid, apart, ?_, consistent.unique⟩
    intro i index used
    obtain ⟨mem, some⟩ := consistent.owned i index used
    exact ⟨stays mem (others i index used), some⟩
  · rw [same]
    obtain ⟨layout, ok⟩ := consistent.released index used
    refine ⟨ok, valid, apart, ?_, ?_⟩
    · intro j inside usedJ
      rw [layout.records] at usedJ ⊢
      obtain ⟨ne, kept⟩ := freed_inUse usedJ
      rw [kept] at usedJ ⊢
      obtain ⟨mem, nonempty⟩ := consistent.owned j inside usedJ
      refine ⟨stays mem ?_, nonempty⟩
      intro equal
      exact ne (consistent.unique j inside i index usedJ used (equal.trans base.symm))
    · intro j inside k within usedJ usedK equal
      rw [layout.records] at usedJ usedK equal
      obtain ⟨-, keptJ⟩ := freed_inUse usedJ
      obtain ⟨-, keptK⟩ := freed_inUse usedK
      rw [keptJ] at usedJ equal
      rw [keptK] at usedK equal
      exact consistent.unique j inside k within usedJ usedK equal

structure SameBlocks (t t' : Tracker) : Prop where
  windows : t'.windows = t.windows
  inUse : ∀ i, (t'.records i).inUse = (t.records i).inUse
  block : ∀ i, (t'.records i).block = (t.records i).block

theorem oracle_sameBlocks (t : Tracker) (a size : Nat) :
    SameBlocks t (t.oracle a size).1 := by
  unfold Tracker.oracle
  split
  · exact ⟨rfl, fun _ => rfl, fun _ => rfl⟩
  case h_2 i found =>
    have seen (maxObservedOff : Nat) (j : Nat) :
        (update t.records i { t.records i with maxObservedOff } j).inUse = (t.records j).inUse ∧
        (update t.records i { t.records i with maxObservedOff } j).block = (t.records j).block := by
      by_cases same : j = i
      · subst same
        rw [update_self]
        exact ⟨rfl, rfl⟩
      · rw [update_of_ne same]
        exact ⟨rfl, rfl⟩
    dsimp only
    split <;> exact ⟨rfl, fun j => (seen _ j).1, fun j => (seen _ j).2⟩

section

variable (same : SameBlocks t t')
include same

private theorem SameBlocks.spans (base size : Nat) (cell : Nat × Nat) :
    t'.Spans base size cell ↔ t.Spans base size cell :=
  spans_congr (by rw [Tracker.find, Tracker.find, same.windows]) size cell

variable (i : Nat)

theorem SameBlocks.base : (t'.records i).base = (t.records i).base :=
  congrArg Block.base (same.block i)

theorem SameBlocks.size : (t'.records i).size = (t.records i).size :=
  congrArg Block.size (same.block i)

theorem SameBlocks.covers (cell : Nat × Nat) :
    t'.Covers i cell ↔ t.Covers i cell := by
  unfold Tracker.Covers
  rw [same.inUse, same.size, same.base, same.spans]

end

private theorem Tracker.Ok.congr (ok : t.Ok) (same : SameBlocks t t') : t'.Ok := by
  have v : t'.value = t.value := by
    funext cell
    rw [Tracker.value, Tracker.value, same.windows]
  refine ⟨same.windows ▸ ok.windows, ?_, ?_⟩
  · intro i index used small
    rw [same.inUse] at used
    rw [same.size] at small
    rw [same.base, Tracker.find, same.windows]
    exact ok.windowed i index used small
  · rw [v]
    refine ⟨?_, ?_⟩
    · intro cell named
      exact (same.covers _ _).2 (ok.painted.sound _ named)
    · intro i cell covers
      exact ok.painted.complete i _ ((same.covers i _).1 covers)

include consistent

theorem Consistent.store (ptr size : Nat) :
    Consistent (w.step (.store ptr size)) := by
  have same := oracle_sameBlocks w.tracker ptr size
  refine ⟨consistent.ok.congr same, consistent.valid, consistent.apart, ?_, ?_⟩
  · intro i index used
    change ((w.tracker.oracle ptr size).1.records i).inUse = true at used
    change ((w.tracker.oracle ptr size).1.records i).block ∈ w.live ∧
      ((w.tracker.oracle ptr size).1.records i).size ≠ 0
    rw [same.inUse] at used
    rw [same.block, same.size]
    exact consistent.owned i index used
  · intro i index j other usedI usedJ equal
    change ((w.tracker.oracle ptr size).1.records i).inUse = true at usedI
    change ((w.tracker.oracle ptr size).1.records j).inUse = true at usedJ
    change ((w.tracker.oracle ptr size).1.records i).base =
      ((w.tracker.oracle ptr size).1.records j).base at equal
    rw [same.inUse] at usedI usedJ
    rw [same.base, same.base] at equal
    exact consistent.unique i index j other usedI usedJ equal

theorem Consistent.step (call : Call) (proper : w.Proper call) :
    Consistent (w.step call) := by
  cases call with
  | register block allocSiteId => exact consistent.register proper.1 proper.2 _
  | unregister ptr => exact consistent.unregister _
  | store ptr size => exact consistent.store _ _

omit consistent

theorem consistent_run (calls : List Call)
    (proper : Along World.step World.Proper (World.initial bugMap) calls) :
    Consistent (runFrom World.step (World.initial bugMap) calls) :=
  runFrom_invariant Consistent (fun _ call holds proper => holds.step call proper) _
    (Consistent.initial bugMap) calls proper

end AflPlusPlus.AllocOracle
