/-
Histories that fit the tables.

As long as there is a record for every block, and a window that holds the whole of it,
every block of the program is tracked, and a store that runs over the end of its block
is reported.
-/

import AflPlusPlus.AllocVerdict

namespace AflPlusPlus.AllocOracle

open Machine

variable {t : Tracker} {w : World}

/-- A new block lies in one window, there is a record for it, and its window has a table or
can get one. -/
def World.Roomy (w : World) : Call → Prop
  | .register block _ =>
    block.base % trackedRange + block.size ≤ trackedRange ∧
      (∃ i ∈ recordIndices, (w.tracker.records i).inUse = false) ∧
      ((w.tracker.find block.base).isSome ∨ w.tracker.windows.length ≤ extraWindows)
  | _ => True

structure Complete (w : World) : Prop where
  consistent : Consistent w
  tracked : ∀ block ∈ w.live, block.size ≠ 0 → Tracked w.tracker block

variable (bugMap : Option (Nat → Nat))

theorem Complete.initial : Complete (World.initial bugMap) :=
  ⟨Consistent.initial bugMap, nofun⟩

variable {pos g : Nat} {window : Window} {idx : Nat}
  {pre post : Tracker} {block : Block} (registers : Registers pre post block idx)

include registers

theorem Registers.tracked (nonempty : block.size ≠ 0)
    (room : block.base % trackedRange + block.size ≤ trackedRange)
    (windows : (pre.find block.base).isSome ∨ pre.windows.length ≤ extraWindows) :
    Tracked post block := by
  obtain ⟨used, own⟩ := registers.own
  have small : block.size ≤ trackedRange := by omega
  obtain ⟨⟨_, _⟩, found⟩ := Option.isSome_iff_exists.1 (registers.found small windows)
  obtain ⟨rfl, -⟩ := find_origin registers.ok.windows found
  exact ⟨idx, registers.index, used, own, by rw [extent_at nonempty room found]; rfl⟩

private theorem Registers.tracked_other {other : Block} (tracked : Tracked pre other) :
    Tracked post other := by
  obtain ⟨i, index, used, own, measured⟩ := tracked
  obtain ⟨_, present⟩ := Option.isSome_iff_exists.1 measured
  obtain ⟨-, _, found, -⟩ := extent_eq_some present
  have ne : i ≠ idx := by
    rintro rfl
    rw [registers.free] at used
    cases used
  have same := registers.other i ne
  have known := registers.find other.base (Option.isSome_iff_exists.2 ⟨_, found⟩)
  exact ⟨i, index, same ▸ used, same ▸ own, by rw [extent_congr known]; exact measured⟩

omit registers

variable {block : Block}

theorem Complete.register (complete : Complete w) {allocSiteId : Nat}
    (proper : w.Proper (.register block allocSiteId))
    (roomy : w.Roomy (.register block allocSiteId)) :
    Complete (w.step (.register block allocSiteId)) := by
  obtain ⟨room, ⟨i, index, free⟩, windows⟩ := roomy
  refine ⟨complete.consistent.step _ proper, ?_⟩
  intro other mem some
  by_cases empty : block.size = 0
  · have same : w.tracker.register block.base block.size allocSiteId = w.tracker := by
      unfold Tracker.register
      rw [if_pos (.inr empty)]
    change Tracked (w.tracker.register block.base block.size allocSiteId) other
    rw [same]
    rcases List.mem_cons.1 mem with rfl | pre
    · exact absurd empty some
    · exact complete.tracked _ pre some
  · rcases complete.consistent.ok.register_spec proper.1.1 empty allocSiteId with
      ⟨full, -⟩ | ⟨_, registers⟩
    · have used := full i index
      rw [free] at used
      cases used
    · rcases List.mem_cons.1 mem with rfl | pre
      · exact registers.tracked some room windows
      · exact registers.tracked_other (complete.tracked _ pre some)

theorem Complete.unregister (complete : Complete w) (ptr : Nat) :
    Complete (w.step (.unregister ptr)) := by
  refine ⟨complete.consistent.unregister _, ?_⟩
  intro block mem some
  obtain ⟨pre, other⟩ := List.mem_filter.1 mem
  have tracked := complete.tracked _ pre some
  change Tracked (w.tracker.unregister ptr) block
  rcases complete.consistent.unregister_cases ptr with ⟨same, -⟩ | ⟨i, index, used, base, same⟩
  · rw [same]
    exact tracked
  · rw [same]
    obtain ⟨layout, -⟩ := complete.consistent.released index used
    obtain ⟨j, inside, usedJ, own, measured⟩ := tracked
    have ne : j ≠ i := by
      rintro rfl
      have equal : (w.tracker.records j).base = block.base := congrArg Block.base own
      exact of_decide_eq_true other (equal.symm.trans base)
    have kept : (w.tracker.release i).records j = w.tracker.records j := by
      rw [layout.records, freed_other w.tracker ne]
    have extent := layout.extent block.base block.size
    exact ⟨j, inside, kept ▸ usedJ, kept ▸ own, by rw [extent]; exact measured⟩

theorem SameBlocks.tracked {t' : Tracker} (same : SameBlocks t t') (tracked : Tracked t block) :
    Tracked t' block := by
  obtain ⟨i, index, used, own, measured⟩ := tracked
  have find : t'.find block.base = t.find block.base := by
    rw [Tracker.find, Tracker.find, same.windows]
  exact ⟨i, index, by rw [same.inUse]; exact used, by rw [same.block]; exact own,
    by rw [extent_congr find]; exact measured⟩

theorem Complete.step (complete : Complete w) (call : Call) (proper : w.Proper call)
    (roomy : w.Roomy call) : Complete (w.step call) := by
  cases call with
  | register block allocSiteId => exact complete.register proper roomy
  | unregister ptr => exact complete.unregister _
  | store ptr size =>
    refine ⟨complete.consistent.store _ _, ?_⟩
    intro block mem some
    exact (oracle_sameBlocks w.tracker _ _).tracked (complete.tracked _ mem some)

private theorem complete_run (calls : List Call)
    (proper : Along World.step (fun w call => w.Proper call ∧ w.Roomy call)
      (World.initial bugMap) calls) : Complete (runFrom World.step (World.initial bugMap) calls) :=
  runFrom_invariant Complete (fun _ call holds guard => holds.step call guard.1 guard.2) _
    (Complete.initial bugMap) calls proper

theorem window_cell (present : t.windows[pos]? = some window) (g : Nat) :
    t.value (pos, g) = window.table g ∧
      (t.windows.map Window.origin)[pos]? = some window.origin := by
  unfold Tracker.value
  rw [List.getElem?_map, present]
  exact ⟨rfl, rfl⟩

variable (present : w.tracker.windows[pos]? = some window)

include present

private theorem Consistent.table_sound (consistent : Consistent w) (named : window.table g ≠ 0) :
    window.table g ∈ recordIndices ∧ (w.tracker.records (window.table g)).inUse = true ∧
      (w.tracker.records (window.table g)).block.Overlaps
        (window.origin + granuleBytes * g) granuleBytes := by
  obtain ⟨v, starts⟩ := window_cell present g
  rw [← v] at named ⊢
  obtain ⟨index, used, -, spans⟩ := consistent.ok.painted.sound _ named
  exact ⟨index, used, spans_bytes consistent.ok.windows spans starts⟩

private theorem Complete.table_complete (complete : Complete w) (below : g < granuleCount)
    (zero : window.table g = 0) {i : Nat} (index : i ∈ recordIndices)
    (used : (w.tracker.records i).inUse = true) :
    ¬ (w.tracker.records i).block.Overlaps (window.origin + granuleBytes * g) granuleBytes := by
  intro overlaps
  obtain ⟨v, starts⟩ := window_cell present g
  obtain ⟨mem, nonempty⟩ := complete.consistent.owned i index used
  obtain ⟨-, -, -, -, measured⟩ := complete.tracked _ mem nonempty
  have covers := covers_of_overlaps complete.consistent.ok.windows index used nonempty measured
    starts below overlaps
  exact complete.consistent.ok.painted.complete i _ covers (v.trans zero)

omit present

private theorem Consistent.unregister_tracked (consistent : Consistent w)
    (tracked : Tracked w.tracker block) :
    ∃ i ∈ recordIndices, (w.tracker.records i).inUse = true ∧ (w.tracker.records i).block = block ∧
      (w.tracker.unregister block.base).records = Function.update w.tracker.records i
          { w.tracker.records i with inUse := false } := by
  obtain ⟨i, index, used, own, -⟩ := tracked
  have base : (w.tracker.records i).base = block.base := congrArg Block.base own
  refine ⟨i, index, used, own, ?_⟩
  rcases consistent.unregister_cases block.base with ⟨-, others⟩ | ⟨j, inside, usedJ, baseJ, same⟩
  · exact absurd base (others i index used)
  · obtain rfl := consistent.unique j inside i index usedJ used (baseJ.trans base.symm)
    rw [same]
    exact (consistent.released index used).1.records

private theorem Consistent.oracle_overrun (consistent : Consistent w)
    (live : block ∈ w.live) (tracked : Tracked w.tracker block) {ptr size : Nat}
    (from_ : block.base ≤ ptr) (below : ptr < block.base + block.size)
    (beyond : block.base + block.size < ptr + size) :
    ∃ report, (w.tracker.oracle ptr size).2 = some report ∧
      report.base = block.base ∧ report.size = block.size := by
  obtain ⟨i, found, rfl⟩ := consistent.oracleRecord_tracked tracked from_ below
  have ended := stop_le (w.tracker.records i)
  have bytes : storeBytes size = size := if_pos (by omega)
  dsimp only [Record.block] at *
  rw [oracle_reports found, if_pos]
  · exact ⟨_, rfl, rfl, rfl⟩
  · omega

/-- Over every history that fits the tables, the number in a granule is that of a live record
with bytes in it if there is one and zero otherwise, freeing a block frees exactly its record,
and a store that starts in a block and runs past its end is reported. -/
theorem shadow_consistent (bugMap : Option (Nat → Nat)) (calls : List Call)
    (fits : Along World.step (fun w call => w.Proper call ∧ w.Roomy call)
      (World.initial bugMap) calls) :
    let w := runFrom World.step (World.initial bugMap) calls
    (∀ (pos : Nat) (window : Window), w.tracker.windows[pos]? = some window →
      ∀ g < granuleCount, (window.table g ≠ 0 →
          window.table g ∈ recordIndices ∧ (w.tracker.records (window.table g)).inUse = true ∧
            (w.tracker.records (window.table g)).block ∈ w.live ∧
            (w.tracker.records (window.table g)).block.Overlaps
              (window.origin + granuleBytes * g) granuleBytes) ∧
        (window.table g = 0 → ∀ block ∈ w.live, block.size ≠ 0 →
          ¬ block.Overlaps (window.origin + granuleBytes * g) granuleBytes)) ∧
    (∀ block ∈ w.live, block.size ≠ 0 → ∃ i ∈ recordIndices, (w.tracker.records i).inUse = true ∧
        (w.tracker.records i).block = block ∧
        (w.tracker.unregister block.base).records = Function.update w.tracker.records i
            { w.tracker.records i with inUse := false }) ∧
    (∀ block ∈ w.live, ∀ ptr size, block.base ≤ ptr → ptr < block.base + block.size →
      block.base + block.size < ptr + size → ∃ report, (w.tracker.oracle ptr size).2 = some report ∧
          report.base = block.base ∧ report.size = block.size) := by
  have complete := complete_run _ _ fits
  refine ⟨?_, ?_, ?_⟩
  · intro pos window present g below
    constructor
    · intro named
      obtain ⟨index, used, overlaps⟩ := complete.consistent.table_sound present named
      exact ⟨index, used, (complete.consistent.owned _ index used).1, overlaps⟩
    · intro zero block mem nonempty
      obtain ⟨i, index, used, rfl, -⟩ := complete.tracked block mem nonempty
      exact complete.table_complete present below zero index used
  · intro block mem nonempty
    exact complete.consistent.unregister_tracked (complete.tracked _ mem nonempty)
  · intro block mem ptr size from_ below beyond
    exact complete.consistent.oracle_overrun mem
      (complete.tracked _ mem (by omega)) from_ below beyond

def sharedCalls : List Call :=
  [.register ⟨4096, 40⟩ 1, .register ⟨4136, 100⟩ 2, .unregister 4136]

private theorem shared_fits : Along World.step (fun w call => w.Proper call ∧ w.Roomy call)
    (World.initial none) sharedCalls :=
  ⟨⟨by decide, by decide, ⟨1, mem_recordIndices.2 (by decide), rfl⟩, .inr (by decide)⟩,
    ⟨by decide, by decide, ⟨2, mem_recordIndices.2 (by decide), rfl⟩, .inr (by decide)⟩,
    ⟨trivial, trivial⟩, trivial⟩

theorem shadow_consistent_shared :
    Along World.step (fun w call => w.Proper call ∧ w.Roomy call) (World.initial none) sharedCalls ∧
      ∃ report, ((runFrom World.step (World.initial none) sharedCalls).tracker.oracle
        4130 10).2 = some report ∧ report.base = 4096 ∧ report.size = 40 :=
  ⟨shared_fits, (shadow_consistent none sharedCalls shared_fits).2.2 ⟨4096, 40⟩ (by decide)
    4130 10 (by decide) (by decide) (by decide)⟩

end AflPlusPlus.AllocOracle
