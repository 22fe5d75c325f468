/-
The table of allocations and its shadow.

A registered allocation gets a record, as long as one is free, and paints the 64-byte
granules it touches, in windows of 16 GiB, with the number of the record.  A store that
runs over the end of the allocation it starts in ends the target.

The oracle is switched on and a window can always be mapped.  Addresses and sizes are
natural numbers below 2^64.
-/

import Mathlib
import AflPlusPlus.Machine.PaintedCells
import AflPlusPlus.Machine.Tally

namespace AflPlusPlus.AllocOracle

open Machine

/-- `MAP_SIZE_ALLOCSHADOW_RANGE` -/
def trackedRange : Nat := 2 ^ 34

/-- `1 << MAP_SIZE_ALLOCSHADOW_GRANULE_LOG2` -/
def granuleBytes : Nat := 64

/-- `MAP_SIZE_ALLOCSHADOW_GRANULES` -/
def granuleCount : Nat := 2 ^ 28

/-- `MAP_SIZE_ALLOCRECORDS` -/
def recordCount : Nat := 4096

/-- `__AFL_ALLOC_SHADOW_EXTRAS` -/
def extraWindows : Nat := 3

/-- Half of `MAP_SIZE_BUG_ENTRIES` -/
def bugHalf : Nat := 8192

structure Record where
  inUse : Bool
  base : Nat
  size : Nat
  allocSiteId : Nat
  maxObservedOff : Nat
  deriving DecidableEq, Repr

structure Window where
  origin : Nat
  table : Nat → Nat

/-- `windows`: the first one is `__afl_alloc_shadow`, the others are the extra windows. -/
structure Tracker where
  records : Nat → Record
  nextIdx : Nat
  windows : List Window
  bugMap : Option (Nat → Nat)

def Tracker.initial (bugMap : Option (Nat → Nat)) : Tracker :=
  { records := fun _ => ⟨false, 0, 0, 0, 0⟩
    nextIdx := 1
    windows := []
    bugMap := bugMap }

def findIn (a : Nat) : List Window → Nat → Option (Nat × Nat)
  | [], _ => none
  | window :: rest, pos =>
    if window.origin ≤ a ∧ a - window.origin < trackedRange then
      some (pos, a - window.origin)
    else findIn a rest (pos + 1)

/-- `__afl_alloc_shadow_find`: which window, and the offset in it. -/
def Tracker.find (t : Tracker) (a : Nat) : Option (Nat × Nat) :=
  findIn a t.windows 0

def freshWindow (a : Nat) : Window :=
  { origin := a / trackedRange * trackedRange, table := fun _ => 0 }

/-- `__afl_alloc_shadow_get_or_init`, with `__afl_alloc_shadow_init`.  What it returns is what
`find` gives afterwards. -/
def Tracker.getOrInit (t : Tracker) (a : Nat) : Tracker :=
  let primed :=
    if t.windows.isEmpty then { t with windows := [freshWindow a] } else t
  match primed.find a with
  | some _ => primed
  | none =>
    if primed.windows.length - 1 ≥ extraWindows then primed
    else { primed with windows := primed.windows ++ [freshWindow a] }

structure Extent where
  window : Nat
  start : Nat
  stop : Nat
  deriving DecidableEq, Repr

/-- The granules of a block that lies in one window; the same lines stand in
`__afl_alloc_shadow_paint`, `__afl_alloc_record_granules` and
`__afl_alloc_shadow_repaint_overlaps`. -/
def Tracker.extent (t : Tracker) (base size : Nat) : Option Extent :=
  if size > trackedRange then none
  else
    match t.find base with
    | none => none
    | some (window, off) =>
      if off > trackedRange - size then none
      else
        let start := off / granuleBytes
        let stop := min ((off + size + (granuleBytes - 1)) / granuleBytes) granuleCount
        if stop ≤ start then none else some ⟨window, start, stop⟩

def Window.fill (window : Window) (start stop idx : Nat) : Window :=
  { window with table := fun g => if start ≤ g ∧ g < stop then idx else window.table g }

def Tracker.fill (t : Tracker) (extent : Extent) (idx : Nat) : Tracker :=
  { t with
    windows := t.windows.modify extent.window
      (fun window => window.fill extent.start extent.stop idx) }

def Tracker.paintExtent (t : Tracker) (base size idx : Nat) : Tracker :=
  match t.extent base size with
  | none => t
  | some extent => t.fill extent idx

def Tracker.paint (t : Tracker) (base size idx : Nat) : Tracker :=
  if size > trackedRange then t
  else
    let ready := if idx ≠ 0 then t.getOrInit base else t
    ready.paintExtent base size idx

def Tracker.value (t : Tracker) (cell : Nat × Nat) : Nat :=
  match t.windows[cell.1]? with
  | none => 0
  | some window => window.table cell.2

/-- The loop of `__afl_alloc_pick_idx`: the record and the next `__afl_alloc_next_idx`. -/
def pickFrom (records : Nat → Record) : Nat → Nat → Nat × Nat
  | 0, next => (0, next)
  | fuel + 1, next =>
    let idx := next % recordCount
    let following := (next + 1) % 2 ^ 32
    if idx = 0 then pickFrom records fuel following
    else if (records idx).inUse = false then (idx, following)
    else pickFrom records fuel following

def Record.contains (record : Record) (a : Nat) : Bool :=
  record.inUse && decide (record.base ≤ a) && decide (a - record.base < record.size)

def Tracker.recordGranules (t : Tracker) (record : Record) : Option Extent :=
  if record.inUse = false ∨ record.size = 0 then none
  else t.extent record.base record.size

def recordIndices : List Nat := List.range' 1 (recordCount - 1)

/-- The body of the loop of `__afl_alloc_shadow_repaint_overlaps`. -/
def Tracker.repaintOverlap (clear : Extent) (t : Tracker) (i : Nat) : Tracker :=
  match t.recordGranules (t.records i) with
  | none => t
  | some extent =>
    if extent.window ≠ clear.window then t
    else if extent.stop ≤ clear.start ∨ extent.start ≥ clear.stop then t
    else t.paint (t.records i).base (t.records i).size i

def Tracker.repaintOverlaps (t : Tracker) (base size : Nat) : Tracker :=
  if size = 0 then t
  else
    match t.extent base size with
    | none => t
    | some clear => recordIndices.foldl (Tracker.repaintOverlap clear) t

def wholeGranules (base size : Nat) : Bool :=
  size ≠ 0 && base % granuleBytes = 0 && size % granuleBytes = 0

/-- `__afl_alloc_register` -/
def Tracker.register (t : Tracker) (ptr size allocSiteId : Nat) : Tracker :=
  if ptr = 0 ∨ size = 0 then t
  else
    let (idx, next) := pickFrom t.records recordCount t.nextIdx
    let picked := { t with nextIdx := next }
    if idx = 0 then picked
    else
      { picked with
        records := Function.update picked.records idx ⟨true, ptr, size, allocSiteId, 0⟩ }.paint
          ptr size idx

def Tracker.shadowAt (t : Tracker) (a : Nat) : Nat :=
  match t.find a with
  | none => 0
  | some (window, off) => t.value (window, off / granuleBytes)

def Tracker.recordOf (t : Tracker) (a : Nat) : Option Nat :=
  let idx := t.shadowAt a
  if idx ≠ 0 ∧ idx < recordCount ∧ (t.records idx).inUse = true ∧
      (t.records idx).base = a then some idx
  else
    recordIndices.find? fun i =>
      (t.records i).inUse && decide ((t.records i).base = a)

/-- The lines of `__afl_alloc_unregister` for the record that was found.  The log of the
size that was observed is not part of the model. -/
def Tracker.release (t : Tracker) (i : Nat) : Tracker :=
  let record := t.records i
  let freed := { t with records := Function.update t.records i { record with inUse := false } }
  let cleared := freed.paint record.base record.size 0
  if wholeGranules record.base record.size then cleared
  else cleared.repaintOverlaps record.base record.size

def Tracker.unregister (t : Tracker) (ptr : Nat) : Tracker :=
  if ptr = 0 then t
  else
    match t.recordOf ptr with
    | none => t
    | some i => t.release i

/-- The loop of `__afl_alloc_find_oracle_record`. -/
def Tracker.scan (t : Tracker) (a window g : Nat) : List Nat → Option Nat → Option Nat
  | [], best => best
  | i :: rest, best =>
    let cand := t.records i
    match t.recordGranules cand with
    | none => t.scan a window g rest best
    | some extent =>
      if extent.window ≠ window then t.scan a window g rest best
      else if g < extent.start ∨ g ≥ extent.stop then t.scan a window g rest best
      else if cand.contains a then some i
      else if a ≥ cand.base ∧ best.all (fun b => cand.base > (t.records b).base) then
        t.scan a window g rest (some i)
      else t.scan a window g rest best

def Tracker.findOracleRecord (t : Tracker) (a window off idx : Nat) : Option Nat :=
  if idx ≠ 0 ∧ idx < recordCount ∧ (t.records idx).contains a then some idx
  else t.scan a window (off / granuleBytes) recordIndices none

def Record.stop (record : Record) : Nat := u64 (record.base + record.size)

def Tracker.oracleRecord (t : Tracker) (a : Nat) : Option Nat :=
  match t.find a with
  | none => none
  | some (window, off) =>
    let idx := t.value (window, off / granuleBytes)
    if idx ≠ 0 then t.findOracleRecord a window off idx
    else if a ≠ 0 then
      match t.find (a - 1) with
      | none => none
      | some (windowPrev, offPrev) =>
        let idxPrev := t.value (windowPrev, offPrev / granuleBytes)
        if idxPrev ≠ 0 then
          (t.findOracleRecord (a - 1) windowPrev offPrev idxPrev).filter
            (fun i => a ≥ (t.records i).stop)
        else none
    else none

structure SoftOob where
  bytes : Nat
  ptr : Nat
  base : Nat
  stop : Nat
  size : Nat
  site : Nat
  off : Nat
  deriving DecidableEq, Repr

def raiseSlot (map : Nat → Nat) (slot v : Nat) : Nat → Nat :=
  fun s => if s = slot ∧ map s < v then v else map s

def proximity (map : Nat → Nat) (site headroom : Nat) : Nat → Nat :=
  let logHeadroom := if headroom = 0 then 0 else Nat.log2 headroom + 1
  let bucket := if logHeadroom > 15 then 15 else logHeadroom
  raiseSlot (raiseSlot map (site * 31 % 2 ^ 32 % bugHalf) (64 - logHeadroom))
    ((site * 1009 % 2 ^ 32 ^^^ bucket * 17) % bugHalf) (bucket + 1)

def storeBytes (storeSize : Nat) : Nat := if storeSize ≠ 0 then storeSize else 1

def Tracker.oracle (t : Tracker) (a storeSize : Nat) : Tracker × Option SoftOob :=
  match t.oracleRecord a with
  | none => (t, none)
  | some i =>
    let record := t.records i
    let stop := record.stop
    let sz := storeBytes storeSize
    let offNow := u64 (a - record.base + sz)
    let seen := { t with
      records := Function.update t.records i
        { record with maxObservedOff := max record.maxObservedOff offNow } }
    if a ≥ stop ∨ sz > stop - a then
      (seen, some ⟨sz, a, record.base, stop, record.size, record.allocSiteId, a - record.base⟩)
    else
      ({ seen with
          bugMap := seen.bugMap.map
            (fun map => proximity map record.allocSiteId (stop - a)) }, none)

structure Block where
  base : Nat
  size : Nat
  deriving DecidableEq, Repr

def Block.Disjoint (block other : Block) : Prop :=
  block.base ≠ other.base ∧
    (block.base + block.size ≤ other.base ∨ other.base + other.size ≤ block.base)

def Block.Valid (block : Block) : Prop := block.base ≠ 0 ∧ block.base + block.size ≤ 2 ^ 64

instance (block other : Block) : Decidable (block.Disjoint other) :=
  inferInstanceAs (Decidable (_ ∧ _))

instance (block : Block) : Decidable block.Valid := inferInstanceAs (Decidable (_ ∧ _))

inductive Call
  | register (block : Block) (allocSiteId : Nat)
  | unregister (ptr : Nat)
  | store (ptr size : Nat)
  deriving DecidableEq, Repr

structure World where
  tracker : Tracker
  live : List Block

def World.initial (bugMap : Option (Nat → Nat)) : World :=
  { tracker := Tracker.initial bugMap, live := [] }

def World.step (w : World) : Call → World
  | .register block allocSiteId =>
    { tracker := w.tracker.register block.base block.size allocSiteId
      live := block :: w.live }
  | .unregister ptr =>
    { tracker := w.tracker.unregister ptr
      live := w.live.filter (fun block => block.base ≠ ptr) }
  | .store ptr size => { w with tracker := (w.tracker.oracle ptr size).1 }

/-- A new block is apart from those the program has.  Freeing an address that has no block,
or zero, is admitted. -/
def World.Proper (w : World) : Call → Prop
  | .register block _ => block.Valid ∧ ∀ other ∈ w.live, block.Disjoint other
  | .unregister _ => True
  | .store _ _ => True

instance (w : World) : (call : Call) → Decidable (w.Proper call)
  | .register block _ =>
    inferInstanceAs (Decidable (block.Valid ∧ ∀ other ∈ w.live, block.Disjoint other))
  | .unregister _ => inferInstanceAs (Decidable True)
  | .store _ _ => inferInstanceAs (Decidable True)

end AflPlusPlus.AllocOracle
