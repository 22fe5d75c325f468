/-
The shadow stays faithful to the records.

Over every history of allocations and frees with disjoint blocks, whether or not the tables
are full: each granule of a window holds the number of a live record that covers the
granule, and zero if there is none.
-/

import AflPlusPlus.AllocShadow
import Mathlib.Data.List.Nodup

namespace AflPlusPlus.AllocOracle

open Machine List Function

def home (a : Nat) : Nat := a / trackedRange * trackedRange

theorem in_window_iff {origin a : Nat} (aligned : trackedRange ∣ origin) :
    (origin ≤ a ∧ a - origin < trackedRange) ↔ origin = home a := by
  obtain ⟨k, rfl⟩ := aligned
  unfold home trackedRange
  omega

theorem sub_home (a : Nat) : a - home a = a % trackedRange := by
  unfold home trackedRange
  omega

theorem findIn_congr {windows windows' : List Window}
    (same : windows.map Window.origin = windows'.map Window.origin) (a position : Nat) :
    findIn a windows position = findIn a windows' position := by
  induction windows generalizing windows' position with
  | nil =>
    cases windows' with
    | nil => rfl
    | cons first rest => cases same
  | cons window rest ih =>
    cases windows' with
    | nil => cases same
    | cons first rest' =>
      obtain ⟨origin, later⟩ := List.cons.inj same
      rw [findIn, findIn, origin, ih later]

variable {t t' : Tracker} {a base i size idx position : Nat} {windows : List Window}

private theorem findIn_append_of_some {windows more : List Window} {hit : Nat × Nat}
    (found : findIn a windows position = some hit) :
    findIn a (windows ++ more) position = some hit := by
  induction windows generalizing position with
  | nil => cases found
  | cons window rest ih =>
    rw [findIn] at found
    rw [cons_append, findIn]
    split at found
    case isTrue inside =>
      rw [if_pos inside]
      exact found
    case isFalse outside =>
      rw [if_neg outside]
      exact ih found

private theorem findIn_append_of_none {windows more : List Window}
    (missed : findIn a windows position = none) :
    findIn a (windows ++ more) position = findIn a more (position + windows.length) := by
  induction windows generalizing position with
  | nil => rfl
  | cons window rest ih =>
    rw [findIn] at missed
    rw [cons_append, findIn]
    split at missed
    case isTrue inside => cases missed
    case isFalse outside =>
      rw [if_neg outside, ih missed, length_cons, Nat.add_assoc, Nat.add_comm 1]

section

variable (aligned : ∀ w ∈ windows, trackedRange ∣ w.origin)

include aligned

theorem findIn_eq_some
    {a position window off : Nat} (found : findIn a windows position = some (window, off)) :
    off = a % trackedRange ∧ position ≤ window ∧
      (windows.map Window.origin)[window - position]? = some (home a) := by
  induction windows generalizing position with
  | nil => cases found
  | cons first rest ih =>
    rw [findIn] at found
    split at found
    case isTrue inside =>
      have here := (in_window_iff (aligned _ mem_cons_self)).1 inside
      obtain ⟨rfl, rfl⟩ := Prod.mk.inj (Option.some.inj found)
      rw [here, sub_home]
      refine ⟨rfl, Nat.le_refl _, ?_⟩
      rw [Nat.sub_self, map_cons, List.getElem?_cons_zero, here]
    case isFalse elsewhere =>
      obtain ⟨offset, _, origin⟩ := ih (fun w mem => aligned w (mem_cons_of_mem first mem)) found
      refine ⟨offset, by omega, ?_⟩
      have next : window - position = window - (position + 1) + 1 := by omega
      rw [next, map_cons]
      exact origin

theorem findIn_isSome (position : Nat) (present : home a ∈ windows.map Window.origin) :
    (findIn a windows position).isSome := by
  induction windows generalizing position with
  | nil => cases present
  | cons first rest ih =>
    rw [findIn]
    split
    · rfl
    case isFalse outside =>
      refine ih (fun w mem => aligned w (mem_cons_of_mem _ mem)) _ ?_
      refine (mem_cons.1 present).resolve_left ?_
      intro here
      exact outside ((in_window_iff (aligned _ mem_cons_self)).2 here.symm)

end

def Extent.Has (extent : Extent) (cell : Nat × Nat) : Prop :=
  cell.1 = extent.window ∧ extent.start ≤ cell.2 ∧ cell.2 < extent.stop

instance (extent : Extent) : DecidablePred extent.Has :=
  fun _ => inferInstanceAs (Decidable (_ ∧ _))

theorem extent_congr (same : t.find base = t'.find base) (size : Nat) :
    t.extent base size = t'.extent base size := by
  rw [Tracker.extent, Tracker.extent, same]

def Tracker.Spans (t : Tracker) (base size : Nat) (cell : Nat × Nat) : Prop :=
  ∃ extent ∈ t.extent base size, extent.Has cell

def Tracker.Covers (t : Tracker) (i : Nat) (cell : Nat × Nat) : Prop :=
  i ∈ recordIndices ∧ (t.records i).inUse = true ∧ (t.records i).size ≠ 0 ∧
    t.Spans (t.records i).base (t.records i).size cell

instance (t : Tracker) (base size : Nat) : DecidablePred (t.Spans base size) :=
  fun _ => inferInstanceAs (Decidable (∃ extent ∈ _, _))

instance (t : Tracker) (i : Nat) : DecidablePred (t.Covers i) :=
  fun _ => inferInstanceAs (Decidable (_ ∧ _ ∧ _ ∧ _))

theorem recordGranules_eq_some {record : Record} {extent : Extent} :
    t.recordGranules record = some extent ↔ record.inUse = true ∧ record.size ≠ 0 ∧
        t.extent record.base record.size = some extent := by
  unfold Tracker.recordGranules
  rw [Option.ite_none_left_eq_some, not_or, Bool.not_eq_false, and_assoc]

theorem mem_recordIndices : i ∈ recordIndices ↔ 0 < i ∧ i < recordCount := by
  rw [recordIndices, mem_range'_1]
  omega

private theorem value_fill {extent : Extent} (present : extent.window < t.windows.length) :
    (t.fill extent idx).value = paintCells extent.Has idx t.value := by
  funext ⟨window, g⟩
  unfold Tracker.value Tracker.fill paintCells Extent.Has
  dsimp only
  rw [List.getElem?_modify]
  by_cases here : extent.window = window
  · subst here
    rw [List.getElem?_eq_getElem present]
    by_cases inside : extent.start ≤ g ∧ g < extent.stop
    all_goals simp [Window.fill, inside]
  · have other : window ≠ extent.window := Ne.symm here
    simp [here, other]

private theorem origins_fill {t : Tracker} {extent : Extent} {idx : Nat} :
    (t.fill extent idx).windows.map Window.origin = t.windows.map Window.origin := by
  refine ext_getElem? ?_
  intro position
  unfold Tracker.fill
  rw [List.getElem?_map, List.getElem?_map, List.getElem?_modify, Option.map_eq_map, Option.map_map]
  congr 1
  funext window
  split <;> rfl

structure Aligned (windows : List Window) : Prop where
  aligned : ∀ window ∈ windows, trackedRange ∣ window.origin
  distinct : (windows.map Window.origin).Nodup

theorem freshWindow_aligned (a : Nat) : trackedRange ∣ (freshWindow a).origin :=
  Nat.dvd_mul_left _ _

private theorem Aligned.origin_ne (aligned : Aligned windows) (missed : findIn a windows 0 = none) :
    home a ∉ windows.map Window.origin := by
  intro present
  have found := findIn_isSome aligned.aligned 0 present
  rw [missed] at found
  cases found

theorem Aligned.push {windows : List Window} (aligned : Aligned windows) {a : Nat}
    (missed : findIn a windows 0 = none) : Aligned (windows ++ [freshWindow a]) := by
  constructor
  · intro window mem
    rcases mem_append.1 mem with pre | last
    · exact aligned.aligned _ pre
    · rw [mem_singleton.1 last]
      exact freshWindow_aligned a
  · rw [map_append, nodup_append']
    refine ⟨aligned.distinct, nodup_singleton _, ?_⟩
    intro origin pre last
    rw [mem_singleton.1 last] at pre
    exact aligned.origin_ne missed pre

theorem findIn_push {windows : List Window} {a : Nat} (missed : findIn a windows 0 = none) :
    findIn a (windows ++ [freshWindow a]) 0 = some (windows.length, a % trackedRange) := by
  have same : (freshWindow a).origin = home a := rfl
  have inside := (in_window_iff (freshWindow_aligned a)).2 same
  rw [findIn_append_of_none missed, findIn, if_pos inside, Nat.zero_add]
  exact congrArg _ (Prod.ext rfl (sub_home a))

theorem Tracker.getOrInit_cases (t : Tracker) (a : Nat) :
    (t.getOrInit a = t ∧ ((t.find a).isSome ∨ extraWindows < t.windows.length)) ∨
    t.find a = none ∧ t.windows.length ≤ extraWindows ∧
      t.getOrInit a = { t with windows := t.windows ++ [freshWindow a] } := by
  unfold Tracker.getOrInit
  cases empty : t.windows with
  | nil =>
    have missed : t.find a = none := by rw [Tracker.find, empty, findIn]
    have found : Tracker.find { t with windows := [freshWindow a] } a =
        some (0, a % trackedRange) := @findIn_push [] a rfl
    refine .inr ⟨missed, Nat.zero_le _, ?_⟩
    simp only [isEmpty_nil, if_true, found]
    rfl
  | cons window rest =>
    simp only [isEmpty_cons, Bool.false_eq_true, if_false]
    cases found : t.find a with
    | some hit =>
      exact .inl ⟨rfl, .inl rfl⟩
    | none =>
      dsimp only
      rw [empty]
      split
      case isTrue full =>
        refine .inl ⟨rfl, .inr ?_⟩
        unfold extraWindows at full ⊢
        omega
      case isFalse room =>
        refine .inr ⟨rfl, ?_, rfl⟩
        omega

private theorem Tracker.getOrInit_records (t : Tracker) (a : Nat) :
    (t.getOrInit a).records = t.records := by
  rcases t.getOrInit_cases a with ⟨same, -⟩ | ⟨-, -, added⟩
  · rw [same]
  · rw [added]

private theorem Tracker.getOrInit_value (t : Tracker) (a : Nat) :
    (t.getOrInit a).value = t.value := by
  rcases t.getOrInit_cases a with ⟨same, -⟩ | ⟨-, -, added⟩
  · rw [same]
  · rw [added]
    funext ⟨window, g⟩
    unfold Tracker.value
    rcases Nat.lt_trichotomy window t.windows.length with pre | last | behind
    · rw [List.getElem?_append_left pre]
    · subst last
      rw [List.getElem?_concat_length, List.getElem?_eq_none (Nat.le_refl _)]
      rfl
    · rw [List.getElem?_eq_none (Nat.le_of_lt behind), List.getElem?_eq_none]
      rw [length_append]
      exact behind

private theorem Tracker.getOrInit_find {a other : Nat}
    (settled : (t.find other).isSome ∨ extraWindows < t.windows.length) :
    (t.getOrInit a).find other = t.find other := by
  rcases t.getOrInit_cases a with ⟨same, -⟩ | ⟨-, room, added⟩
  · rw [same]
  · rw [added]
    have present : (t.find other).isSome := settled.resolve_right (Nat.not_lt.2 room)
    obtain ⟨_, found⟩ := Option.isSome_iff_exists.1 present
    rw [found]
    exact findIn_append_of_some found

private theorem Tracker.getOrInit_settled (t : Tracker) (a : Nat) :
    ((t.getOrInit a).find a).isSome ∨ extraWindows < (t.getOrInit a).windows.length := by
  rcases t.getOrInit_cases a with ⟨same, settled⟩ | ⟨missed, -, added⟩
  · rw [same]
    exact settled
  · rw [added]
    left
    have found := findIn_push missed
    rw [Tracker.find, found]
    rfl

theorem Tracker.getOrInit_found (room : (t.find a).isSome ∨ t.windows.length ≤ extraWindows) :
    ((t.getOrInit a).find a).isSome := by
  rcases t.getOrInit_cases a with ⟨same, settled⟩ | ⟨missed, -, added⟩
  · rw [same]
    rcases settled with found | full
    · exact found
    · exact room.resolve_right (Nat.not_le.2 full)
  · rw [added]
    exact Option.isSome_iff_exists.2 ⟨_, findIn_push missed⟩

variable (aligned : Aligned t.windows)

include aligned

private theorem Tracker.getOrInit_windows (a : Nat) :
    Aligned (t.getOrInit a).windows ∧ t.windows.length ≤ (t.getOrInit a).windows.length := by
  rcases t.getOrInit_cases a with ⟨same, -⟩ | ⟨missed, -, added⟩
  · rw [same]
    exact ⟨aligned, Nat.le_refl _⟩
  · rw [added]
    refine ⟨aligned.push missed, ?_⟩
    rw [length_append]
    exact Nat.le_add_right _ _

private theorem find_window_lt {a window off : Nat} (found : t.find a = some (window, off)) :
    window < t.windows.length := by
  obtain ⟨-, -, origin⟩ := findIn_eq_some aligned.aligned found
  have below := (List.getElem?_eq_some_iff.1 origin).1
  rwa [length_map] at below

omit aligned

theorem extent_eq_some {extent : Extent} (measured : t.extent base size = some extent) :
    size ≤ trackedRange ∧ ∃ off, t.find base = some (extent.window, off) ∧
      off + size ≤ trackedRange ∧ extent.start = off / granuleBytes ∧
      extent.stop = min ((off + size + (granuleBytes - 1)) / granuleBytes) granuleCount := by
  unfold Tracker.extent at measured
  split at measured
  case isTrue large => cases measured
  case isFalse small =>
    split at measured
    case h_1 missed => cases measured
    case h_2 window off found =>
      split at measured
      case isTrue straddles => cases measured
      case isFalse inside =>
        dsimp only at measured
        split at measured
        case isTrue empty => cases measured
        case isFalse nonempty =>
          obtain rfl := Option.some.inj measured
          exact ⟨Nat.le_of_not_lt small, off, found, by omega, rfl, rfl⟩

/-- The windows, the records and the shadow fit together.  A record without a window never
gets one. -/
structure Tracker.Ok (t : Tracker) : Prop where
  windows : Aligned t.windows
  windowed : ∀ i ∈ recordIndices, (t.records i).inUse = true →
    (t.records i).size ≤ trackedRange → (t.find (t.records i).base).isSome ∨
        extraWindows < t.windows.length
  painted : Faithful t.Covers t.value

theorem Tracker.initial_ok (bugMap : Option (Nat → Nat)) : (Tracker.initial bugMap).Ok := by
  refine ⟨⟨nofun, nodup_nil⟩, nofun, ⟨?_, ?_⟩⟩
  · intro cell named
    exact absurd rfl named
  · rintro owner cell ⟨-, used, -⟩
    cases used

theorem spans_congr (same : t.find base = t'.find base) (size : Nat) (cell : Nat × Nat) :
    t.Spans base size cell ↔ t'.Spans base size cell := by
  rw [Tracker.Spans, Tracker.Spans, extent_congr same]

theorem not_spans_of_large (large : trackedRange < size) (cell : Nat × Nat) :
    ¬ t.Spans base size cell := by
  rintro ⟨_, measured, -⟩
  exact absurd (extent_eq_some measured).1 (Nat.not_le.2 large)

theorem paintCells_none {region : Nat × Nat → Prop} [DecidablePred region] {table : Nat × Nat → Nat}
    (empty : ∀ cell, ¬ region cell) :
    paintCells region idx table = table := by
  funext cell
  exact paintCells_of_not_mem (empty _)

include aligned in
theorem paintExtent_value (base size idx : Nat) :
    (t.paintExtent base size idx).value = paintCells (t.Spans base size) idx t.value := by
  unfold Tracker.paintExtent
  cases measured : t.extent base size with
  | none =>
    refine (paintCells_none ?_).symm
    rintro cell ⟨extent, present, -⟩
    rw [measured] at present
    cases present
  | some extent =>
    obtain ⟨-, _, found, -⟩ := extent_eq_some measured
    rw [value_fill (find_window_lt aligned found)]
    funext cell
    have same : extent.Has cell ↔ t.Spans base size cell := by
      unfold Tracker.Spans
      rw [measured]
      simp
    by_cases inside : extent.Has cell
    · rw [paintCells_of_mem inside, paintCells_of_mem (same.1 inside)]
    · rw [paintCells_of_not_mem inside, paintCells_of_not_mem (fun has => inside (same.2 has))]

theorem paintExtent_frame (t : Tracker) (base size idx : Nat) :
    (t.paintExtent base size idx).records = t.records ∧
      (t.paintExtent base size idx).windows.map Window.origin = t.windows.map Window.origin := by
  unfold Tracker.paintExtent
  cases t.extent base size with
  | none => exact ⟨rfl, rfl⟩
  | some extent => exact ⟨rfl, origins_fill⟩

theorem Aligned.congr {windows windows' : List Window} (aligned : Aligned windows)
    (same : windows'.map Window.origin = windows.map Window.origin) : Aligned windows' := by
  refine ⟨?_, same ▸ aligned.distinct⟩
  intro window mem
  have present : window.origin ∈ windows.map Window.origin := same ▸ mem_map_of_mem mem
  obtain ⟨_, pre, equal⟩ := mem_map.1 present
  rw [← equal]
  exact aligned.aligned _ pre

structure Paints (pre post : Tracker) (base size idx : Nat) : Prop where
  records : post.records = pre.records
  windows : Aligned post.windows
  length : pre.windows.length ≤ post.windows.length
  find : ∀ other, (pre.find other).isSome ∨ extraWindows < pre.windows.length →
    post.find other = pre.find other
  settled : size ≤ trackedRange → (post.find base).isSome ∨ extraWindows < post.windows.length
  found : size ≤ trackedRange →
    (pre.find base).isSome ∨ pre.windows.length ≤ extraWindows → (post.find base).isSome
  value : post.value = paintCells (post.Spans base size) idx pre.value

theorem paint_paints {t : Tracker} (aligned : Aligned t.windows) (base size : Nat)
    {idx : Nat} (pos : idx ≠ 0) :
    Paints t (t.paint base size idx) base size idx := by
  unfold Tracker.paint
  by_cases large : size > trackedRange
  · rw [if_pos large]
    refine ⟨rfl, aligned, Nat.le_refl _, fun _ _ => rfl, ?_, ?_, ?_⟩
    · intro small
      exact absurd large (Nat.not_lt.2 small)
    · intro small
      exact absurd large (Nat.not_lt.2 small)
    · exact (paintCells_none (not_spans_of_large large)).symm
  · rw [if_neg large, if_pos pos]
    obtain ⟨ready, longer⟩ := Tracker.getOrInit_windows aligned base
    have settled := t.getOrInit_settled base
    have v := paintExtent_value ready base size idx
    obtain ⟨records, origins⟩ := paintExtent_frame (t.getOrInit base) base size idx
    generalize (t.getOrInit base).paintExtent base size idx = painted at v records origins ⊢
    have find (other : Nat) : painted.find other = (t.getOrInit base).find other :=
      findIn_congr origins _ 0
    have len : painted.windows.length = (t.getOrInit base).windows.length := by
      simpa using congrArg List.length origins
    refine ⟨?_, ready.congr origins, ?_, ?_, ?_, ?_, ?_⟩
    · rw [records, t.getOrInit_records]
    · rw [len]
      exact longer
    · intro other known
      rw [find, Tracker.getOrInit_find known]
    · intro _
      rw [find, len]
      exact settled
    · intro _ room
      rw [find]
      exact Tracker.getOrInit_found room
    · rw [v, t.getOrInit_value]
      funext cell
      unfold paintCells
      simp only [spans_congr (find base) size cell]

theorem pos_of_mem_recordIndices (index : i ∈ recordIndices) : i ≠ 0 :=
  Nat.ne_of_gt (mem_recordIndices.1 index).1

private theorem Tracker.Ok.spans_paint {t post : Tracker} (ok : t.Ok) {records : Nat → Record}
    (paints : Paints { t with records } post base size idx) {j : Nat}
    (index : j ∈ recordIndices) (used : (t.records j).inUse = true) (cell : Nat × Nat) :
    post.Spans (t.records j).base (t.records j).size cell ↔
      t.Spans (t.records j).base (t.records j).size cell := by
  by_cases large : trackedRange < (t.records j).size
  · exact iff_of_false (not_spans_of_large large _) (not_spans_of_large large _)
  · have known := ok.windowed j index used (Nat.le_of_not_lt large)
    exact spans_congr (paints.find _ known) _ _

theorem Tracker.Ok.add {t : Tracker} (ok : t.Ok) {i : Nat} (index : i ∈ recordIndices)
    (free : (t.records i).inUse = false) {record : Record} (used : record.inUse = true)
    (some : record.size ≠ 0) :
    (Tracker.paint { t with records := update t.records i record }
      record.base record.size i).Ok := by
  have pos := pos_of_mem_recordIndices index
  have paints := @paint_paints { t with records := update t.records i record }
    ok.windows record.base record.size i pos
  generalize Tracker.paint { t with records := update t.records i record }
    record.base record.size i = post at paints ⊢
  have own : post.records i = record := by
    rw [paints.records]
    exact update_self i _ t.records
  have other {j : Nat} (ne : j ≠ i) : post.records j = t.records j := by
    rw [paints.records]
    exact update_of_ne ne _ t.records
  refine ⟨paints.windows, ?_, ?_⟩
  · intro j inside inUse small
    by_cases same : j = i
    · subst same
      rw [own] at small ⊢
      exact paints.settled small
    · rw [other same] at inUse small ⊢
      have known := ok.windowed j inside inUse small
      rw [paints.find _ known]
      exact known.imp_right (fun full => Nat.lt_of_lt_of_le full paints.length)
  · rw [paints.value]
    refine ok.painted.add pos ?_
    intro j cell
    by_cases same : j = i
    · subst same
      have pre : ¬ t.Covers j cell := by
        rintro ⟨-, inUse, -⟩
        rw [free] at inUse
        cases inUse
      constructor
      · rintro ⟨-, -, -, spans⟩
        rw [own] at spans
        exact .inr ⟨rfl, spans⟩
      · rintro (covered | ⟨-, spans⟩)
        · exact absurd covered pre
        · unfold Tracker.Covers
          rw [own]
          exact ⟨index, used, some, spans⟩
    · simp only [same, false_and, or_false]
      unfold Tracker.Covers
      rw [other same]
      constructor
      · rintro ⟨inside, inUse, nonempty, spans⟩
        exact ⟨inside, inUse, nonempty, (ok.spans_paint paints inside inUse _).1 spans⟩
      · rintro ⟨inside, inUse, nonempty, spans⟩
        exact ⟨inside, inUse, nonempty, (ok.spans_paint paints inside inUse _).2 spans⟩

private theorem paint_zero :
    t.paint base size 0 = t.paintExtent base size 0 := by
  unfold Tracker.paint
  by_cases large : size > trackedRange
  · rw [if_pos large, Tracker.paintExtent, Tracker.extent, if_pos large]
  · rw [if_neg large, if_neg (not_not_intro rfl)]

private theorem paint_of_extent {extent : Extent} (measured : t.extent base size = some extent) :
    t.paint base size idx = t.paintExtent base size idx := by
  obtain ⟨small, _, found, -⟩ := extent_eq_some measured
  have same : t.getOrInit base = t := by
    rcases t.getOrInit_cases _ with ⟨same, -⟩ | ⟨missed, -⟩
    · exact same
    · rw [found] at missed
      cases missed
  unfold Tracker.paint
  rw [if_neg (Nat.not_lt.2 small), same, ite_self]

structure SameLayout (t t' : Tracker) : Prop where
  records : t'.records = t.records
  origins : t'.windows.map Window.origin = t.windows.map Window.origin

section

variable (same : SameLayout t t')
include same

theorem SameLayout.spans (base size : Nat) (cell : Nat × Nat) :
    t'.Spans base size cell ↔ t.Spans base size cell :=
  spans_congr (findIn_congr same.origins base 0) size cell

theorem SameLayout.extent (base size : Nat) :
    t'.extent base size = t.extent base size :=
  extent_congr (findIn_congr same.origins base 0) size

theorem SameLayout.covers (i : Nat) (cell : Nat × Nat) :
    t'.Covers i cell ↔ t.Covers i cell := by
  unfold Tracker.Covers
  rw [same.records, same.spans]

theorem SameLayout.paintExtent (base size idx : Nat) :
    SameLayout t (t'.paintExtent base size idx) := by
  obtain ⟨records, origins⟩ := paintExtent_frame t' base size idx
  exact ⟨records.trans same.records, origins.trans same.origins⟩

end

def Extent.Overlaps (extent clear : Extent) : Prop :=
  extent.window = clear.window ∧ clear.start < extent.stop ∧ extent.start < clear.stop

def Tracker.Picked (t : Tracker) (clear : Extent) (i : Nat) : Prop :=
  ∃ extent ∈ t.recordGranules (t.records i), extent.Overlaps clear

instance (extent clear : Extent) : Decidable (extent.Overlaps clear) :=
  inferInstanceAs (Decidable (_ ∧ _ ∧ _))

instance (t : Tracker) (clear : Extent) : DecidablePred (t.Picked clear) :=
  fun _ => inferInstanceAs (Decidable (∃ extent ∈ _, _))

include aligned

private theorem repaintOverlap_spec (same : SameLayout t t') (clear : Extent)
    (index : i ∈ recordIndices) :
    SameLayout t (t'.repaintOverlap clear i) ∧ (t'.repaintOverlap clear i).value =
        if t.Picked clear i then paintCells (t.Covers i) i t'.value
        else t'.value := by
  have granules : t'.recordGranules (t'.records i) = t.recordGranules (t.records i) := by
    rw [Tracker.recordGranules, Tracker.recordGranules, same.records, same.extent]
  unfold Tracker.repaintOverlap
  rw [granules, same.records]
  cases measured : t.recordGranules (t.records i) with
  | none =>
    have passed : ¬ t.Picked clear i := by
      rintro ⟨extent, present, -⟩
      rw [measured] at present
      cases present
    rw [if_neg passed]
    exact ⟨same, rfl⟩
  | some extent =>
    obtain ⟨used, some, extents⟩ := recordGranules_eq_some.1 measured
    have picked : t.Picked clear i ↔ extent.Overlaps clear := by
      unfold Tracker.Picked
      rw [measured]
      simp
    by_cases meets : extent.Overlaps clear
    · have covers (cell : Nat × Nat) : t'.Spans (t.records i).base
          (t.records i).size cell ↔ t.Covers i cell := by
        rw [same.spans]
        exact ⟨fun spans => ⟨index, used, some, spans⟩, fun covered => covered.2.2.2⟩
      rw [if_pos (picked.2 meets)]
      obtain ⟨window, _, _⟩ := meets
      dsimp only
      rw [if_neg (not_not_intro window), if_neg (by omega),
        paint_of_extent (by rw [same.extent]; exact extents)]
      refine ⟨same.paintExtent _ _ i, ?_⟩
      rw [paintExtent_value (aligned.congr same.origins)]
      funext cell
      unfold paintCells
      simp only [covers]
    · rw [if_neg (fun pick => meets (picked.1 pick))]
      dsimp only
      split
      · exact ⟨same, rfl⟩
      case isFalse window =>
        rw [if_pos (by unfold Extent.Overlaps at meets; omega)]
        exact ⟨same, rfl⟩

private theorem repaintLoop_spec (same : SameLayout t t')
    (clear : Extent) (indices : List Nat) (inside : ∀ i ∈ indices, i ∈ recordIndices) :
    SameLayout t (indices.foldl (Tracker.repaintOverlap clear) t') ∧
      (indices.foldl (Tracker.repaintOverlap clear) t').value =
        repaint t.Covers (t.Picked clear) indices t'.value := by
  induction indices generalizing t' with
  | nil => exact ⟨same, rfl⟩
  | cons i rest ih =>
    obtain ⟨still, v⟩ := repaintOverlap_spec aligned same clear (inside i mem_cons_self)
    obtain ⟨final, painted⟩ := ih still (fun j mem => inside j (mem_cons_of_mem i mem))
    rw [v] at painted
    exact ⟨final, painted⟩

omit aligned

theorem Extent.Has.overlaps {extent clear : Extent} {cell : Nat × Nat} (has : extent.Has cell)
    (cleared : clear.Has cell) : extent.Overlaps clear := by
  obtain ⟨window, _, _⟩ := has
  obtain ⟨same, from', _'⟩ := cleared
  exact ⟨window.symm.trans same, by omega, by omega⟩

def Tracker.freed (t : Tracker) (i : Nat) : Tracker :=
  { t with
    records := update t.records i { t.records i with inUse := false } }

theorem freed_own (t : Tracker) (i : Nat) :
    (t.freed i).records i = { t.records i with inUse := false } :=
  update_self ..

theorem freed_other (t : Tracker) {i j : Nat} (ne : j ≠ i) :
    (t.freed i).records j = t.records j :=
  update_of_ne ne ..

private theorem freed_covers {t : Tracker} {i : Nat} (j : Nat) (cell : Nat × Nat) :
    (t.freed i).Covers j cell ↔ t.Covers j cell ∧ j ≠ i := by
  have spans (base size : Nat) : (t.freed i).Spans base size cell ↔
      t.Spans base size cell := Iff.rfl
  unfold Tracker.Covers
  by_cases same : j = i
  · subst same
    rw [freed_own]
    simp
  · rw [freed_other _ same, spans]
    simp [same]

variable (ok : t.Ok) (some : (t.records i).size ≠ 0)
  (alone : wholeGranules (t.records i).base (t.records i).size = true →
    ∀ j cell, j ≠ i → t.Covers j cell → ¬ t.Spans (t.records i).base (t.records i).size cell)
include ok some alone

private theorem Tracker.Ok.release_spec :
    SameLayout (t.freed i) (t.release i) ∧ Faithful (t.freed i).Covers (t.release i).value := by
  have aligned : Aligned (t.freed i).windows := ok.windows
  have itself : SameLayout (t.freed i) (t.freed i) := ⟨rfl, rfl⟩
  have cleared := itself.paintExtent (t.records i).base (t.records i).size 0
  have v := paintExtent_value aligned (t.records i).base (t.records i).size 0
  have own (cell : Nat × Nat) (covered : t.Covers i _) :
      (t.freed i).Spans (t.records i).base (t.records i).size cell :=
    covered.2.2.2
  change SameLayout _ (if wholeGranules _ _ = true then Tracker.paint (t.freed i) _ _ 0
      else (Tracker.paint (t.freed i) _ _ 0).repaintOverlaps _ _) ∧
    Faithful _ (Tracker.value (if wholeGranules _ _ = true then
      Tracker.paint (t.freed i) _ _ 0
      else (Tracker.paint (t.freed i) _ _ 0).repaintOverlaps _ _))
  rw [paint_zero]
  split
  case isTrue whole =>
    refine ⟨cleared, ?_⟩
    rw [v]
    refine ok.painted.clear own freed_covers ?_
    intro j cell covered
    obtain ⟨pre, ne⟩ := (freed_covers j cell).1 covered
    exact alone whole j _ ne pre
  case isFalse shared =>
    have sound := ok.painted.clear_sound own (@freed_covers _ i)
    have outside (j : Nat) (cell : Nat × Nat) (covered : (t.freed i).Covers j cell)
        (kept : ¬ (t.freed i).Spans (t.records i).base (t.records i).size cell) :
        paintCells ((t.freed i).Spans (t.records i).base (t.records i).size) 0
          t.value cell ≠ 0 := by
      rw [paintCells_of_not_mem kept]
      exact ok.painted.complete j _ ((freed_covers j _).1 covered).1
    unfold Tracker.repaintOverlaps
    rw [if_neg some, cleared.extent]
    cases measured : (t.freed i).extent (t.records i).base (t.records i).size with
    | none =>
      -- the block had no granules: nothing was cleared
      refine ⟨cleared, ?_⟩
      rw [v]
      refine ⟨sound, ?_⟩
      intro j cell covered
      refine outside j _ covered ?_
      rintro ⟨extent, present, -⟩
      rw [measured] at present
      cases present
    | some clear =>
      obtain ⟨final, painted⟩ := repaintLoop_spec aligned cleared clear recordIndices
        (fun _ mem => mem)
      refine ⟨final, ?_⟩
      rw [painted, v]
      refine Faithful.of_repaint _ (fun _ => pos_of_mem_recordIndices) sound outside ?_
      rintro j cell ⟨inside, used, nonempty, extent, present, has⟩ ⟨other, isClear, cleared⟩
      obtain rfl : clear = other := Option.some.inj (measured.symm.trans isClear)
      exact ⟨inside, extent, recordGranules_eq_some.2 ⟨used, nonempty, present⟩,
        has.overlaps cleared⟩

theorem Tracker.Ok.release :
    SameLayout (t.freed i) (t.release i) ∧ (t.release i).Ok := by
  obtain ⟨same, painted⟩ := ok.release_spec some alone
  have aligned : Aligned (t.freed i).windows := ok.windows
  have len : (t.release i).windows.length = (t.freed i).windows.length := by
    simpa using congrArg List.length same.origins
  refine ⟨same, aligned.congr same.origins, ?_, ?_⟩
  · intro j inside used small
    have find : (t.release i).find ((t.release i).records j).base =
        t.find ((t.release i).records j).base := findIn_congr same.origins _ 0
    rw [find, len]
    rw [same.records] at used small ⊢
    by_cases own : j = i
    · subst own
      rw [freed_own] at used
      cases used
    · rw [freed_other _ own] at used small ⊢
      exact ok.windowed j inside used small
  · refine ⟨?_, ?_⟩
    · intro cell named
      exact (same.covers _ _).2 (painted.sound _ named)
    · intro j cell covered
      exact painted.complete j _ ((same.covers j _).1 covered)

end AflPlusPlus.AllocOracle
