/-
Lists kept in a ring of cells.

A stretch of the ring starts at a position and may run past the last cell into
the first.  A list that fits in the ring is read back as it was written, and the
cells before it stay as they were.
-/

import Mathlib.Data.List.Range
import Mathlib.Logic.Function.Basic

namespace AflPlusPlus.Machine

open List Function

variable {Cell : Type}

def memcpy (cells : Nat → Cell) (start : Nat) : List Cell → Nat → Cell
  | [] => cells
  | item :: rest => memcpy (update cells start item) (start + 1) rest

def block (cells : Nat → Cell) (start count : Nat) : List Cell :=
  (List.range count).map (fun k => cells (start + k))

def inscribe (cap : Nat) (cells : Nat → Cell) (start : Nat) : List Cell → Nat → Cell
  | [] => cells
  | item :: rest =>
    inscribe cap (update cells (start % cap) item) (start + 1) rest

def stretch (cap : Nat) (cells : Nat → Cell) (start count : Nat) : List Cell :=
  (List.range count).map (fun k => cells ((start + k) % cap))

variable {cap : Nat} {cells : Nat → Cell} (start : Nat)

@[simp] theorem length_stretch (count : Nat) :
    (stretch cap cells start count).length = count := by
  simp [stretch]

theorem stretch_append (first second : Nat) :
    stretch cap cells start (first + second) =
      stretch cap cells start first ++ stretch cap cells (start + first) second := by
  simp [stretch, range_add, Nat.add_assoc, Function.comp_def]

@[simp] theorem stretch_mod (count : Nat) :
    stretch cap cells (start % cap) count = stretch cap cells start count := by
  simp [stretch]

variable {count : Nat}

theorem block_eq_stretch (cap : Nat) {start : Nat} (inside : start + count ≤ cap) :
    block cells start count = stretch cap cells start count := by
  apply map_congr_left
  intro k mem
  have below := mem_range.1 mem
  rw [Nat.mod_eq_of_lt (by omega)]

@[simp] theorem inscribe_mod (items : List Cell) :
    inscribe cap cells (start % cap) items = inscribe cap cells start items := by
  induction items generalizing cells start with
  | nil => rfl
  | cons item rest ih =>
    rw [inscribe, inscribe, Nat.mod_mod, ← ih (start % cap + 1), ← ih (start + 1), Nat.mod_add_mod]

theorem inscribe_append (first second : List Cell) :
    inscribe cap cells start (first ++ second) =
      inscribe cap (inscribe cap cells start first) (start + first.length) second := by
  induction first generalizing cells start with
  | nil => rfl
  | cons item rest ih =>
    rw [cons_append, inscribe, ih, length_cons]
    congr 1
    omega

variable {items : List Cell}

theorem memcpy_eq_inscribe (cap : Nat) {start : Nat} (inside : start + items.length ≤ cap) :
    memcpy cells start items = inscribe cap cells start items := by
  induction items generalizing cells start with
  | nil => rfl
  | cons item rest ih =>
    rw [length_cons] at inside
    rw [memcpy, inscribe, Nat.mod_eq_of_lt (by omega), ih (by omega)]

variable {start : Nat}

theorem inscribe_other {k : Nat} (other : ∀ j, j < items.length → (start + j) % cap ≠ k) :
    inscribe cap cells start items k = cells k := by
  induction items generalizing cells start with
  | nil => rfl
  | cons item rest ih =>
    rw [inscribe, ih]
    · exact update_of_ne (Ne.symm (other 0 (by simp))) _ _
    · intro j within
      have later := other (j + 1) (by simpa using within)
      rw [Nat.add_assoc, Nat.add_comm 1 j]
      exact later

theorem lap_ne {near far : Nat} (apart : near < far) (lap : far < near + cap) :
    (start + near) % cap ≠ (start + far) % cap := by
  intro same
  have multiple := Nat.sub_mod_eq_zero_of_mod_eq same.symm
  rw [Nat.mod_eq_of_lt (by omega)] at multiple
  omega

theorem stretch_inscribe_behind (fits : count + items.length ≤ cap) :
    stretch cap (inscribe cap cells (start + count) items) start count =
      stretch cap cells start count := by
  apply map_congr_left
  intro k mem
  have below := mem_range.1 mem
  apply inscribe_other
  intro j within
  rw [Nat.add_assoc]
  exact Ne.symm (lap_ne (by omega) (by omega))

theorem stretch_inscribe (fits : items.length ≤ cap) :
    stretch cap (inscribe cap cells start items) start items.length = items := by
  induction items generalizing cells start with
  | nil => rfl
  | cons item rest ih =>
    rw [length_cons] at fits
    rw [length_cons, Nat.add_comm, stretch_append, inscribe, ih (by omega)]
    have kept : inscribe cap (update cells (start % cap) item) (start + 1)
        rest (start % cap) = item := by
      rw [inscribe_other, update_self]
      intro j within
      have apart : (start + 0) % cap ≠ (start + (1 + j)) % cap := lap_ne (by omega) (by omega)
      rw [Nat.add_assoc]
      exact Ne.symm apart
    simp [stretch, kept]

theorem stretch_update_next (inside : start < cap) (item : Cell) :
    stretch cap (update cells start item) (start + 1) cap =
      (stretch cap cells start cap).tail ++ [item] := by
  obtain ⟨behind, rfl⟩ : ∃ behind, cap = behind + 1 := ⟨cap - 1, by omega⟩
  have lap : (start + 1 + behind) % (behind + 1) = start := by
    rw [Nat.add_assoc, Nat.add_comm 1 _, Nat.add_mod_right, Nat.mod_eq_of_lt inside]
  have written : update cells start item =
      inscribe (behind + 1) cells (start + 1 + behind) [item] := by
    rw [inscribe, inscribe, lap]
  have tail : (stretch (behind + 1) cells start (behind + 1)).tail =
      stretch (behind + 1) cells (start + 1) behind := by
    rw [Nat.add_comm _ 1, stretch_append]
    rfl
  have kept : stretch (behind + 1) (update cells start item) (start + 1) behind =
      stretch (behind + 1) cells (start + 1) behind := by
    rw [written]
    exact stretch_inscribe_behind (by simp)
  rw [stretch_append, tail, kept]
  simp [stretch, lap]

theorem stretch_keep_last {pre : Nat} (blank : Cell)
    (preceding : (start + (cap - 1)) % cap = pre) (pos : 0 < cap) :
    stretch cap (fun k => if k = pre then cells k else blank) start cap =
      List.replicate (cap - 1) blank ++ [cells pre] := by
  obtain ⟨behind, rfl⟩ : ∃ behind, cap = behind + 1 := ⟨cap - 1, by omega⟩
  rw [Nat.add_sub_cancel] at preceding ⊢
  rw [stretch_append]
  congr 1
  · refine eq_replicate_iff.2 ⟨length_stretch _ _, ?_⟩
    intro cell mem
    obtain ⟨k, inRange, rfl⟩ := mem_map.1 mem
    have below := mem_range.1 inRange
    refine if_neg ?_
    rw [← preceding]
    exact lap_ne below (by omega)
  · simp [stretch, preceding]

end AflPlusPlus.Machine
