/-
Cells that remember who covers them.

The table is faithful if a number in a cell always belongs to an owner that covers it, and
a cell that some owner covers is never zero.  A new owner paints its cells over.  When an
owner leaves, every remaining owner that touches one of its cells is painted again.
-/

import Mathlib.Data.List.Basic

namespace AflPlusPlus.Machine

variable {Cell : Type} {covers covers' : Nat → Cell → Prop} {table : Cell → Nat}

/-- No cell names an owner that does not cover it. -/
def Sound (covers : Nat → Cell → Prop) (table : Cell → Nat) : Prop :=
  ∀ cell, table cell ≠ 0 → covers (table cell) cell

structure Faithful (covers : Nat → Cell → Prop) (table : Cell → Nat) : Prop where
  sound : Sound covers table
  complete : ∀ owner cell, covers owner cell → table cell ≠ 0

def paintCells (region : Cell → Prop) [DecidablePred region] (owner : Nat)
    (table : Cell → Nat) : Cell → Nat :=
  fun cell => if region cell then owner else table cell

variable {region : Cell → Prop} {owner : Nat} {cell : Cell}

theorem paintCells_of_mem [DecidablePred region] (inside : region cell) :
    paintCells region owner table cell = owner := if_pos inside

theorem paintCells_of_not_mem [DecidablePred region] (outside : ¬ region cell) :
    paintCells region owner table cell = table cell :=
  if_neg outside

theorem Faithful.add (faithful : Faithful covers table) {region : Cell → Prop}
    [DecidablePred region] {owner : Nat} (pos : owner ≠ 0)
    (added : ∀ other cell, covers' other cell ↔ covers other cell ∨ other = owner ∧ region cell) :
    Faithful covers' (paintCells region owner table) := by
  constructor
  · intro cell named
    by_cases inside : region cell
    · rw [paintCells_of_mem inside]
      exact (added _ _).2 (.inr ⟨rfl, inside⟩)
    · rw [paintCells_of_not_mem inside] at named ⊢
      exact (added _ _).2 (.inl (faithful.sound _ named))
  · intro other cell covered
    by_cases inside : region cell
    · rw [paintCells_of_mem inside]
      exact pos
    · rw [paintCells_of_not_mem inside]
      rcases (added other cell).1 covered with pre | ⟨-, within⟩
      · exact faithful.complete _ _ pre
      · exact absurd within inside

variable (own : ∀ cell, covers owner cell → region cell)

include own

theorem Faithful.clear_sound (faithful : Faithful covers table) [DecidablePred region]
    (removed : ∀ other cell, covers' other cell ↔ covers other cell ∧ other ≠ owner) :
    Sound covers' (paintCells region 0 table) := by
  intro cell named
  by_cases inside : region cell
  · exact absurd (paintCells_of_mem inside) named
  · rw [paintCells_of_not_mem inside] at named ⊢
    have held := faithful.sound _ named
    refine (removed _ _).2 ⟨held, ?_⟩
    intro same
    rw [same] at held
    exact inside (own _ held)

theorem Faithful.clear (faithful : Faithful covers table) [DecidablePred region]
    (removed : ∀ other cell, covers' other cell ↔ covers other cell ∧ other ≠ owner)
    (alone : ∀ other cell, covers' other cell → ¬ region cell) :
    Faithful covers' (paintCells region 0 table) := by
  refine ⟨faithful.clear_sound own removed, ?_⟩
  intro other cell covered
  rw [paintCells_of_not_mem (alone _ _ covered)]
  exact faithful.complete _ _ ((removed _ _).1 covered).1

omit own

def repaint (covers : Nat → Cell → Prop) [∀ owner, DecidablePred (covers owner)]
    (picked : Nat → Prop) [DecidablePred picked] : List Nat → (Cell → Nat) → Cell → Nat
  | [], table => table
  | owner :: rest, table =>
    repaint covers picked rest
      (if picked owner then paintCells (covers owner) owner table else table)

section Repaint

variable [∀ owner, DecidablePred (covers owner)] {picked : Nat → Prop} [DecidablePred picked]

theorem Sound.paint (sound : Sound covers table) (owner : Nat) :
    Sound covers (paintCells (covers owner) owner table) := by
  intro cell named
  by_cases inside : covers owner cell
  · rw [paintCells_of_mem inside]
    exact inside
  · rw [paintCells_of_not_mem inside] at named ⊢
    exact sound _ named

private theorem Sound.repaint (sound : Sound covers table) (owners : List Nat) :
    Sound covers (repaint covers picked owners table) := by
  induction owners generalizing table with
  | nil => exact sound
  | cons owner rest ih =>
    rw [Machine.repaint]
    split
    · exact ih (sound.paint _)
    · exact ih sound

section

variable (owners : List Nat) (pos : ∀ owner ∈ owners, owner ≠ 0)
include owners pos

theorem repaint_ne_zero (cell : Cell) (painted : table cell ≠ 0) :
    repaint covers picked owners table cell ≠ 0 := by
  induction owners generalizing table with
  | nil => exact painted
  | cons owner rest ih =>
    have later := fun other mem => pos other (List.mem_cons_of_mem _ mem)
    refine ih later ?_
    split
    · by_cases inside : covers owner cell
      · rw [paintCells_of_mem inside]
        exact pos _ List.mem_cons_self
      · rw [paintCells_of_not_mem inside]
        exact painted
    · exact painted

private theorem repaint_covered (mem : owner ∈ owners) (pick : picked owner)
    (covered : covers owner cell) : repaint covers picked owners table cell ≠ 0 := by
  induction owners generalizing table with
  | nil => cases mem
  | cons first rest ih =>
    have later := fun other mem => pos other (List.mem_cons_of_mem _ mem)
    rcases List.mem_cons.1 mem with rfl | inRest
    · refine repaint_ne_zero _ later _ ?_
      rw [if_pos pick, paintCells_of_mem covered]
      exact pos _ List.mem_cons_self
    · exact ih later inRest

/-- Painting again every owner that covers a cleared cell makes the table faithful. -/
theorem Faithful.of_repaint (sound : Sound covers table)
    (outside : ∀ owner cell, covers owner cell → ¬ region cell → table cell ≠ 0)
    (all : ∀ owner cell, covers owner cell → region cell → owner ∈ owners ∧ picked owner) :
    Faithful covers (Machine.repaint covers picked owners table) := by
  refine ⟨sound.repaint _, ?_⟩
  intro owner cell covered
  by_cases inside : region cell
  · obtain ⟨mem, pick⟩ := all owner cell covered inside
    exact repaint_covered _ pos mem pick covered
  · exact repaint_ne_zero _ pos _ (outside _ _ covered inside)

end

end Repaint

end AflPlusPlus.Machine
