/-
Texts under insertions and deletions of blocks, and where an edit moves a cell.

The position map of an edit says where a cell goes, and a cell found at its new position
is the cell that was there before.
-/

import AflPlusPlus.Machine.GuardedRun

namespace AflPlusPlus.Machine

variable {Cell : Type}

/-- Cells past `len` are memory the text does not own. -/
structure Text (Cell : Type) where
  len : Nat
  cell : Nat → Cell

inductive Edit (Cell : Type) where
  | insert (start count : Nat) (data : Nat → Cell)
  | delete (start count : Nat)

variable (edit : Edit Cell) (text : Text Cell)

namespace Edit

/-- The block lies within a text of this length. -/
def Fits (len : Nat) : Edit Cell → Prop
  | insert start _ _ => start ≤ len
  | delete start count => start + count ≤ len

def apply (text : Text Cell) : Edit Cell → Text Cell
  | insert start count data =>
    { len := text.len + count
      cell := fun place =>
        if place < start then text.cell place
        else if place < start + count then data (place - start)
        else text.cell (place - count) }
  | delete start count =>
    { len := text.len - count
      cell := fun place =>
        if place < start then text.cell place else text.cell (place + count) }

/-- Where the cell at a position goes; nowhere if it is deleted. -/
def move : Edit Cell → Nat → Option Nat
  | insert start count _, place => some (if place < start then place else place + count)
  | delete start count, place =>
    if place < start then some place
    else if place < start + count then none
    else some (place - count)

theorem move_inj {first second place : Nat}
    (fromFirst : edit.move first = some place) (fromSecond : edit.move second = some place) :
    first = second := by
  cases edit with
  | insert start count data =>
    simp only [move, Option.some.injEq] at fromFirst fromSecond
    split at fromFirst <;> split at fromSecond <;> omega
  | delete start count =>
    simp only [move] at fromFirst fromSecond
    split at fromFirst <;> split at fromSecond <;>
      simp_all only [Option.some.injEq, Option.ite_none_left_eq_some] <;> omega

private theorem cell_move {place target : Nat} (moved : edit.move place = some target) :
    (apply text edit).cell target = text.cell place := by
  cases edit with
  | insert start count data =>
    simp only [move, Option.some.injEq] at moved
    subst moved
    by_cases pre : place < start
    · simp only [apply, if_pos pre]
    · simp only [apply, if_neg pre]
      rw [if_neg (by omega), if_neg (by omega), Nat.add_sub_cancel]
  | delete start count =>
    simp only [move] at moved
    by_cases pre : place < start
    · simp only [if_pos pre, Option.some.injEq] at moved
      subst moved
      simp only [apply, if_pos pre]
    · simp only [if_neg pre, Option.ite_none_left_eq_some, Option.some.injEq] at moved
      simp only [apply]
      rw [if_neg (by omega)]
      congr 1
      omega

end Edit

def lengthAfter (len : Nat) (edits : List (Edit Cell)) : Nat :=
  runFrom (fun len edit =>
    match edit with
    | .insert _ count _ => len + count
    | .delete _ count => len - count) len edits

variable (edits : List (Edit Cell))

theorem runFrom_apply_len :
    (runFrom Edit.apply text edits).len = lengthAfter text.len edits := by
  induction edits generalizing text with
  | nil => rfl
  | cons edit rest ih =>
    cases edit with
    | insert start count data | delete start count => exact ih _

theorem lengthAfter_append (len : Nat) (first second : List (Edit Cell)) :
    lengthAfter len (first ++ second) = lengthAfter (lengthAfter len first) second :=
  List.foldl_append

def moveAll : List (Edit Cell) → Nat → Option Nat
  | [], place => some place
  | edit :: rest, place => (edit.move place).bind (moveAll rest)

@[simp] theorem moveAll_nil (place : Nat) :
    moveAll ([] : List (Edit Cell)) place = some place := rfl

@[simp] theorem moveAll_cons (rest : List (Edit Cell)) (place : Nat) :
    moveAll (edit :: rest) place = (edit.move place).bind (moveAll rest) := rfl

theorem cell_moveAll (text : Text Cell) {place target : Nat}
    (moved : moveAll edits place = some target) :
    (runFrom Edit.apply text edits).cell target = text.cell place := by
  induction edits generalizing text place with
  | nil =>
    cases moved
    rfl
  | cons edit rest ih =>
    obtain ⟨_, first, later⟩ := Option.bind_eq_some_iff.mp moved
    exact (ih (Edit.apply _ _) later).trans (edit.cell_move _ first)

end AflPlusPlus.Machine
