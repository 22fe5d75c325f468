/-
Byte formats: how a value is laid out in a file, and how it is read back.

A format carries the proof that reading undoes writing and leaves what follows alone.
Blocks of memory are written and read beside the formats.
-/

import AflPlusPlus.Machine.LaneWord

namespace AflPlusPlus.Machine

open LaneWord

def takeBytes (count : Nat) (file : List Byte) : Option (List Byte × List Byte) :=
  if count ≤ file.length then some (file.take count, file.drop count) else none

theorem takeBytes_append {count : Nat} {bytes : List Byte} (len : bytes.length = count)
    (rest : List Byte) : takeBytes count (bytes ++ rest) = some (bytes, rest) := by
  subst len
  simp [takeBytes]

def blockBytes (count : Nat) (memory : Buffer) : List Byte :=
  (List.range count).map memory

variable (count : Nat)

@[simp] theorem length_blockBytes (memory : Buffer) :
    (blockBytes count memory).length = count := by
  simp [blockBytes]

def pour (bytes : List Byte) (memory : Buffer) : Buffer :=
  fun k => bytes.getD k (memory k)

theorem pour_blockBytes (src target : Buffer) (k : Nat) :
    pour (blockBytes count src) target k = if k < count then src k else target k := by
  unfold pour blockBytes
  by_cases inside : k < count
  all_goals simp [inside]

theorem blockBytes_pour (src target : Buffer) :
    blockBytes count (pour (blockBytes count src) target) = blockBytes count src := by
  apply List.map_congr_left
  intro k mem
  have copied := pour_blockBytes count src target k
  rw [if_pos (List.mem_range.1 mem)] at copied
  exact copied

structure Format (Value : Type) where
  write : Value → List Byte
  read : List Byte → Option (Value × List Byte)
  read_write : ∀ v rest, read (write v ++ rest) = some (v, rest)

namespace Format

def word (count : Nat) : Format (BitVec (8 * count)) where
  write v := blockBytes count (laneAt 8 v)
  read file := (takeBytes count file).map
    (fun taken => (ofLanes 8 count (pour taken.1 (fun _ => 0)), taken.2))
  read_write := by
    intro v rest
    rw [takeBytes_append (length_blockBytes count _)]
    have same :
    ofLanes 8 count (pour (blockBytes count (laneAt 8 v)) (fun _ => 0)) = v := by
      apply eq_of_laneAt_eq
      intro idx within
      rw [laneAt_ofLanes 8 count _ idx within, pour_blockBytes, if_pos within]
    rw [Option.map_some, same]

def flag : Format Bool where
  write v := [if v then 1 else 0]
  read
    | [] => none
    | byte :: rest => some (byte != 0, rest)
  read_write := by
    intro v rest
    cases v <;> rfl

def gap (count : Nat) : Format Unit where
  write _ := List.replicate count 0
  read file := (takeBytes count file).map (fun taken => ((), taken.2))
  read_write := by
    intro v rest
    rw [takeBytes_append List.length_replicate]
    rfl

variable {Value Other : Type}

def pair (first : Format Value) (second : Format Other) : Format (Value × Other) where
  write v := first.write v.1 ++ second.write v.2
  read file := do
    let (left, file) ← first.read file
    let (right, file) ← second.read file
    return ((left, right), file)
  read_write := by
    intro v rest
    rw [List.append_assoc, first.read_write]
    change (do let (right, file) ← second.read (second.write v.2 ++ rest)
               return ((v.1, right), file)) = _
    rw [second.read_write]
    rfl

/-- The format of the parts of a value serves for the value. -/
def image (format : Format Value) (parts : Other → Value) (join : Value → Other)
    (join_parts : ∀ v, join (parts v) = v) : Format Other where
  write v := format.write (parts v)
  read file := (format.read file).map (fun found => (join found.1, found.2))
  read_write := by
    intro v rest
    rw [format.read_write, Option.map_some, join_parts]

end Format

end AflPlusPlus.Machine
