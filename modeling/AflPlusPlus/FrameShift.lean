/-
The size-field relations of FrameShift (`afl-fuzz-frameshift.c`).

A relation says that the field of `size` bytes at `pos` holds the distance from `anchor`
to `insert`.  Positions and values are 64-bit machine words, kept as naturals; a sum that
the C code forms in a 64-bit word is reduced.
-/

import AflPlusPlus.Machine.CountedLoop
import AflPlusPlus.Machine.Tally
import AflPlusPlus.Machine.TextEdit
import Mathlib.Data.List.Forall2
import Mathlib.Data.Nat.Bitwise

namespace AflPlusPlus.FrameShift

open Machine Function

theorem u64_of_lt {v : Nat} (small : v < 2 ^ 64) : u64 v = v :=
  Nat.mod_eq_of_lt small

/-- `fs_relation_t`.  The templates the search tries have one, two, four or eight
bytes, so a field never exceeds a 64-bit word. -/
structure Relation where
  pos : Nat
  val : Nat
  anchor : Nat
  insert : Nat
  oldPos : Nat
  oldVal : Nat
  oldAnchor : Nat
  oldInsert : Nat
  size : Nat
  le : Bool
  enabled : Bool
  size_le : size ≤ 8
  deriving DecidableEq, Repr

def Relation.grown (rel : Relation) (size : Nat) : Nat :=
  if rel.size < 8 then u64 (rel.val + size) &&& ((1 <<< (rel.size * 8)) - 1)
  else u64 (rel.val + size)

/-- The insertion falls between anchor and insert, ends included. -/
def Relation.Counts (rel : Relation) (idx : Nat) : Prop :=
  rel.anchor ≤ idx ∧ idx ≤ rel.insert

instance (rel : Relation) (idx : Nat) : Decidable (rel.Counts idx) :=
  inferInstanceAs (Decidable (_ ∧ _))

/-- `rel_on_insert`: the flag is the return value.  A value that overflowed its
field has been stored by the time the error is returned. -/
def relOnInsert (rel : Relation) (idx size : Nat) : Bool × Relation :=
  if rel.pos < idx ∧ idx < u64 (rel.pos + rel.size) then (true, rel)
  else if rel.Counts idx ∧ rel.grown size < rel.val then
      (true, { rel with val := rel.grown size })
    else
      (false, { rel with
        val := if rel.Counts idx then rel.grown size else rel.val
        pos := if idx ≤ rel.pos then u64 (rel.pos + size) else rel.pos
        anchor := if idx < rel.anchor then u64 (rel.anchor + size) else rel.anchor
        insert := if idx ≤ rel.insert then u64 (rel.insert + size) else rel.insert })

/-- `pre_pos`, `pre_anchor`, `pre_insert`: how much of a removal lies before a point. -/
def removedBefore (point idx size : Nat) : Nat :=
  if idx < point then min (point - idx) size else 0

def Relation.overlap (rel : Relation) (idx size : Nat) : Nat :=
  let a := max idx rel.anchor
  let b := min (u64 (idx + size)) rel.insert
  if a < b then b - a else 0

/-- `rel_on_remove`.  No subtraction can go below zero: each is clipped first. -/
def relOnRemove (rel : Relation) (idx size : Nat) : Bool × Relation :=
  if idx < u64 (rel.pos + rel.size) ∧ rel.pos < u64 (idx + size) then (true, rel)
  else
    if rel.val < rel.overlap idx size then (true, rel)
    else
      (false, { rel with
        val := rel.val - rel.overlap idx size
        pos := rel.pos - removedBefore rel.pos idx size
        anchor := rel.anchor - removedBefore rel.anchor idx size
        insert := rel.insert - removedBefore rel.insert idx size })

/-- `(u8)(val >> (i * 8))` -/
def valueByte (val i : Nat) : Byte := BitVec.ofNat 8 (val >>> (i * 8))

def relApply (buf : Buffer) (rel : Relation) : Buffer :=
  if rel.le then
    forUpto rel.size (fun i buf => update buf (rel.pos + i) (valueByte rel.val i)) buf
  else
    forUpto rel.size
      (fun i buf => update buf (rel.pos + rel.size - 1 - i) (valueByte rel.val i)) buf

def decodeValue (buf : Buffer) (size : Nat) (le : Bool) : Nat :=
  if le then forUpto size (fun i val => val ||| (buf i).toNat <<< (i * 8)) 0
  else forUpto size (fun i val => val ||| (buf (size - 1 - i)).toNat <<< (i * 8)) 0

def relSave (rel : Relation) : Relation :=
  { rel with
    oldPos := rel.pos, oldVal := rel.val, oldAnchor := rel.anchor, oldInsert := rel.insert }

/-- `rel_restore`, which also enables the relation. -/
def relRestore (rel : Relation) : Relation :=
  { rel with
    pos := rel.oldPos, val := rel.oldVal, anchor := rel.oldAnchor, insert := rel.oldInsert,
    enabled := true }

/-- `fs_meta_t`, without the map of blocked points that only the search reads. -/
abbrev Meta := List Relation

def fsSave (rels : Meta) : Meta := rels.map relSave

def fsRestore (rels : Meta) : Meta := rels.map relRestore

/-- `fs_track_insert`.  An invalid insertion disables the relation and goes on, or
ends the call with the relations before it already moved. -/
def fsTrackInsert (idx dataSize : Nat) (ignoreInvalid : Bool) : Meta → Bool × Meta
  | [] => (false, [])
  | rel :: rest =>
    let out := if rel.enabled then relOnInsert rel idx dataSize else (false, rel)
    if out.1 ∧ ¬ignoreInvalid then (true, out.2 :: rest)
    else
      let head := if out.1 then { out.2 with enabled := false } else out.2
      let tail := fsTrackInsert idx dataSize ignoreInvalid rest
      (tail.1, head :: tail.2)

def removeFrom (idx dataSize : Nat) (rel : Relation) : Relation :=
  if rel.enabled then
    let out := relOnRemove rel idx dataSize
    if out.1 then { out.2 with enabled := false } else out.2
  else rel

def fsTrackDelete (idx dataSize : Nat) (rels : Meta) : Meta :=
  rels.map (removeFrom idx dataSize)

/-- `fs_sanitize` writes the last relation first. -/
def fsSanitize (rels : Meta) (buf : Buffer) : Buffer :=
  rels.foldr (fun rel buf => if rel.enabled then relApply buf rel else buf) buf

def Relation.Holds (rel : Relation) (addr : Nat) : Prop :=
  rel.pos ≤ addr ∧ addr < rel.pos + rel.size

instance (rel : Relation) (addr : Nat) : Decidable (rel.Holds addr) :=
  inferInstanceAs (Decidable (_ ∧ _))

def Relation.byteAt (rel : Relation) (addr : Nat) : Byte :=
  if rel.le then valueByte rel.val (addr - rel.pos)
  else valueByte rel.val (rel.pos + rel.size - 1 - addr)

private theorem forUpto_update {bound : Nat} {place : Nat → Nat} (v : Nat → Byte)
    (index : Nat → Nat) (buf : Buffer) (addr : Nat)
    (inverse : ∀ i, i < bound → index (place i) = i) :
    forUpto bound (fun i buf => update buf (place i) (v i)) buf addr =
      if index addr < bound ∧ place (index addr) = addr then v (index addr)
      else buf addr := by
  induction bound with
  | zero => simp
  | succ bound ih =>
    rw [forUpto_succ]
    by_cases last : addr = place bound
    · have found : index addr = bound := by
        rw [last]
        exact inverse _ (Nat.lt_succ_self _)
      rw [last, update_self, ← last, found, if_pos ⟨Nat.lt_succ_self _, last.symm⟩]
    · rw [update_of_ne last, ih (fun i below => inverse i (Nat.lt_succ_of_lt below))]
      congr 1
      apply propext
      constructor
      · rintro ⟨below, here⟩
        exact ⟨Nat.lt_succ_of_lt below, here⟩
      · rintro ⟨below, here⟩
        have other : index addr ≠ bound := fun same => last (by rw [← here, same])
        exact ⟨by omega, here⟩

variable (rels : Meta) (buf : Buffer) (rel : Relation) (addr : Nat)

theorem relApply_apply :
    relApply buf rel addr = if rel.Holds addr then rel.byteAt addr else buf addr := by
  unfold relApply Relation.byteAt
  cases rel.le with
  | true =>
    simp only [if_true]
    rw [forUpto_update (valueByte rel.val) (· - rel.pos) _ _ (fun i _ => by omega)]
    congr 1
    apply propext
    unfold Relation.Holds
    omega
  | false =>
    simp only [if_false, Bool.false_eq_true]
    rw [forUpto_update (valueByte rel.val) (rel.pos + rel.size - 1 - ·) _ _ (fun i _ => by omega)]
    congr 1
    apply propext
    unfold Relation.Holds
    omega

private theorem or_byte {low : Nat} {byte : Byte} {i : Nat} (small : low < 2 ^ (i * 8)) :
    low ||| byte.toNat <<< (i * 8) = low + byte.toNat * 2 ^ (i * 8) := by
  rw [Nat.shiftLeft_eq, Nat.lor_comm, Nat.mul_comm, ← Nat.two_pow_add_eq_or_of_lt small,
    Nat.add_comm]

private theorem decode_sum (bytes : Nat → Byte) (size : Nat) :
    forUpto size (fun i val => val ||| (bytes i).toNat <<< (i * 8)) 0 < 2 ^ (size * 8) := by
  induction size with
  | zero => simp
  | succ size ih =>
    have grown : 2 ^ ((size + 1) * 8) = 2 ^ (size * 8) * 256 := by
      rw [Nat.succ_mul, Nat.pow_add]
    rw [forUpto_succ, or_byte ih]
    have scaled : (bytes size).toNat * 2 ^ (size * 8) ≤ 255 * 2 ^ (size * 8) :=
      Nat.mul_le_mul_right _ (by omega)
    omega

theorem decodeValue_lt (size : Nat) (le : Bool) : decodeValue buf size le < 2 ^ (size * 8) := by
  cases le with
  | true => exact decode_sum _ _
  | false => exact decode_sum (fun i => buf (size - 1 - i)) _

private theorem decode_bytes {bytes : Nat → Byte} {val size : Nat}
    (written : ∀ i, i < size → bytes i = valueByte val i) :
    forUpto size (fun i val => val ||| (bytes i).toNat <<< (i * 8)) 0 = val % 2 ^ (size * 8) := by
  induction size with
  | zero =>
    rw [forUpto_zero]
    omega
  | succ size ih =>
    have pre := ih (fun i below => written i (Nat.lt_succ_of_lt below))
    have small : val % 2 ^ (size * 8) < 2 ^ (size * 8) := Nat.mod_lt _ (Nat.two_pow_pos _)
    rw [forUpto_succ, pre, or_byte small, written _ (Nat.lt_succ_self _),
      Nat.succ_mul, Nat.pow_add, Nat.mod_mul]
    simp only [valueByte, BitVec.toNat_ofNat, Nat.shiftRight_eq_div_pow]
    rw [Nat.mul_comm (2 ^ (size * 8))]

theorem decodeValue_written (fits : rel.val < 2 ^ (rel.size * 8))
    (written : ∀ i, i < rel.size → buf (rel.pos + i) = rel.byteAt (rel.pos + i)) :
    decodeValue (fun i => buf (rel.pos + i)) rel.size rel.le = rel.val := by
  unfold decodeValue
  cases order : rel.le with
  | true =>
    simp only [if_true]
    rw [decode_bytes, Nat.mod_eq_of_lt fits]
    intro i below
    rw [written i below]
    simp only [Relation.byteAt, order, if_true]
    congr 1
    omega
  | false =>
    simp only [Bool.false_eq_true, if_false]
    rw [decode_bytes, Nat.mod_eq_of_lt fits]
    intro i below
    rw [written (rel.size - 1 - i) (by omega)]
    simp only [Relation.byteAt, order, Bool.false_eq_true, if_false]
    congr 1
    omega

def Apart (first second : Relation) : Prop :=
  first.enabled = true → second.enabled = true → ∀ addr, first.Holds addr → ¬second.Holds addr

theorem fsSanitize_cons (rest : Meta) (buf : Buffer) :
    fsSanitize (rel :: rest) buf =
      if rel.enabled then relApply (fsSanitize rest buf) rel else fsSanitize rest buf := rfl

theorem fsSanitize_outside (outside : ∀ rel ∈ rels, rel.enabled = true → ¬rel.Holds addr) :
    fsSanitize rels buf addr = buf addr := by
  induction rels with
  | nil => rfl
  | cons rel rest ih =>
    have below := ih (fun other mem => outside _ (List.mem_cons_of_mem _ mem))
    rw [fsSanitize_cons]
    cases active : rel.enabled with
    | true =>
      rw [if_pos rfl, relApply_apply, if_neg (outside _ List.mem_cons_self active), below]
    | false =>
      rw [if_neg Bool.false_ne_true, below]

theorem fsSanitize_inside (apart : rels.Pairwise Apart) (rel : Relation)
    (mem : rel ∈ rels) (active : rel.enabled = true) (addr : Nat)
    (inside : rel.Holds addr) : fsSanitize rels buf addr = rel.byteAt addr := by
  induction rels with
  | nil => cases mem
  | cons head rest ih =>
    obtain ⟨clear, tail⟩ := List.pairwise_cons.mp apart
    rw [fsSanitize_cons]
    rcases List.mem_cons.mp mem with here | later
    · subst here
      rw [if_pos active, relApply_apply, if_pos inside]
    · cases lead : head.enabled with
      | true =>
        have missed : ¬head.Holds addr := fun held => clear _ later lead active _ held inside
        rw [if_pos rfl, relApply_apply, if_neg missed, ih tail later]
      | false =>
        rw [if_neg Bool.false_ne_true, ih tail later]

end AflPlusPlus.FrameShift
