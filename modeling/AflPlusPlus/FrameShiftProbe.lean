/-
The anchor probe of FrameShift (`check_anchor`) and the tracker.

The probe makes room behind the bytes that a candidate field may count and runs the
result.  It moves the known relations with the tracker and the candidate by a rule of
its own, which leaves a field alone that starts where the room is made.
-/

import AflPlusPlus.FrameShiftRestore

namespace AflPlusPlus.FrameShift

open Machine List

def fillScratch (scratch buf : Buffer) (len insertion shiftAmount : Nat) : Buffer := fun addr =>
  if addr < insertion then buf addr
  else if addr < insertion + shiftAmount then 0x41
  else if addr < len + shiftAmount then buf (addr - shiftAmount)
  else scratch addr

structure Probe where
  executed : Option (Buffer × Nat)
  relations : Meta
  potentialRel : Relation

/-- The arguments of `check_anchor`.  `better`: the run recovers more than `*curr_recover`. -/
structure ProbeCall where
  anchor : Nat
  len : Nat
  currSize : Nat
  fieldPos : Nat
  buf : Buffer
  relations : Meta
  scratch : Buffer
  shiftAmount : Nat
  potentialRel : Relation
  better : Bool
  shift_lt : shiftAmount < 2 ^ 32

namespace ProbeCall

variable (call : ProbeCall)

def insertion : Nat := u32 (call.anchor + call.currSize)

def filled : Buffer :=
  fillScratch call.scratch call.buf call.len call.insertion call.shiftAmount

def tracked : Bool × Meta :=
  fsTrackInsert call.insertion call.shiftAmount false (fsSave call.relations)

def shifted : Relation :=
  { call.potentialRel with
    pos := if call.insertion < call.potentialRel.pos then
        u64 (call.potentialRel.pos + call.shiftAmount)
      else call.potentialRel.pos }

def checkAnchor : Probe :=
  if call.len < call.anchor ∨ call.len < call.insertion then
    ⟨none, call.relations, call.potentialRel⟩
  else
    let applied := relApply call.filled call.shifted
    let potentialRel := { call.potentialRel with pos := call.fieldPos }
    let run := fsSanitize call.tracked.2 applied
    if call.tracked.1 then ⟨none, fsRestore call.tracked.2, potentialRel⟩
    else
      ⟨some (run, u32 (call.len + call.shiftAmount)), fsRestore call.tracked.2,
        if call.better then
          { potentialRel with anchor := call.anchor, insert := call.insertion }
        else potentialRel⟩

def moved : Relation :=
  { call.potentialRel with
    pos := if call.insertion ≤ call.potentialRel.pos then
        u64 (call.potentialRel.pos + call.shiftAmount)
      else call.potentialRel.pos }

/-- The filler is inserted and all the relations are written, moved by one rule. -/
def expected : Buffer := fsSanitize call.tracked.2 (relApply call.filled call.moved)

end ProbeCall

/-- What a relation says of the buffer, without the saved copies. -/
def Relation.now (rel : Relation) : Nat × Nat × Nat × Nat × Bool :=
  (rel.pos, rel.val, rel.anchor, rel.insert, rel.enabled)

/-- The probe runs what the tracker makes of the insertion, and gives the relations back. -/
structure ProbeCall.Agrees (call : ProbeCall) : Prop where
  executed : ∀ run ∈ call.checkAnchor.executed, run.1 = call.expected
  relations : call.checkAnchor.relations.map Relation.now = call.relations.map Relation.now

/-- No tracked field covers the address behind the insertion. -/
def ProbeCall.Free (call : ProbeCall) (addr : Nat) : Prop :=
  ∀ rel ∈ call.tracked.2, rel.enabled = true → ¬rel.Holds addr

/-- A byte of the candidate's value, by its place in the field. -/
def ProbeCall.fieldByte (call : ProbeCall) (k : Nat) : Byte :=
  call.potentialRel.byteAt (call.potentialRel.pos + k)

/-- A byte that no tracked field covers tells the two places of a candidate apart that starts
at the insertion: the value stands where the filler, or a later byte of the value, should be,
or behind the filler the old field is left that the value should have replaced. -/
def ProbeCall.Shows (call : ProbeCall) : Prop :=
  ∃ k, k < call.potentialRel.size ∧ (call.Free (call.insertion + k) ∧ call.fieldByte k ≠
          (if k < call.shiftAmount then 0x41 else call.fieldByte (k - call.shiftAmount)) ∨
      call.potentialRel.size ≤ k + call.shiftAmount ∧
        call.Free (call.insertion + call.shiftAmount + k) ∧
        call.fieldByte k ≠ (if call.insertion + k < call.len then call.buf (call.insertion + k)
          else call.scratch (call.insertion + call.shiftAmount + k)))

private theorem fsSanitize_apply_eq_iff {rels : Meta} {first second : Buffer} {addr : Nat} :
    fsSanitize rels first addr = fsSanitize rels second addr ↔
      ((∀ rel ∈ rels, rel.enabled = true → ¬rel.Holds addr) →
        first addr = second addr) := by
  induction rels with
  | nil => simp [fsSanitize]
  | cons rel rest ih =>
    rw [fsSanitize_cons, fsSanitize_cons, forall_mem_cons]
    cases rel.enabled with
    | false => simpa using ih
    | true =>
      rw [if_pos rfl, if_pos rfl, relApply_apply, relApply_apply]
      by_cases held : rel.Holds addr
      · rw [if_pos held, if_pos held]
        exact iff_of_true rfl (fun outside => absurd held (outside.1 rfl))
      · rw [if_neg held, if_neg held, ih]
        simp [held]

variable (call : ProbeCall)

private theorem ProbeCall.run_eq_iff :
    fsSanitize call.tracked.2 (relApply call.filled call.shifted) = call.expected ↔
      ∀ addr, call.Free addr →
        relApply call.filled call.shifted addr = relApply call.filled call.moved addr := by
  unfold ProbeCall.expected
  rw [funext_iff]
  exact forall_congr' (fun _ => fsSanitize_apply_eq_iff)

private theorem relApply_at (buf : Buffer) (rel : Relation) (pos addr : Nat) :
    relApply buf { rel with pos := pos } addr =
      if pos ≤ addr ∧ addr < pos + rel.size then rel.byteAt (rel.pos + (addr - pos))
      else buf addr := by
  refine (relApply_apply _ _ _).trans ?_
  by_cases held : pos ≤ addr ∧ addr < pos + rel.size
  · refine (if_pos held).trans ?_
    rw [if_pos held]
    unfold Relation.byteAt
    dsimp only
    congr 2 <;> omega
  · exact (if_neg held).trans (if_neg held).symm

section Starts

variable {call : ProbeCall} (starts : call.insertion = call.potentialRel.pos)

include starts

private theorem shifted_apply (addr : Nat) : relApply call.filled call.shifted addr =
    if call.insertion ≤ addr ∧ addr < call.insertion + call.potentialRel.size then
      call.fieldByte (addr - call.insertion)
    else call.filled addr := by
  have stays : call.shifted = { call.potentialRel with pos := call.insertion } := by
    unfold ProbeCall.shifted
    rw [if_neg (by omega), starts]
  rw [stays, relApply_at, ProbeCall.fieldByte]

private theorem moved_apply (addr : Nat) : relApply call.filled call.moved addr =
    if call.insertion + call.shiftAmount ≤ addr ∧
        addr < call.insertion + call.shiftAmount + call.potentialRel.size then
      call.fieldByte (addr - (call.insertion + call.shiftAmount))
    else call.filled addr := by
  have small : call.insertion < 2 ^ 32 := Nat.mod_lt _ (by decide)
  have shift := call.shift_lt
  have moves : call.moved =
      { call.potentialRel with pos := call.insertion + call.shiftAmount } := by
    unfold ProbeCall.moved
    rw [if_pos (Nat.le_of_eq starts), ← starts, u64_of_lt (by omega)]
  rw [moves, relApply_at, ProbeCall.fieldByte]

/-- Only at the two places of the field the buffers can differ. -/
private theorem ProbeCall.shows_iff : call.Shows ↔ ∃ addr, call.Free addr ∧
    relApply call.filled call.shifted addr ≠ relApply call.filled call.moved addr := by
  have atFiller : ∀ k, k < call.potentialRel.size →
      relApply call.filled call.shifted (call.insertion + k) = call.fieldByte k ∧
      relApply call.filled call.moved (call.insertion + k) =
        if k < call.shiftAmount then 0x41 else call.fieldByte (k - call.shiftAmount) := by
    intro k inside
    rw [shifted_apply starts, moved_apply starts, if_pos (by omega), Nat.add_sub_cancel_left]
    refine ⟨rfl, ?_⟩
    by_cases early : k < call.shiftAmount
    · rw [if_neg (by omega), if_pos early, ProbeCall.filled, fillScratch, if_neg (by omega),
        if_pos (by omega)]
    · rw [if_pos (by omega), if_neg early]
      congr 1
      omega
  have atField : ∀ k, k < call.potentialRel.size → call.potentialRel.size ≤ k + call.shiftAmount →
      relApply call.filled call.shifted (call.insertion + call.shiftAmount + k) =
        (if call.insertion + k < call.len then call.buf (call.insertion + k)
        else call.scratch (call.insertion + call.shiftAmount + k)) ∧
      relApply call.filled call.moved (call.insertion + call.shiftAmount + k) =
        call.fieldByte k := by
    intro k inside beyond
    constructor
    · rw [shifted_apply starts, if_neg (by omega), ProbeCall.filled, fillScratch,
        if_neg (by omega), if_neg (by omega), show call.insertion + call.shiftAmount + k -
          call.shiftAmount = call.insertion + k by omega]
      exact if_congr (by omega) rfl rfl
    · rw [moved_apply starts, if_pos (by omega), Nat.add_sub_cancel_left]
  constructor
  · rintro ⟨k, inside, ⟨free, differs⟩ | ⟨beyond, free, differs⟩⟩
    · refine ⟨_, free, ?_⟩
      rwa [(atFiller k inside).1, (atFiller k inside).2]
    · refine ⟨_, free, ?_⟩
      rw [(atField k inside beyond).1, (atField k inside beyond).2]
      exact differs.symm
  · rintro ⟨addr, free, differs⟩
    by_cases first : call.insertion ≤ addr ∧ addr < call.insertion + call.potentialRel.size
    · obtain ⟨k, rfl⟩ := Nat.exists_eq_add_of_le first.1
      have inside : k < call.potentialRel.size := by omega
      rw [(atFiller k inside).1, (atFiller k inside).2] at differs
      exact ⟨k, inside, .inl ⟨free, differs⟩⟩
    · by_cases second : call.insertion + call.shiftAmount ≤ addr ∧
          addr < call.insertion + call.shiftAmount + call.potentialRel.size
      · obtain ⟨k, rfl⟩ := Nat.exists_eq_add_of_le second.1
        have inside : k < call.potentialRel.size := by omega
        have beyond : call.potentialRel.size ≤ k + call.shiftAmount := by omega
        rw [(atField k inside beyond).1, (atField k inside beyond).2] at differs
        exact ⟨k, inside, .inr ⟨beyond, free, differs.symm⟩⟩
      · rw [shifted_apply starts, moved_apply starts, if_neg first, if_neg second] at differs
        exact absurd rfl differs

end Starts

private theorem map_now_fsSave (rels : Meta) :
    (fsSave rels).map Relation.now = rels.map Relation.now :=
  map_map

private theorem ProbeCall.relations_kept (enabled : AllEnabled call.relations) :
    call.checkAnchor.relations.map Relation.now = call.relations.map Relation.now := by
  have back : fsRestore call.tracked.2 = fsSave call.relations :=
    (fsRestore_insert _ _ _ _).trans ((fsRestore_fsSave_iff call.relations).2 enabled)
  unfold ProbeCall.checkAnchor
  split
  · rfl
  · split <;> rw [back, map_now_fsSave]

/-- The probe agrees with the tracker, exactly if the insertion is not made, or does not meet
the start of the candidate, or no byte outside the tracked fields shows the difference. -/
theorem probe_agrees_iff (call : ProbeCall) (enabled : AllEnabled call.relations) :
    call.Agrees ↔ (call.anchor ≤ call.len → call.insertion ≤ call.len →
      call.tracked.1 = false → call.insertion = call.potentialRel.pos → ¬call.Shows) := by
  have kept := call.relations_kept enabled
  by_cases inside : call.len < call.anchor ∨ call.len < call.insertion
  · have none : call.checkAnchor.executed = none := by
      unfold ProbeCall.checkAnchor
      rw [if_pos inside]
    refine iff_of_true ⟨?_, kept⟩ (by omega)
    rw [none]
    exact nofun
  by_cases rejects : call.tracked.1 = true
  · have none : call.checkAnchor.executed = none := by
      unfold ProbeCall.checkAnchor
      rw [if_neg inside, if_pos rejects]
    refine iff_of_true ⟨?_, kept⟩ (fun _ _ tracked => ?_)
    · rw [none]
      exact nofun
    · rw [tracked] at rejects
      cases rejects
  have run : call.checkAnchor.executed = some (fsSanitize call.tracked.2
      (relApply call.filled call.shifted), u32 (call.len + call.shiftAmount)) := by
    unfold ProbeCall.checkAnchor
    rw [if_neg inside, if_neg rejects]
  have agrees : call.Agrees ↔
      fsSanitize call.tracked.2 (relApply call.filled call.shifted) = call.expected := by
    refine ⟨fun agrees => agrees.executed _ run, fun same => ⟨?_, kept⟩⟩
    rw [run]
    rintro _ ⟨⟩
    exact same
  rw [agrees, call.run_eq_iff]
  by_cases starts : call.insertion = call.potentialRel.pos
  · rw [ProbeCall.shows_iff starts]
    push Not
    exact ⟨fun same _ _ _ _ => same, fun cond =>
      cond (by omega) (by omega) (Bool.not_eq_true _ ▸ rejects) starts⟩
  · refine iff_of_true (fun addr _ => ?_) (fun _ _ _ meets => absurd meets starts)
    have same : call.insertion < call.potentialRel.pos ↔
        call.insertion ≤ call.potentialRel.pos := by omega
    simp only [ProbeCall.shifted, ProbeCall.moved, same]

private theorem halfword_fits : 2 ≤ 8 := by decide

/-- Two counted bytes in front of their own length, and the anchor at the start. -/
def trailingLength : ProbeCall where
  anchor := 0
  len := 4
  currSize := 2
  fieldPos := 2
  buf := fun addr => if addr = 2 then 2 else 0
  relations := []
  scratch := fun _ => 0
  shiftAmount := 255
  potentialRel :=
    { lengthByte with pos := 2, val := 257, anchor := 2 ^ 64 - 1, insert := 2 ^ 64 - 1, size := 2,
                      size_le := halfword_fits }
  better := false
  shift_lt := by decide

theorem probe_agrees_behind_field :
    AllEnabled trailingLength.relations ∧ { trailingLength with anchor := 1 }.Agrees :=
  ⟨by decide, (probe_agrees_iff { trailingLength with anchor := 1 } (by decide)).2
    (fun _ _ _ starts => absurd starts (by decide))⟩

/-- The field has moved behind the filler with its old value, and the new value is
written over the filler. -/
theorem probe_leaves_moved_field :
    trailingLength.checkAnchor.executed.map (fun run => (run.1 2, run.1 257)) = some (1, 2) ∧
      (trailingLength.expected 2, trailingLength.expected 257) = (0x41, 1) := by
  decide

end AflPlusPlus.FrameShift
