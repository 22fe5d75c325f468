/-
Saving and restoring FrameShift relations around the havoc iterations of `fuzz_one`.

Splicing replaces the tail of the buffer and reports that as a deletion and an insertion.
Restoring enables every relation, also one that was disabled when the iteration began.
-/

import AflPlusPlus.FrameShiftTracking

namespace AflPlusPlus.FrameShift

open Machine List

inductive Call where
  | insert (idx size : Nat) (ignoreInvalid : Bool)
  | delete (idx size : Nat)

def track (rels : Meta) : Call → Meta
  | .insert idx size ignoreInvalid => (fsTrackInsert idx size ignoreInvalid rels).2
  | .delete idx size => fsTrackDelete idx size rels

private theorem relRestore_insert {rel : Relation} {idx size : Nat} :
    relRestore (relOnInsert rel idx size).2 = relRestore rel := by
  unfold relOnInsert
  split
  · rfl
  · split <;> rfl

private theorem relRestore_remove (rel : Relation) (idx size : Nat) :
    relRestore (relOnRemove rel idx size).2 = relRestore rel := by
  unfold relOnRemove
  split
  · rfl
  · split <;> rfl

variable {s : Tracked} (idx size : Nat)

theorem fsRestore_insert (ignoreInvalid : Bool) (rels : Meta) :
    fsRestore (fsTrackInsert idx size ignoreInvalid rels).2 = fsRestore rels := by
  induction rels with
  | nil => rfl
  | cons rel rest ih =>
    have head : relRestore (if rel.enabled then relOnInsert rel idx size else (false, rel)).2 =
        relRestore rel := by
      cases rel.enabled with
      | true => exact relRestore_insert
      | false => rfl
    unfold fsRestore at ih ⊢
    simp only [fsTrackInsert]
    generalize (if rel.enabled then relOnInsert rel idx size else (false, rel)) = out at head ⊢
    split
    · rw [map_cons, head, map_cons]
    · rw [map_cons, ih, map_cons, ← head]
      split <;> rfl

variable (rels : Meta)

theorem fsRestore_delete : fsRestore (fsTrackDelete idx size rels) = fsRestore rels := by
  simp only [fsRestore, fsTrackDelete, map_map]
  apply map_congr_left
  intro rel _member
  simp only [Function.comp_apply, removeFrom]
  cases rel.enabled with
  | false => rfl
  | true =>
    rw [if_pos rfl, ← relRestore_remove rel _ _]
    split <;> rfl

private theorem fsRestore_track (calls : List Call) :
    fsRestore (runFrom track rels calls) = fsRestore rels := by
  induction calls generalizing rels with
  | nil => rfl
  | cons call rest ih =>
    refine (ih (track _ _)).trans ?_
    cases call with
    | insert idx size ignoreInvalid => exact fsRestore_insert _ _ _ _
    | delete idx size => exact fsRestore_delete _ _ _

def AllEnabled (rels : Meta) : Prop := ∀ rel ∈ rels, rel.enabled = true

instance (rels : Meta) : Decidable (AllEnabled rels) :=
  inferInstanceAs (Decidable (∀ rel ∈ rels, _))

theorem fsRestore_fsSave_iff :
    fsRestore (fsSave rels) = fsSave rels ↔ AllEnabled rels := by
  simp only [fsRestore, fsSave, AllEnabled, map_map, map_inj_left, Function.comp_apply]
  refine forall_congr' fun rel => imp_congr_right fun _ => ?_
  constructor
  · intro same
    exact (congrArg Relation.enabled same).symm
  · intro active
    simp only [relRestore, relSave, active]

/-- What one iteration leaves: the buffer is copied back, the relations restored. -/
def iterate (s : Tracked) (reports : List Report) : Tracked :=
  let mutated := runFrom Tracked.step { s with relations := fsSave s.relations } reports
  { text := s.text, relations := fsRestore mutated.relations }

/-- The splice takes the relations of the queue entry afresh, keeps the entry up to
`splitAt` and continues with the target. -/
def spliceWith (entry : Tracked) (splitAt : Nat) (target : Text Byte) : Tracked :=
  { text :=
      { len := target.len
        cell := fun place =>
          if place < splitAt then entry.text.cell place else target.cell place }
    relations :=
      (fsTrackInsert splitAt (target.len - splitAt) true
        (fsTrackDelete splitAt (entry.text.len - splitAt) entry.relations)).2 }

inductive Leg where
  | iteration (reports : List Report)
  | splice (splitAt : Nat) (target : Text Byte)

def fuzzLeg (entry s : Tracked) : Leg → Tracked
  | .iteration reports => iterate s reports
  | .splice splitAt target => spliceWith entry splitAt target

/-- The edits of an iteration fit the buffer they are made in; a splice splits inside
both files. -/
def LegFits (entry s : Tracked) : Leg → Prop
  | .iteration reports =>
    Along Tracked.step Fitting { s with relations := fsSave s.relations } reports
  | .splice splitAt target =>
    splitAt ≤ entry.text.len ∧ splitAt ≤ target.len ∧ entry.text.len < 2 ^ 64 ∧ target.len < 2 ^ 64

def SavesEnabled (s : Tracked) : Leg → Prop
  | .iteration _ => AllEnabled s.relations
  | .splice _ _ => True

theorem Tracked.Inside.saved (inside : s.Inside) :
    Tracked.Inside { s with relations := fsSave s.relations } := by
  intro rel mem active
  obtain ⟨src, sourceMember, same⟩ := mem_map.mp mem
  subst same
  exact inside src sourceMember active

private theorem fsRestore_steps (s : Tracked) (reports : List Report) :
    fsRestore (runFrom Tracked.step s reports).relations = fsRestore s.relations := by
  induction reports generalizing s with
  | nil => rfl
  | cons report rest ih =>
    refine (ih (s.step _)).trans ?_
    obtain ⟨edit, _⟩ := report
    cases edit with
    | insert idx count data => exact fsRestore_insert _ _ _ s.relations
    | delete idx count => exact fsRestore_delete _ _ s.relations

private theorem iterate_relations (reports : List Report) (enabled : AllEnabled s.relations) :
    (iterate s reports).relations = fsSave s.relations :=
  (fsRestore_steps _ reports).trans ((fsRestore_fsSave_iff s.relations).mpr enabled)

theorem Tracked.Inside.iterate (inside : s.Inside) (reports : List Report)
    (enabled : AllEnabled s.relations) : (iterate s reports).Inside := by
  intro rel mem active
  rw [iterate_relations _ enabled] at mem
  exact inside.saved _ mem active

variable {entry : Tracked}

theorem Tracked.Inside.spliced (inside : entry.Inside) (splitAt : Nat)
    (target : Text Byte) (fits : LegFits entry entry (.splice splitAt target)) :
    (spliceWith entry splitAt target).Inside := by
  obtain ⟨_, _, entrySmall, _⟩ := fits
  let cut : Report := ⟨.delete splitAt (entry.text.len - splitAt), true⟩
  let graft : Report := ⟨.insert splitAt (target.len - splitAt) target.cell, true⟩
  have cutLen : (entry.step cut).text.len = splitAt := by
    change entry.text.len - (entry.text.len - splitAt) = splitAt
    omega
  have cutFits : Fitting entry cut := by
    refine ⟨?_, ⟨entrySmall, ?_⟩, rfl⟩
    · change splitAt + (entry.text.len - splitAt) ≤ entry.text.len
      omega
    · change (entry.step _).text.len < 2 ^ 64
      omega
  have graftFits : Fitting (entry.step cut) graft := by
    refine ⟨?_, ⟨by omega, ?_⟩, fsTrackInsert_ignoring _⟩
    · change splitAt ≤ (entry.step _).text.len
      omega
    · change (entry.step _).text.len + (target.len - splitAt) < 2 ^ 64
      omega
  have grafted := (inside.step cutFits).step graftFits
  intro rel mem active
  have found := grafted _ mem active
  have length : ((entry.step cut).step graft).text.len = target.len := by
    change (entry.step _).text.len + (target.len - splitAt) = target.len
    omega
  rw [length] at found
  exact found

private theorem legs_inside (inside : entry.Inside) (legs : List Leg)
    (allowed : Along (fuzzLeg entry)
      (fun s leg => LegFits entry s leg ∧ SavesEnabled s leg) entry legs) :
    (runFrom (fuzzLeg entry) entry legs).Inside := by
  refine runFrom_invariant Tracked.Inside ?_ _ inside _ allowed
  rintro s leg kept ⟨fits, enabled⟩
  cases leg with
  | iteration reports => exact kept.iterate _ enabled
  | splice splitAt target => exact inside.spliced _ _ fits

/-- Saving, tracking any calls and restoring gives the saved relations back exactly when
all of them were enabled.  In a run that never saves a disabled relation no enabled
relation reaches beyond the buffer, between iterations or within one. -/
theorem save_restore_iff_enabled (rels : Meta) (entry : Tracked) (legs : List Leg)
    (reports : List Report) :
    ((∀ calls, fsRestore (runFrom track (fsSave rels) calls) = fsSave rels) ↔ AllEnabled rels) ∧
    (entry.Inside → Along (fuzzLeg entry) (fun s leg => LegFits entry s leg ∧ SavesEnabled s leg)
        entry legs →
      LegFits entry (runFrom (fuzzLeg entry) entry legs) (.iteration reports) →
      let s := runFrom (fuzzLeg entry) entry legs
      let cur := runFrom Tracked.step { s with relations := fsSave s.relations } reports
      ∀ rel ∈ cur.relations, rel.enabled = true → rel.pos + rel.size ≤ cur.text.len) := by
  constructor
  · constructor
    · intro back
      exact (fsRestore_fsSave_iff _).mp (back [])
    · intro enabled calls
      rw [fsRestore_track]
      exact (fsRestore_fsSave_iff _).mpr enabled
  · intro inside allowed fits
    exact (legs_inside inside _ allowed).saved.run _ fits

def trailerEntry : Tracked :=
  { text := { len := 8, cell := fun place => if place = 6 then 4 else 0 }
    relations :=
      [{ pos := 6, val := 4, anchor := 0, insert := 4, oldPos := 0, oldVal := 0, oldAnchor := 0,
         oldInsert := 0, size := 2, le := true, enabled := true
         size_le := Nat.le_of_ble_eq_true rfl }] }

theorem trailer_kept_without_splice :
    trailerEntry.Inside ∧ AllEnabled trailerEntry.relations ∧
      ∀ rel ∈ (iterate trailerEntry [⟨.delete 5 2, true⟩]).relations,
        rel.enabled = true → rel.pos + rel.size ≤ 8 := by
  have inside : trailerEntry.Inside := by decide
  have enabled : AllEnabled trailerEntry.relations := by decide
  have fits : LegFits trailerEntry trailerEntry (.iteration [⟨.delete 5 2, true⟩]) := by
    refine ⟨⟨?_, ?_, rfl⟩, trivial⟩
    · change 5 + 2 ≤ 8
      omega
    · change 8 < 2 ^ 64 ∧ 8 - 2 < 2 ^ 64
      omega
  refine ⟨inside, enabled, ?_⟩
  exact (save_restore_iff_enabled trailerEntry.relations trailerEntry
    [.iteration [⟨.delete 5 2, true⟩]] []).2 inside ⟨⟨fits, enabled⟩, trivial⟩ trivial

/-- A splice with a four-byte file cuts the field off and disables its relation; one
iteration that does nothing enables it again, four bytes past the end. -/
theorem restore_enables_cut_field :
    let spliced := spliceWith trailerEntry 2 ⟨4, fun _ => 7⟩
    spliced.relations.map Relation.enabled = [false] ∧
      fsRestore (fsSave spliced.relations) ≠ fsSave spliced.relations ∧
      (iterate spliced []).text.len = 4 ∧ (iterate spliced []).relations.map
        (fun rel => (rel.enabled, rel.pos + rel.size)) = [(true, 8)] := by
  decide

end AflPlusPlus.FrameShift
