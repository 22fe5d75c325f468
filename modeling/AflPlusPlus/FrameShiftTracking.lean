/-
FrameShift relations under reported edits.

A relation that stays enabled follows its field: the same bytes, at the position the
edits moved them to, with the value still the distance from anchor to insert.
-/

import AflPlusPlus.FrameShift

namespace AflPlusPlus.FrameShift

open Machine List

def Relation.Inside (rel : Relation) (len : Nat) : Prop := rel.pos + rel.size ≤ len

instance (rel : Relation) (len : Nat) : Decidable (rel.Inside len) :=
  inferInstanceAs (Decidable (_ ≤ _))

structure Sound (len : Nat) (rel : Relation) : Prop where
  inside : rel.Inside len
  measured : rel.insert = rel.anchor + rel.val
  fits : rel.val < 2 ^ (rel.size * 8)

/-- The inserted length is one the field can hold where the relation counts it, and
no offset of the relation leaves 64 bits. -/
def Small (rel : Relation) : Edit Byte → Prop
  | .insert idx count _ =>
    (rel.anchor ≤ idx → idx ≤ rel.insert → count < 2 ^ (rel.size * 8)) ∧
      (idx ≤ rel.insert → rel.insert + count < 2 ^ 64)
  | .delete _ _ => True

structure Carried (edit : Edit Byte) (old new : Relation) : Prop where
  size : new.size = old.size
  le : new.le = old.le
  moved : ∀ k, k < old.size → edit.move (old.pos + k) = some (new.pos + k)

private theorem and_mask (v size : Nat) :
    v &&& ((1 <<< (size * 8)) - 1) = v % 2 ^ (size * 8) := by
  rw [Nat.one_shiftLeft, Nat.and_two_pow_sub_one_eq_mod]

private theorem grown_eq (rel : Relation) (count : Nat) :
    rel.grown count = (rel.val + count) % 2 ^ (rel.size * 8) := by
  have bounded := rel.size_le
  unfold Relation.grown
  by_cases narrow : rel.size < 8
  · have divides : 2 ^ (rel.size * 8) ∣ 2 ^ 64 := Nat.pow_dvd_pow 2 (by omega)
    rw [if_pos narrow, and_mask, u64, Nat.mod_mod_of_dvd _ divides]
  · have eight : rel.size = 8 := by omega
    rw [if_neg narrow, eight, u64]

/-- A counted insertion leaves the sum in the field, or is seen to have overflowed:
the length itself fits, so a wrapped sum is below the old value. -/
private theorem counted_kept {val count modulus : Nat} (fits : val < modulus)
    (small : count < modulus) (kept : ¬(val + count) % modulus < val) :
    (val + count) % modulus = val + count := by
  by_cases wraps : val + count < modulus
  · exact Nat.mod_eq_of_lt wraps
  · have once : (val + count) % modulus = val + count - modulus := by
      rw [Nat.mod_eq_sub_mod (by omega), Nat.mod_eq_of_lt (by omega)]
    omega

variable {count idx len : Nat} {rel : Relation} {s : Tracked} {edit : Edit Byte}
variable {good : Relation → Prop} {old new : Meta} {report : Report} (data : Nat → Byte)

private theorem field_after_insert
    (clear : ¬(rel.pos < idx ∧ idx < rel.pos + rel.size)) (k : Nat) (inField : k < rel.size) :
    (Edit.insert idx count data).move (rel.pos + k) =
      some ((if idx ≤ rel.pos then rel.pos + count else rel.pos) + k) := by
  simp only [Edit.move, Option.some.injEq]
  by_cases pre : idx ≤ rel.pos
  · rw [if_neg (by omega), if_pos pre]
    omega
  · rw [if_pos (by omega), if_neg pre]

theorem relOnInsert_accepted (accepted : (relOnInsert rel idx count).1 = false) :
    ¬(rel.pos < idx ∧ idx < u64 (rel.pos + rel.size)) ∧
      ¬(rel.Counts idx ∧ rel.grown count < rel.val) ∧
      (relOnInsert rel idx count).2 = { rel with
          val := if rel.Counts idx then rel.grown count else rel.val
          pos := if idx ≤ rel.pos then u64 (rel.pos + count) else rel.pos
          anchor := if idx < rel.anchor then u64 (rel.anchor + count) else rel.anchor
          insert := if idx ≤ rel.insert then u64 (rel.insert + count) else rel.insert } := by
  unfold relOnInsert at accepted ⊢
  by_cases within : rel.pos < idx ∧ idx < u64 (rel.pos + rel.size)
  · rw [if_pos within] at accepted
    cases accepted
  · by_cases overflowed : rel.Counts idx ∧ rel.grown count < rel.val
    · rw [if_neg within, if_pos overflowed] at accepted
      cases accepted
    · rw [if_neg within, if_neg overflowed]
      exact ⟨within, overflowed, rfl⟩

/-- The test for an overflow sees exactly the sums that wrap once. -/
private theorem wrap_seen_iff {val modulus : Nat} (count : Nat) (fits : val < modulus) :
    (¬(val + count) % modulus < val →
        val + count < modulus ∧ (val + count) % modulus = val + count) ↔
      count < modulus ∨ modulus ≤ val + count % modulus := by
  have positive : 0 < modulus := by omega
  have reduced := Nat.mod_lt count positive
  have same : (val + count) % modulus = (val + count % modulus) % modulus :=
    (Nat.add_mod_mod _ _ _).symm
  constructor
  · intro seen
    by_contra missed
    rw [same, Nat.mod_eq_of_lt (by omega)] at seen
    omega
  · intro cond kept
    rcases cond with small | wraps
    · have whole := counted_kept fits small kept
      exact ⟨whole ▸ Nat.mod_lt _ positive, whole⟩
    · rw [same, Nat.mod_eq_sub_mod wraps, Nat.mod_eq_of_lt (by omega)] at kept
      omega

/-- An accepted insertion leaves the true sum in the field, exactly if the inserted
length fits into the field or the sum wraps to less than the old value. -/
theorem overflow_detected_iff (rel : Relation) (idx count : Nat)
    (fits : rel.val < 2 ^ (rel.size * 8)) (counts : rel.Counts idx)
    (clear : ¬(rel.pos < idx ∧ idx < rel.pos + rel.size)) :
    ((relOnInsert rel idx count).1 = false → rel.val + count < 2 ^ (rel.size * 8) ∧
          (relOnInsert rel idx count).2.val = rel.val + count) ↔
      count < 2 ^ (rel.size * 8) ∨ 2 ^ (rel.size * 8) ≤ rel.val + count % 2 ^ (rel.size * 8) := by
  have outside : ¬(rel.pos < idx ∧ idx < u64 (rel.pos + rel.size)) := by
    have reduced : u64 (rel.pos + rel.size) ≤ rel.pos + rel.size := Nat.mod_le _ _
    omega
  rw [← wrap_seen_iff _ fits, ← grown_eq]
  unfold relOnInsert
  rw [if_neg outside]
  by_cases overflowed : rel.grown count < rel.val
  · rw [if_pos ⟨counts, overflowed⟩]
    exact ⟨fun _ kept => absurd overflowed kept, nofun⟩
  · rw [if_neg (fun both => overflowed both.2)]
    rw [if_pos counts]
    exact ⟨fun holds _ => holds rfl, fun holds _ => holds overflowed⟩

def lengthByte : Relation where
  pos := 0
  val := 5
  anchor := 1
  insert := 6
  oldPos := 0
  oldVal := 0
  oldAnchor := 0
  oldInsert := 0
  size := 1
  le := true
  enabled := true
  size_le := by decide

theorem overflow_detected_lengthByte :
    lengthByte.Counts 1 ∧ ((relOnInsert lengthByte 1 255).1 = false →
      5 + 255 < 2 ^ 8 ∧ (relOnInsert lengthByte 1 255).2.val = 5 + 255) :=
  ⟨by decide, (overflow_detected_iff lengthByte 1 255 (by decide) (by decide) (by decide)).2
    (.inl (by decide))⟩

/-- 256 more bytes are accepted, and the length byte still says five. -/
theorem whole_turn_accepted :
    (relOnInsert lengthByte 1 256).1 = false ∧ (relOnInsert lengthByte 1 256).2.val = 5 ∧
      ¬5 + 256 < 2 ^ (lengthByte.size * 8) := by
  decide

theorem relOnRemove_accepted (accepted : (relOnRemove rel idx count).1 = false) :
    ¬(idx < u64 (rel.pos + rel.size) ∧ rel.pos < u64 (idx + count)) ∧
      (relOnRemove rel idx count).2 = { rel with
          val := rel.val - rel.overlap idx count
          pos := rel.pos - removedBefore rel.pos idx count
          anchor := rel.anchor - removedBefore rel.anchor idx count
          insert := rel.insert - removedBefore rel.insert idx count } := by
  unfold relOnRemove at accepted ⊢
  by_cases meets : idx < u64 (rel.pos + rel.size) ∧ rel.pos < u64 (idx + count)
  · rw [if_pos meets] at accepted
    cases accepted
  · by_cases short : rel.val < rel.overlap idx count
    · rw [if_neg meets, if_pos short] at accepted
      cases accepted
    · rw [if_neg meets, if_neg short]
      exact ⟨meets, rfl⟩

theorem relOnInsert_carried (inside : rel.Inside len)
    (bounded : len + count < 2 ^ 64) (accepted : (relOnInsert rel idx count).1 = false) :
    Carried (.insert idx count data) rel (relOnInsert rel idx count).2 ∧
      (relOnInsert rel idx count).2.Inside (len + count) := by
  unfold Relation.Inside at inside
  have fieldEnd : u64 (rel.pos + rel.size) = rel.pos + rel.size := u64_of_lt (by omega)
  have fieldMove : u64 (rel.pos + count) = rel.pos + count := u64_of_lt (by omega)
  obtain ⟨clear, _kept, updated⟩ := relOnInsert_accepted accepted
  rw [fieldEnd] at clear
  rw [updated, fieldMove]
  refine ⟨⟨rfl, rfl, field_after_insert _ clear⟩, ?_⟩
  unfold Relation.Inside
  dsimp only
  split <;> omega

private theorem relOnInsert_sound (sound : Sound len rel)
    (small : Small rel (.insert idx count data)) (bounded : len + count < 2 ^ 64)
    (accepted : (relOnInsert rel idx count).1 = false) :
    Sound (len + count) (relOnInsert rel idx count).2 := by
  have room := (relOnInsert_carried data sound.inside bounded accepted).2
  obtain ⟨__, measured, fits⟩ := sound
  obtain ⟨holdable, offsets⟩ := small
  obtain ⟨_clear, kept, updated⟩ := relOnInsert_accepted accepted
  rw [updated] at room ⊢
  by_cases counted : rel.Counts idx
  · have holds := holdable counted.1 counted.2
    have unwrapped : ¬(rel.val + count) % 2 ^ (rel.size * 8) < rel.val := by
      rw [← grown_eq]
      exact fun below => kept ⟨counted, below⟩
    have sum : rel.grown count = rel.val + count := by
      rw [grown_eq]
      exact counted_kept fits holds unwrapped
    have stays : ¬idx < rel.anchor := Nat.not_lt.mpr counted.1
    refine ⟨room, ?_, ?_⟩
    · change (if idx ≤ rel.insert then u64 (rel.insert + count) else rel.insert) =
        (if idx < rel.anchor then u64 (rel.anchor + count) else rel.anchor) +
          (if rel.Counts idx then rel.grown count else rel.val)
      rw [if_pos counted.2, if_neg stays, if_pos counted, u64_of_lt (offsets counted.2)]
      omega
    · rw [if_pos counted, grown_eq]
      exact Nat.mod_lt _ (Nat.two_pow_pos _)
  · rw [if_neg counted] at room ⊢
    refine ⟨room, ?_, fits⟩
    change (if idx ≤ rel.insert then u64 (rel.insert + count) else rel.insert) =
      (if idx < rel.anchor then u64 (rel.anchor + count) else rel.anchor) + rel.val
    unfold Relation.Counts at counted
    by_cases pre : idx < rel.anchor
    · have bound := offsets (by omega)
      rw [if_pos pre, if_pos (by omega), u64_of_lt bound, u64_of_lt (by omega)]
      omega
    · rw [if_neg pre, if_neg (by omega)]
      exact measured

theorem relOnRemove_carried (inside : rel.Inside len) (fit : idx + count ≤ len)
    (bounded : len < 2 ^ 64) (accepted : (relOnRemove rel idx count).1 = false) :
    Carried (.delete idx count) rel (relOnRemove rel idx count).2 ∧
      (relOnRemove rel idx count).2.Inside (len - count) := by
  unfold Relation.Inside at inside
  have fieldEnd : u64 (rel.pos + rel.size) = rel.pos + rel.size := u64_of_lt (by omega)
  have blockEnd : u64 (idx + count) = idx + count := u64_of_lt (by omega)
  obtain ⟨_, updated⟩ := relOnRemove_accepted accepted
  rw [updated]
  refine ⟨⟨rfl, rfl, ?_⟩, ?_⟩
  · intro k inField
    simp only [Edit.move, removedBefore]
    by_cases pre : rel.pos + k < idx
    · rw [if_pos pre, if_neg (by omega), Nat.sub_zero]
    · rw [if_neg pre, if_neg (by omega), Option.some.injEq]
      split <;> omega
  · simp only [Relation.Inside, removedBefore]
    split <;> omega

private theorem relOnRemove_sound (sound : Sound len rel) (fit : idx + count ≤ len)
    (bounded : len < 2 ^ 64)
    (accepted : (relOnRemove rel idx count).1 = false) :
    Sound (len - count) (relOnRemove rel idx count).2 := by
  have room := (relOnRemove_carried sound.inside fit bounded accepted).2
  obtain ⟨__, _, fits⟩ := sound
  obtain ⟨_clear, updated⟩ := relOnRemove_accepted accepted
  rw [updated] at room ⊢
  refine ⟨room, ?_, Nat.lt_of_le_of_lt (Nat.sub_le _ _) fits⟩
  -- the counted region loses exactly the part of it that was removed
  simp only [removedBefore, Relation.overlap]
  rw [u64_of_lt (by omega : idx + count < 2 ^ 64)]
  split <;> split <;> split <;> omega

/-- What a tracking call makes of one relation: if it is still enabled it followed
the edit, and is as it should be in the edited buffer. -/
def Follows (edit : Edit Byte) (good : Relation → Prop) (old new : Relation) : Prop :=
  new.enabled = true → old.enabled = true ∧ Carried edit old new ∧ good new

variable {rels : Meta}

theorem fsTrackInsert_follows (ignoreInvalid : Bool)
    (each : ∀ rel ∈ rels, rel.enabled = true → (relOnInsert rel idx count).1 = false →
      Carried edit rel (relOnInsert rel idx count).2 ∧ good (relOnInsert rel idx count).2)
    (accepted : (fsTrackInsert idx count ignoreInvalid rels).1 = false) :
    List.Forall₂ (Follows edit good) rels (fsTrackInsert idx count ignoreInvalid rels).2 := by
  induction rels with
  | nil => exact List.Forall₂.nil
  | cons rel rest ih =>
    have restEach := fun other mem => each other (mem_cons_of_mem _ mem)
    simp only [fsTrackInsert] at accepted ⊢
    cases active : rel.enabled with
    | false =>
      simp only [active, Bool.false_eq_true, if_false, false_and] at accepted ⊢
      refine List.Forall₂.cons ?_ (ih restEach accepted)
      intro still
      exact absurd (active.symm.trans still) Bool.false_ne_true
    | true =>
      simp only [active, if_true] at accepted ⊢
      cases out : (relOnInsert rel idx count).1 with
      | false =>
        simp only [out, Bool.false_eq_true, if_false, false_and] at accepted ⊢
        refine List.Forall₂.cons ?_ (ih restEach accepted)
        intro _still
        exact ⟨active, each _ mem_cons_self active out⟩
      | true =>
        cases ignoreInvalid with
        | false =>
          simp [out] at accepted
        | true =>
          simp only [out, not_true_eq_false, and_false, if_false, if_true] at accepted ⊢
          refine List.Forall₂.cons ?_ (ih restEach accepted)
          intro still
          cases still

theorem fsTrackInsert_ignoring {idx count : Nat} (rels : Meta) :
    (fsTrackInsert idx count true rels).1 = false := by
  induction rels with
  | nil => rfl
  | cons rel rest ih =>
    simp only [fsTrackInsert, not_true_eq_false, and_false, if_false]
    exact ih

theorem fsTrackDelete_follows
    (each : ∀ rel ∈ rels, rel.enabled = true → (relOnRemove rel idx count).1 = false →
      Carried edit rel (relOnRemove rel idx count).2 ∧ good (relOnRemove rel idx count).2) :
    List.Forall₂ (Follows edit good) rels (fsTrackDelete idx count rels) := by
  refine forall₂_map_right_iff.mpr (forall₂_same.mpr ?_)
  intro rel mem
  unfold removeFrom
  cases active : rel.enabled with
  | false =>
    intro still
    simp [active] at still
  | true =>
    simp only [if_true]
    cases out : (relOnRemove rel idx count).1 with
    | true =>
      intro still
      cases still
    | false =>
      intro _still
      exact ⟨active, each _ mem active out⟩

section

variable (followed : List.Forall₂ (Follows edit good) old new)
include followed

theorem exists_followed (mem : rel ∈ new) : ∃ src ∈ old, Follows edit good src rel := by
  induction followed with
  | nil => cases mem
  | cons head rest ih =>
    rcases mem_cons.mp mem with here | later
    · subst here
      exact ⟨_, mem_cons_self, head⟩
    · obtain ⟨src, sourceMember, link⟩ := ih later
      exact ⟨src, mem_cons_of_mem _ sourceMember, link⟩

theorem good_of_follows (rel : Relation) (mem : rel ∈ new) (active : rel.enabled = true) :
    good rel := by
  obtain ⟨_source, _sourceMember, link⟩ := exists_followed followed mem
  exact (link active).2.2

private theorem apart_of_follows (apart : old.Pairwise Apart) : new.Pairwise Apart := by
  induction followed with
  | nil => exact List.Pairwise.nil
  | @cons oldHead newHead oldRest newRest head rest ih =>
    obtain ⟨clear, tail⟩ := pairwise_cons.mp apart
    refine pairwise_cons.mpr ⟨?_, ih tail⟩
    intro other mem headActive otherActive addr inHead inOther
    obtain ⟨src, sourceMember, link⟩ := exists_followed rest mem
    obtain ⟨oldActive, headCarried, _⟩ := head headActive
    obtain ⟨sourceActive, otherCarried, _⟩ := link otherActive
    have headOffset : addr - newHead.pos < oldHead.size := by
      have same := headCarried.size
      unfold Relation.Holds at inHead
      omega
    have otherOffset : addr - other.pos < src.size := by
      have same := otherCarried.size
      unfold Relation.Holds at inOther
      omega
    have headMoved := headCarried.moved _ headOffset
    have otherMoved := otherCarried.moved _ otherOffset
    rw [Nat.add_sub_cancel' inHead.1] at headMoved
    rw [Nat.add_sub_cancel' inOther.1] at otherMoved
    have samePlace := edit.move_inj headMoved otherMoved
    refine clear _ sourceMember oldActive sourceActive
      (oldHead.pos + (addr - newHead.pos)) ⟨by omega, by omega⟩ ?_
    exact ⟨by omega, by omega⟩

end

structure Tracked where
  text : Text Byte
  relations : Meta

structure Report where
  edit : Edit Byte
  ignoreInvalid : Bool

def Report.outcome (report : Report) (rels : Meta) : Bool × Meta :=
  match report.edit with
  | .insert idx count _ => fsTrackInsert idx count report.ignoreInvalid rels
  | .delete idx count => (false, fsTrackDelete idx count rels)

def Tracked.step (s : Tracked) (report : Report) : Tracked :=
  { text := report.edit.apply s.text
    relations := (report.outcome s.relations).2 }

/-- The edit lies within the buffer, lengths stay below 64 bits and the tracking
function returns no error. -/
structure Fitting (s : Tracked) (report : Report) : Prop where
  fit : report.edit.Fits s.text.len
  bounded : s.text.len < 2 ^ 64 ∧ (report.edit.apply s.text).len < 2 ^ 64
  accepted : (report.outcome s.relations).1 = false

structure Admitted (s : Tracked) (report : Report) : Prop extends Fitting s report where
  small : ∀ rel ∈ s.relations, rel.enabled = true → Small rel report.edit

def Tracked.Inside (s : Tracked) : Prop :=
  ∀ rel ∈ s.relations, rel.enabled = true → rel.Inside s.text.len

instance (s : Tracked) : Decidable s.Inside :=
  inferInstanceAs (Decidable (∀ rel ∈ s.relations, _ → _))

variable (inside : s.Inside)

include inside

private theorem step_follows_inside (fitting : Fitting s report) :
    List.Forall₂ (Follows report.edit (Relation.Inside · (s.step report).text.len))
      s.relations (s.step report).relations := by
  obtain ⟨edit, _⟩ := report
  obtain ⟨fit, bounded, accepted⟩ := fitting
  cases edit with
  | insert idx count data =>
    refine fsTrackInsert_follows _ ?_ accepted
    intro rel mem active went
    exact relOnInsert_carried _ (inside _ mem active) bounded.2 went
  | delete idx count =>
    refine fsTrackDelete_follows ?_
    intro rel mem active went
    exact relOnRemove_carried (inside _ mem active) fit bounded.1 went

theorem Tracked.Inside.step (fitting : Fitting s report) :
    (s.step report).Inside :=
  good_of_follows (step_follows_inside inside fitting)

theorem Tracked.Inside.run (reports : List Report)
    (fitting : Along Tracked.step Fitting s reports) :
    (runFrom Tracked.step s reports).Inside :=
  runFrom_invariant Tracked.Inside (fun _ _ kept fits => kept.step fits) s inside reports fitting

omit inside

structure Tracked.Consistent (s : Tracked) : Prop where
  sound : ∀ rel ∈ s.relations, rel.enabled = true → Sound s.text.len rel
  apart : s.relations.Pairwise Apart

theorem step_follows (consistent : s.Consistent) (admitted : Admitted s report) :
    List.Forall₂ (Follows report.edit (Sound (s.step report).text.len)) s.relations
      (s.step report).relations := by
  obtain ⟨edit, _⟩ := report
  obtain ⟨⟨fit, bounded, accepted⟩, small⟩ := admitted
  cases edit with
  | insert idx count data =>
    refine fsTrackInsert_follows _ ?_ accepted
    intro rel mem active went
    have sound := consistent.sound _ mem active
    exact ⟨(relOnInsert_carried _ sound.inside bounded.2 went).1,
      relOnInsert_sound _ sound (small _ mem active) bounded.2 went⟩
  | delete idx count =>
    refine fsTrackDelete_follows ?_
    intro rel mem active went
    have sound := consistent.sound _ mem active
    exact ⟨(relOnRemove_carried sound.inside fit bounded.1 went).1,
      relOnRemove_sound sound fit bounded.1 went⟩

theorem Tracked.Consistent.step (consistent : s.Consistent) (admitted : Admitted s report) :
    (s.step report).Consistent := by
  have followed := step_follows consistent admitted
  exact ⟨good_of_follows followed, apart_of_follows followed consistent.apart⟩

/-- The new relation is about the bytes of the old field, where all the edits put
them. -/
def CarriedAll (edits : List (Edit Byte)) (old new : Relation) : Prop :=
  new.enabled = true → old.enabled = true ∧ new.size = old.size ∧ new.le = old.le ∧
    ∀ k, k < old.size → moveAll edits (old.pos + k) = some (new.pos + k)

private theorem carriedAll_cons {rest : List (Edit Byte)} {old middle new : Meta}
    (first : List.Forall₂ (Follows edit good) old middle)
    (later : List.Forall₂ (CarriedAll rest) middle new) :
    List.Forall₂ (CarriedAll (edit :: rest)) old new := by
  induction first generalizing new with
  | nil =>
    cases later
    exact List.Forall₂.nil
  | cons head tail ih =>
    cases later with
    | cons laterHead laterTail =>
      refine List.Forall₂.cons ?_ (ih laterTail)
      intro active
      obtain ⟨middleActive, size, le, moved⟩ := laterHead active
      obtain ⟨oldActive, carried, _sound⟩ := head middleActive
      refine ⟨oldActive, size.trans carried.size, le.trans carried.le, ?_⟩
      intro k inField
      rw [moveAll_cons, carried.moved k inField]
      exact moved k (by rw [carried.size]; exact inField)

private theorem run_carries (consistent : s.Consistent) (reports : List Report)
    (admitted : Along Tracked.step Admitted s reports) :
    List.Forall₂ (CarriedAll (reports.map Report.edit)) s.relations
      (runFrom Tracked.step s reports).relations := by
  induction reports generalizing s with
  | nil =>
    refine forall₂_same.mpr ?_
    intro rel _member active
    exact ⟨active, rfl, rfl, fun _ _ => rfl⟩
  | cons report rest ih =>
    exact carriedAll_cons (step_follows consistent admitted.1)
      (ih (consistent.step admitted.1) admitted.2)

private theorem run_text (s : Tracked) (reports : List Report) :
    (runFrom Tracked.step s reports).text =
      runFrom Edit.apply s.text (reports.map Report.edit) := by
  induction reports generalizing s with
  | nil => rfl
  | cons report rest ih => exact ih (s.step _)

/-- A buffer whose enabled fields are apart, lie inside it, and read as the distance
from anchor to insert. -/
structure Tracked.Framed (s : Tracked) : Prop where
  inside : ∀ rel ∈ s.relations, rel.enabled = true → rel.pos + rel.size ≤ s.text.len
  measured : ∀ rel ∈ s.relations, rel.enabled = true → rel.insert = rel.anchor + rel.val
  decoded : ∀ rel ∈ s.relations, rel.enabled = true →
    decodeValue (fun i => s.text.cell (rel.pos + i)) rel.size rel.le = rel.val
  apart : s.relations.Pairwise Apart

private theorem Tracked.Framed.consistent (framed : s.Framed) :
    s.Consistent := by
  refine ⟨?_, framed.apart⟩
  intro rel mem active
  refine ⟨framed.inside _ mem active, framed.measured _ mem active, ?_⟩
  rw [← framed.decoded _ mem active]
  exact decodeValue_lt _ _ _

private theorem sanitize_decodes (consistent : s.Consistent) (rel : Relation)
    (mem : rel ∈ s.relations) (active : rel.enabled = true) :
    decodeValue (fun i => fsSanitize s.relations s.text.cell (rel.pos + i)) rel.size
      rel.le = rel.val := by
  apply decodeValue_written _ _ (consistent.sound _ mem active).fits
  intro i below
  exact fsSanitize_inside s.relations s.text.cell consistent.apart _ mem active
    (rel.pos + i) ⟨by omega, by omega⟩

/-- After any run of reported edits the relations that are still enabled are about the
bytes of their fields, where the edits moved them, and still hold; the fields are apart,
and writing the values back touches nothing else. -/
theorem tracking_follows_edits (start : Tracked) (framed : start.Framed)
    (reports : List Report) (admitted : Along Tracked.step Admitted start reports) :
    let final := runFrom Tracked.step start reports
    List.Forall₂ (fun old new => new.enabled = true →
        old.enabled = true ∧ new.size = old.size ∧ new.le = old.le ∧
        new.pos + new.size ≤ final.text.len ∧ new.insert = new.anchor + new.val ∧
        ∀ k, k < new.size → moveAll (reports.map Report.edit) (old.pos + k) = some (new.pos + k) ∧
          final.text.cell (new.pos + k) = start.text.cell (old.pos + k))
      start.relations final.relations ∧
    final.relations.Pairwise Apart ∧
    (∀ rel ∈ final.relations, rel.enabled = true →
      decodeValue (fun i => fsSanitize final.relations final.text.cell (rel.pos + i)) rel.size
        rel.le = rel.val) ∧
    ∀ addr, (∀ rel ∈ final.relations, rel.enabled = true → ¬rel.Holds addr) →
      fsSanitize final.relations final.text.cell addr = final.text.cell addr := by
  intro final
  have consistent : final.Consistent :=
    runFrom_invariant Tracked.Consistent (fun _ _ kept allowed => kept.step allowed) _
      framed.consistent _ admitted
  refine ⟨?_, consistent.apart, sanitize_decodes consistent, fsSanitize_outside _ _⟩
  have carried := run_carries framed.consistent _ admitted
  have turned := List.Forall₂.flip (R := flip (CarriedAll (reports.map Report.edit))) carried
  refine List.Forall₂.flip (((forall₂_and_left _ _).mpr ⟨consistent.sound, turned⟩).imp ?_)
  rintro new old ⟨kept, link⟩ active
  obtain ⟨oldActive, size, le, moved⟩ := link active
  refine ⟨oldActive, size, le, (kept active).inside, (kept active).measured, ?_⟩
  intro k inField
  have place := moved k (by rw [← size]; exact inField)
  refine ⟨place, ?_⟩
  rw [run_text]
  exact cell_moveAll _ _ place

def framedSample : Tracked :=
  { text := { len := 8, cell := fun place => if place = 0 then 3 else 0 }
    relations :=
      [{ pos := 0, val := 3, anchor := 2, insert := 5, oldPos := 0, oldVal := 0, oldAnchor := 0,
         oldInsert := 0, size := 1, le := true, enabled := true, size_le := by decide },
       { pos := 6, val := 0, anchor := 8, insert := 8, oldPos := 0, oldVal := 0, oldAnchor := 0,
         oldInsert := 0, size := 2, le := false, enabled := true, size_le := by decide }] }

def sampleReports : List Report :=
  [⟨.insert 4 2 (fun _ => 65), true⟩, ⟨.delete 3 1, true⟩]

private theorem framedSample_framed : framedSample.Framed := by
  refine ⟨by decide, by decide, by decide, ?_⟩
  refine pairwise_cons.mpr ⟨?_, pairwise_singleton _ _⟩
  intro other mem _first _second addr
  rw [mem_singleton.mp mem]
  simp only [Relation.Holds]
  omega

private theorem sampleReports_admitted :
    Along Tracked.step Admitted framedSample sampleReports := by
  refine ⟨⟨⟨?_, ?_, by decide⟩, ?_⟩, ⟨⟨?_, ?_, by decide⟩, ?_⟩, trivial⟩
  · change 4 ≤ 8
    omega
  · change 8 < 2 ^ 64 ∧ 8 + 2 < 2 ^ 64
    omega
  · intro rel mem _active
    simp only [framedSample, mem_cons, not_mem_nil, or_false] at mem
    rcases mem with first | second
    · subst first
      exact ⟨by decide, by decide⟩
    · subst second
      exact ⟨by decide, by decide⟩
  · change 3 + 1 ≤ 8 + 2
    omega
  · change 8 + 2 < 2 ^ 64 ∧ 8 + 2 - 1 < 2 ^ 64
    omega
  · intro _rel _member _active
    trivial

theorem sample_tracking_follows :
    framedSample.Framed ∧ Along Tracked.step Admitted framedSample sampleReports ∧
      (runFrom Tracked.step framedSample sampleReports).relations.map Relation.val = [4, 0] ∧
      (runFrom Tracked.step framedSample sampleReports).relations.Pairwise Apart :=
  ⟨framedSample_framed, sampleReports_admitted, by decide,
    (tracking_follows_edits framedSample framedSample_framed sampleReports
      sampleReports_admitted).2.1⟩

end AflPlusPlus.FrameShift
