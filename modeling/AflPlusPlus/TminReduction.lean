/-
What one accepted candidate of the minimiser is to the data before it.

An edit changes nothing or makes the data smaller, where a byte counts twice unless it
is `'0'`; this is why the passes cannot go on for ever.
-/

import AflPlusPlus.TminMinimize
import Mathlib.Algebra.GroupWithZero.Nat

namespace AflPlusPlus.Tmin

open Machine List

/-- The data comes from the original by deleting bytes and replacing bytes by `'0'`. -/
inductive Simplifies : List Byte → List Byte → Prop where
  | nil : Simplifies [] []
  | delete (byte : Byte) {orig data : List Byte} :
      Simplifies orig data → Simplifies (byte :: orig) data
  | retain (byte : Byte) {orig data : List Byte} :
      Simplifies orig data → Simplifies (byte :: orig) (byte :: data)
  | zero (byte : Byte) {orig data : List Byte} :
      Simplifies orig data → Simplifies (byte :: orig) (zeroChar :: data)

namespace Simplifies

variable {orig data further : List Byte}

theorem refl (data : List Byte) : Simplifies data data := by
  induction data with
  | nil => exact .nil
  | cons byte rest ih => exact .retain _ ih

theorem trans (first : Simplifies orig data) (second : Simplifies data further) :
    Simplifies orig further := by
  induction first generalizing further with
  | nil => exact second
  | delete byte _ ih => exact .delete _ (ih second)
  | retain byte _ ih =>
    cases second with
    | delete _ rest => exact .delete _ (ih rest)
    | retain _ rest => exact .retain _ (ih rest)
    | zero _ rest => exact .zero _ (ih rest)
  | zero byte _ ih =>
    cases second with
    | delete _ rest => exact .delete _ (ih rest)
    | retain _ rest | zero _ rest => exact .zero _ (ih rest)

private theorem of_sublist (shorter : data.Sublist orig) : Simplifies orig data := by
  induction shorter with
  | slnil => exact .nil
  | cons byte _ ih => exact .delete _ ih
  | cons_cons byte _ ih => exact .retain _ ih

theorem append {left right : List Byte} (first : Simplifies orig data)
    (second : Simplifies left right) : Simplifies (orig ++ left) (data ++ right) := by
  induction first with
  | nil => exact second
  | delete byte _ ih => exact .delete _ ih
  | retain byte _ ih => exact .retain _ ih
  | zero byte _ ih => exact .zero _ ih

private theorem replicate (data : List Byte) :
    Simplifies data (List.replicate data.length zeroChar) := by
  induction data with
  | nil => exact .nil
  | cons byte rest ih => exact .zero _ ih

end Simplifies

def weight (byte : Byte) : Nat :=
  if byte = zeroChar then 1 else 2

def size (data : List Byte) : Nat :=
  (data.map weight).sum

@[simp] theorem size_cons (byte : Byte) (rest : List Byte) :
    size (byte :: rest) = weight byte + size rest := rfl

private theorem weight_pos (byte : Byte) : 0 < weight byte := by
  unfold weight
  split <;> omega

theorem Simplifies.eq_or_smaller {orig data : List Byte} (simpler : Simplifies orig data) :
    data = orig ∨ size data < size orig := by
  induction simpler with
  | nil => exact .inl rfl
  | @delete byte orig data _ ih =>
    have positive := weight_pos byte
    right
    rw [size_cons]
    cases ih with
    | inl same =>
      rw [same]
      omega
    | inr smaller => omega
  | retain byte _ ih =>
    cases ih with
    | inl same => exact .inl (congrArg (byte :: ·) same)
    | inr smaller => exact .inr (Nat.add_lt_add_left smaller _)
  | @zero byte orig data _ ih =>
    by_cases already : byte = zeroChar
    · subst already
      cases ih with
      | inl same => exact .inl (congrArg (zeroChar :: ·) same)
      | inr smaller => exact .inr (Nat.add_lt_add_left smaller _)
    · have heavy : weight byte = 2 := if_neg already
      have light : weight zeroChar = 1 := rfl
      right
      rw [size_cons, size_cons]
      cases ih with
      | inl same =>
        rw [same]
        omega
      | inr smaller => omega

theorem simplifies_deleteBlock (data : List Byte) (delPos delLen : Nat) :
    Simplifies data (deleteBlock data delPos delLen) := by
  have parts : Simplifies (data.take delPos ++ data.drop delPos)
      (deleteBlock data delPos delLen) := by
    refine (Simplifies.refl _).append (.of_sublist ?_)
    rw [← drop_drop]
    exact drop_sublist _ _
  rwa [take_append_drop] at parts

variable (keep : Verdict) {data : List Byte}

theorem deleteBlock_ne {delPos delLen : Nat} (within : delPos < data.length)
    (positive : 0 < delLen) :
    deleteBlock data delPos delLen ≠ data := by
  intro same
  have lengths := congrArg List.length same
  unfold deleteBlock at lengths
  rw [length_append, length_take, length_drop] at lengths
  omega

variable {pos len : Nat} (fits : pos + len ≤ data.length)

include fits

theorem simplifies_blankBlock :
    Simplifies data (blankBlock data pos len) := by
  have block : ((data.drop pos).take len).length = len := by
    rw [length_take, length_drop]
    omega
  have middle := Simplifies.replicate ((data.drop pos).take len)
  rw [block] at middle
  have parts := (Simplifies.refl (data.take pos)).append
    (middle.append (Simplifies.refl ((data.drop pos).drop len)))
  rw [take_append_drop, take_append_drop, drop_drop] at parts
  exact parts

theorem blankBlock_ne (other : ((data.drop pos).take len).all (· = zeroChar) = false) :
    blankBlock data pos len ≠ data := by
  intro same
  have head : (data.take pos).length = pos := by
    rw [length_take]
    omega
  have block : (data.drop pos).take len = List.replicate len zeroChar := by
    conv_lhs => rw [← same]
    unfold blankBlock
    rw [drop_left' head, take_left' length_replicate]
  rw [block] at other
  simp at other

omit fits

private theorem simplifies_replaceSymbol (data : List Byte) (symbol : Byte) :
    Simplifies data (replaceSymbol data symbol) := by
  induction data with
  | nil => exact .nil
  | cons byte rest ih =>
    unfold replaceSymbol at ih ⊢
    rw [map_cons]
    split
    · exact .zero _ ih
    · exact .retain _ ih

variable {i : Nat} {symbol : Byte}

private theorem replaceSymbol_ne (present : symbol ∈ data) (other : symbol ≠ zeroChar) :
    replaceSymbol data symbol ≠ data := by
  intro same
  rw [← same] at present
  obtain ⟨_, _, written⟩ := mem_map.mp present
  split at written
  · exact other written.symm
  · contradiction

private theorem mem_replaceSymbol {kept : Byte} (present : kept ∈ data) (distinct : kept ≠ symbol) :
    kept ∈ replaceSymbol data symbol :=
  mem_map.mpr ⟨kept, present, if_neg distinct⟩

theorem simplifies_set (data : List Byte) (i : Nat) : Simplifies data (data.set i zeroChar) := by
  induction data generalizing i with
  | nil => exact .nil
  | cons byte rest ih =>
    cases i with
    | zero => exact .zero _ (.refl _)
    | succ i => exact .retain _ (ih i)

private theorem set_ne (other : data.getD i zeroChar ≠ zeroChar) : data.set i zeroChar ≠ data := by
  intro same
  have within : i < data.length := by
    by_contra beyond
    apply other
    rw [getD_eq_getElem?_getD, List.getElem?_eq_none (Nat.le_of_not_lt beyond)]
    rfl
  apply other
  rw [← same, getD_eq_getElem?_getD, List.getElem?_set_self within]
  rfl

private theorem set_set_getD (data : List Byte) (i : Nat) (fallback : Byte) :
    (data.set i zeroChar).set i (data.getD i fallback) = data := by
  rw [set_set, getD_eq_getElem?_getD]
  by_cases within : i < data.length
  · rw [List.getElem?_eq_getElem _]
    exact set_getElem_self within
  · exact set_eq_of_length_le (Nat.le_of_not_lt within)

/-- What a stage does to the data: nothing, or an accepted simplification that
`changed_any` tells about. -/
structure Advances (keep : Verdict) (pre post : Progress) : Prop where
  accepted : keep pre.inData = true → keep post.inData = true
  simplified : Simplifies pre.inData post.inData
  noticed : post = pre ∨ post.changedAny = true ∧ size post.inData < size pre.inData

namespace Advances

variable {keep : Verdict} {pre between post : Progress}

theorem refl (keep : Verdict) (pass : Progress) : Advances keep pass pass :=
  { accepted := id, simplified := .refl _, noticed := .inl rfl }

theorem trans (first : Advances keep pre between) (second : Advances keep between post) :
    Advances keep pre post := by
  refine ⟨second.accepted ∘ first.accepted, first.simplified.trans second.simplified, ?_⟩
  cases second.noticed with
  | inl same =>
    rw [same]
    exact first.noticed
  | inr changed =>
    obtain ⟨raised, smaller⟩ := changed
    refine .inr ⟨raised, ?_⟩
    cases first.noticed with
    | inl same => rwa [same] at smaller
    | inr earlier => exact smaller.trans earlier.2

theorem change {inData : List Byte} (accepted : keep inData = true)
    (simpler : Simplifies pre.inData inData) (differs : inData ≠ pre.inData) :
    Advances keep pre ⟨inData, true⟩ :=
  { accepted := fun _ => accepted
    simplified := simpler
    noticed := .inr ⟨rfl, simpler.eq_or_smaller.resolve_left differs⟩ }

theorem eq_of_unchanged (advances : Advances keep pre post)
    (down : post.changedAny = false) : post = pre := by
  cases advances.noticed with
  | inl same => exact same
  | inr changed =>
    rw [changed.1] at down
    cases down

end Advances

variable {alphaMap : Byte → Nat} {pass : Progress} {i : Nat}

private theorem symbolStep_advances
    (present : alphaMap (BitVec.ofNat 8 i) ≠ 0 → BitVec.ofNat 8 i ∈ pass.inData) :
    Advances keep pass (symbolStep keep alphaMap i pass) := by
  unfold symbolStep
  dsimp only
  split
  · exact .refl _ _
  · next counted =>
      obtain ⟨other, some⟩ := not_or.mp counted
      split
      · next accepted =>
          exact .change accepted (simplifies_replaceSymbol _ _)
            (replaceSymbol_ne (present some) other)
      · exact .refl _ _

private theorem mem_symbolStep {keep : Verdict}
    {symbol : Byte} (present : symbol ∈ pass.inData) (distinct : symbol ≠ BitVec.ofNat 8 i) :
    symbol ∈ (symbolStep keep alphaMap i pass).inData := by
  unfold symbolStep
  dsimp only
  split
  · exact present
  · split
    · exact mem_replaceSymbol present distinct
    · exact present

private theorem ofNat_byte_ne {j : Nat} (below : i < j) (within : j < 256) :
    BitVec.ofNat 8 j ≠ BitVec.ofNat 8 i := by
  intro same
  have values := congrArg BitVec.toNat same
  rw [BitVec.toNat_ofNat, BitVec.toNat_ofNat] at values
  omega

variable (pass : Progress)

theorem minimizeAlphabet_advances :
    Advances keep pass (minimizeAlphabet keep pass) := by
  unfold minimizeAlphabet
  -- the symbols still to come have not been touched since they were counted
  have loop := forUpto_invariant 256 (symbolStep _ (fun symbol => pass.inData.count symbol))
    (fun idx cur => Advances _ _ cur ∧ ∀ j, idx ≤ j → j < 256 →
      BitVec.ofNat 8 j ∈ pass.inData → BitVec.ofNat 8 j ∈ cur.inData)
    _ ⟨.refl _ _, fun _ _ _ present => present⟩
    (by
      intro idx within cur holds
      obtain ⟨so, untouched⟩ := holds
      constructor
      · refine so.trans (symbolStep_advances keep ?_)
        intro counted
        exact untouched _ (Nat.le_refl _) within (count_pos_iff.mp (Nat.pos_of_ne_zero counted))
      · intro j later bound present
        exact mem_symbolStep (untouched j (by omega) bound present)
          (ofNat_byte_ne (by omega) bound))
  exact loop.1

private theorem characterStep_advances (i : Nat) {pass : CharacterPass}
    (copied : pass.tmpBuf = pass.inData) :
    (characterStep keep i pass).tmpBuf = (characterStep keep i pass).inData ∧
      Advances keep pass.toProgress (characterStep keep i pass).toProgress := by
  unfold characterStep
  dsimp only
  split
  · exact ⟨copied, .refl _ _⟩
  · next other =>
      rw [copied] at other
      split
      · next accepted =>
          rw [copied] at accepted
          exact ⟨congrArg (·.set i zeroChar) copied,
            .change accepted (simplifies_set _ i) (set_ne other)⟩
      · exact ⟨(set_set_getD _ i _).trans copied, .refl _ _⟩

theorem minimizeCharacters_advances :
    Advances keep pass (minimizeCharacters keep pass) := by
  have loop := forUpto_preserves pass.inData.length (characterStep _)
    (fun cur => cur.tmpBuf = cur.inData ∧ Advances _ _ cur.toProgress)
    { inData := pass.inData, changedAny := pass.changedAny, tmpBuf := pass.inData }
    ⟨rfl, .refl _ pass⟩
    (by
      intro idx _ cur holds
      obtain ⟨copied, so⟩ := holds
      obtain ⟨again, more⟩ := characterStep_advances keep _ copied
      exact ⟨again, so.trans more⟩)
  exact loop.2

end AflPlusPlus.Tmin
