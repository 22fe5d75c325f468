/-
A greedy cover by one scan.

Every index may have an owner.  An owner is taken when its index is not yet covered, and
then everything it covers is covered.  Nothing is assumed about what an owner covers,
not even that it covers its own index.
-/

import Mathlib.Data.Nat.Basic

namespace AflPlusPlus.Machine.GreedyCover

variable {Item : Type} (owner : Nat → Option Item) (covers : Item → Nat → Bool)

/-- Whether an index is still uncovered after the first indices of the scan. -/
def uncovered : Nat → Nat → Bool
  | 0, _ => true
  | scanned + 1, i =>
    uncovered scanned i &&
      !(uncovered scanned scanned && (owner scanned).any (fun item => covers item i))

/-- The scan takes the owner of this index. -/
def TakenAt (i : Nat) (item : Item) : Prop :=
  owner i = some item ∧ uncovered owner covers i i = true

/-- The items taken by a scan of the first indices. -/
def Taken (bound : Nat) (item : Item) : Prop :=
  ∃ i, i < bound ∧ TakenAt owner covers i item

variable {owner covers}

theorem Taken.succ_iff (bound : Nat) (item : Item) :
    Taken owner covers (bound + 1) item ↔
      Taken owner covers bound item ∨ TakenAt owner covers bound item := by
  constructor
  · intro taken
    obtain ⟨i, within, here⟩ := taken
    rcases Nat.lt_succ_iff_lt_or_eq.1 within with earlier | last
    · exact .inl ⟨i, earlier, here⟩
    · rw [last] at here
      exact .inr here
  · intro either
    rcases either with earlier | last
    · obtain ⟨i, within, here⟩ := earlier
      exact ⟨i, Nat.lt_succ_of_lt within, here⟩
    · exact ⟨bound, Nat.lt_succ_self _, last⟩

private theorem exists_taken_of_covered (scanned i : Nat)
    (covered : uncovered owner covers scanned i = false) :
    ∃ item, Taken owner covers scanned item ∧ covers item i = true := by
  induction scanned with
  | zero => cases covered
  | succ scanned ih =>
    by_cases pre : uncovered owner covers scanned i = false
    · obtain ⟨item, taken, hit⟩ := ih pre
      exact ⟨item, (Taken.succ_iff _ _).2 (.inl taken), hit⟩
    · rw [Bool.not_eq_false] at pre
      unfold uncovered at covered
      rw [pre, Bool.true_and, Bool.not_eq_false', Bool.and_eq_true] at covered
      cases held : owner scanned with
      | none =>
        rw [held] at covered
        cases covered.2
      | some item =>
        rw [held] at covered
        exact ⟨item, (Taken.succ_iff _ _).2 (.inr ⟨held, covered.1⟩), covered.2⟩

theorem exists_taken_of_owner {bound i : Nat} {item : Item} (within : i < bound)
    (owned : owner i = some item) :
    ∃ chosen, Taken owner covers bound chosen ∧ (chosen = item ∨ covers chosen i = true) := by
  by_cases open_ : uncovered owner covers i i = true
  · exact ⟨item, ⟨i, within, owned, open_⟩, .inl rfl⟩
  · rw [Bool.not_eq_true] at open_
    obtain ⟨chosen, taken, hit⟩ := exists_taken_of_covered i i open_
    obtain ⟨k, _, here⟩ := taken
    exact ⟨chosen, ⟨k, by omega, here⟩, .inr hit⟩

end AflPlusPlus.Machine.GreedyCover
