/-
Counters.

How many indices below a bound satisfy a predicate, and how that number moves
when the predicate changes at one index.
-/

import Mathlib.Algebra.BigOperators.Group.Finset.Piecewise
import Mathlib.Data.Nat.Count
import Mathlib.Logic.Function.Basic

namespace AflPlusPlus.Machine

def u32 (v : Nat) : Nat := v % 2 ^ 32

def u64 (v : Nat) : Nat := v % 2 ^ 64

/-- The decrement wraps around below zero. -/
def u32Pred (v : Nat) : Nat := if v = 0 then 2 ^ 32 - 1 else v - 1

theorem u32Pred_add_one {v : Nat} (pos : 0 < v) : u32Pred v + 1 = v := by
  unfold u32Pred
  split <;> omega

variable {pre post : Nat → Prop} [DecidablePred pre] [DecidablePred post]

theorem count_congr (bound : Nat) (agree : ∀ i, i < bound → (pre i ↔ post i)) :
    Nat.count pre bound = Nat.count post bound := by
  apply Nat.le_antisymm
  · exact Nat.count_mono_left (fun i within holds => (agree i within).1 holds)
  · exact Nat.count_mono_left (fun i within holds => (agree i within).2 holds)

theorem count_shorten (short long : Nat) (shorter : short ≤ long)
    (none : ∀ i, short ≤ i → i < long → ¬ pre i) :
    Nat.count pre long = Nat.count pre short := by
  obtain ⟨extra, rfl⟩ := Nat.exists_eq_add_of_le shorter
  have absent : Nat.count (fun k => pre (short + k)) extra = 0 := by
    rw [Nat.count_iff_forall_not]
    intro i within
    exact none (short + i) (by omega) (by omega)
  rw [Nat.count_add, absent, Nat.add_zero]

open Function

variable {Value M : Type} {bound idx : Nat}

theorem sum_update [AddCommMonoid M] (weight : Value → M) (values : Nat → Value)
    (within : idx < bound) (v : Value) :
    ∑ i ∈ Finset.range bound, weight (update values idx v i) + weight (values idx) =
      ∑ i ∈ Finset.range bound, weight (values i) + weight v := by
  have inside := Finset.mem_range.2 within
  have others : ∑ i ∈ (Finset.range bound).erase idx, weight (update values idx v i) =
      ∑ i ∈ (Finset.range bound).erase idx, weight (values i) := by
    apply Finset.sum_congr rfl
    intro i mem
    rw [update_of_ne (Finset.ne_of_mem_erase mem)]
  rw [← Finset.sum_erase_add _ _ inside, ← Finset.sum_erase_add (Finset.range _) _ inside,
    update_self, others, add_right_comm]

theorem sum_update_le (bound idx : Nat) (weight : Value → Nat) (values : Nat → Value)
    {v : Value} {extra : Nat} (light : weight v ≤ weight (values idx) + extra) :
    ∑ i ∈ Finset.range bound, weight (update values idx v i) ≤
      ∑ i ∈ Finset.range bound, weight (values i) + extra := by
  rcases Nat.lt_or_ge idx bound with within | outside
  · have moved := sum_update weight values within v
    omega
  · apply Nat.le_add_right_of_le (Nat.le_of_eq _)
    apply Finset.sum_congr rfl
    intro i mem
    have below := Finset.mem_range.1 mem
    rw [update_of_ne (by omega)]

theorem count_update (wanted : Value → Prop) [DecidablePred wanted] (values : Nat → Value)
    (within : idx < bound) (v : Value) :
    Nat.count (fun i => wanted (update values idx v i)) bound +
        (if wanted (values idx) then 1 else 0) =
      Nat.count (fun i => wanted (values i)) bound + (if wanted v then 1 else 0) := by
  simp only [Nat.count_eq_card_filter_range, Finset.card_filter]
  exact sum_update (fun v => if wanted v then 1 else 0) _ within _

end AflPlusPlus.Machine
