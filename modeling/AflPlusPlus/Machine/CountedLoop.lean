/-
Counted loops over an explicit state, with the rules that later proofs apply
instead of unfolding a loop.

An ascending loop visits 0, ..., bound - 1; a descending one visits the same
indices from the top.  The state type is arbitrary.
-/

import AflPlusPlus.Machine.LaneWord

namespace AflPlusPlus.Machine

open Function

variable {State : Type}

/-- `for (i = 0; i < bound; ++i) body` -/
def forUpto : Nat → (Nat → State → State) → State → State
  | 0, _, s => s
  | bound + 1, body, s => body bound (forUpto bound body s)

/-- `while (bound--) body`, where the body sees the decremented counter. -/
def forDown : Nat → (Nat → State → State) → State → State
  | 0, _, s => s
  | bound + 1, body, s => forDown bound body (body bound s)

@[simp] theorem forUpto_zero (body : Nat → State → State) (s : State) :
    forUpto 0 body s = s := rfl

@[simp] theorem forUpto_succ (bound : Nat) (body : Nat → State → State) (s : State) :
    forUpto (bound + 1) body s = body bound (forUpto bound body s) := rfl

@[simp] theorem forDown_zero (body : Nat → State → State) (s : State) :
    forDown 0 body s = s := rfl

@[simp] theorem forDown_succ (bound : Nat) (body : Nat → State → State) (s : State) :
    forDown (bound + 1) body s = forDown bound body (body bound s) := rfl

variable {Value : Type} (bound : Nat)

/-- An indexed loop invariant that the body advances holds after the loop. -/
theorem forUpto_invariant (body : Nat → State → State) (holds : Nat → State → Prop) (s : State)
    (start : holds 0 s) (advance : ∀ idx, idx < bound → ∀ cur,
      holds idx cur → holds (idx + 1) (body idx cur)) :
    holds bound (forUpto bound body s) := by
  induction bound with
  | zero => exact start
  | succ bound ih =>
    have pre := ih (fun idx within => advance _ (Nat.lt_succ_of_lt within))
    exact advance _ (Nat.lt_succ_self _) _ pre

theorem forUpto_preserves (body : Nat → State → State) (holds : State → Prop) (s : State)
    (start : holds s)
    (keeps : ∀ idx, idx < bound → ∀ cur, holds cur → holds (body idx cur)) :
    holds (forUpto bound body s) :=
  forUpto_invariant bound body (fun _ => holds) s start keeps

theorem forUpto_congr (first second : Nat → State → State) (s : State)
    (same : ∀ idx, idx < bound → ∀ cur, first idx cur = second idx cur) :
    forUpto bound first s = forUpto bound second s := by
  induction bound with
  | zero => rfl
  | succ bound ih =>
    rw [forUpto_succ, forUpto_succ, ih (fun idx within => same _ (Nat.lt_succ_of_lt within)),
      same _ (Nat.lt_succ_self _)]

/-- A loop whose iteration `k` rewrites only block `k` of a buffer, byte by
byte, rewrites every byte of the covered range exactly once. -/
theorem forUpto_blocks (w bound : Nat) (body : Nat → Buffer → Buffer) (rewrite : Nat → Byte → Byte)
    (block : ∀ idx, idx < bound → ∀ mem addr, body idx mem addr =
        if w * idx ≤ addr ∧ addr < w * idx + w then
          rewrite addr (mem addr)
        else mem addr)
    (mem : Buffer) (addr : Nat) :
    forUpto bound body mem addr =
      if addr < w * bound then rewrite addr (mem addr)
      else mem addr := by
  induction bound with
  | zero => simp
  | succ bound ih =>
    have pre := ih (fun idx within => block _ (Nat.lt_succ_of_lt within))
    rw [forUpto_succ, block _ (Nat.lt_succ_self _), pre]
    have grown : w * (bound + 1) = w * bound + w := Nat.mul_succ _ _
    by_cases earlier : addr < w * bound
    · rw [if_neg (by omega), if_pos earlier, if_pos (by omega)]
    · by_cases inside : addr < w * bound + w
      · rw [if_pos ⟨by omega, inside⟩, if_neg earlier, if_pos (by omega)]
      · rw [if_neg (by omega), if_neg earlier, if_neg (by omega)]

theorem forDown_bytes (body : Nat → Buffer → Buffer) (rewrite : Nat → Byte → Byte)
    (block : ∀ idx, idx < bound → ∀ mem, body idx mem =
        update mem idx (rewrite idx (mem idx))) (mem : Buffer) (addr : Nat) :
    forDown bound body mem addr =
      if addr < bound then rewrite addr (mem addr) else mem addr := by
  induction bound generalizing mem with
  | zero => simp
  | succ bound ih =>
    rw [forDown_succ, ih (fun idx within => block _ (Nat.lt_succ_of_lt within)),
      block _ (Nat.lt_succ_self _)]
    by_cases last : addr = bound
    · subst last
      rw [if_neg (Nat.lt_irrefl _), update_self, if_pos (Nat.lt_succ_self _)]
    · rw [update_of_ne last]
      by_cases earlier : addr < bound
      · rw [if_pos earlier, if_pos (Nat.lt_succ_of_lt earlier)]
      · rw [if_neg earlier, if_neg (by omega)]

variable (pos : Nat → Nat) (v : Nat → Value) (table : Nat → Value)

/-- A loop that assigns one table slot an iteration, at injective positions,
leaves each assigned value where it was put. -/
theorem forUpto_assign (distinct : ∀ left right, left < bound → right < bound →
      pos left = pos right → left = right) (idx : Nat) (within : idx < bound) :
    forUpto bound (fun k cur => update cur (pos k) (v k)) table (pos idx) = v idx := by
  induction bound with
  | zero => cases within
  | succ bound ih =>
    rw [forUpto_succ]
    by_cases last : idx = bound
    · subst last
      rw [update_self]
    · have apart : pos idx ≠ pos bound := by
        intro same
        exact last (distinct _ _ within (Nat.lt_succ_self _) same)
      rw [update_of_ne apart]
      apply ih _ (by omega)
      intro left right leftWithin rightWithin same
      exact distinct _ _ (by omega) (by omega) same

theorem forUpto_assign_other (slot : Nat) (apart : ∀ idx, idx < bound → pos idx ≠ slot) :
    forUpto bound (fun k cur => update cur (pos k) (v k)) table slot = table slot := by
  induction bound with
  | zero => rfl
  | succ bound ih =>
    rw [forUpto_succ, update_of_ne (Ne.symm (apart _ (Nat.lt_succ_self _)))]
    exact ih (fun idx within => apart _ (Nat.lt_succ_of_lt within))

end AflPlusPlus.Machine
