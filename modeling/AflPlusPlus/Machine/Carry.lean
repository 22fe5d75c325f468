/-
Adding a small number to a word.

As long as the lower part does not overflow, the exclusive or with the sum is
that of the lower parts.  When it overflows, all bits of the lower part above
the small number change.
-/

import Mathlib.Algebra.Group.Nat.Defs
import Mathlib.Logic.Function.Basic

namespace AflPlusPlus.Machine

open BitVec

private theorem xor_low {high : Nat} {a b : Nat} (same : a / 2 ^ high = b / 2 ^ high) :
    a ^^^ b = (a % 2 ^ high) ^^^ (b % 2 ^ high) := by
  have upper : (a ^^^ b) / 2 ^ high = 0 := by
    rw [Nat.xor_div_two_pow, same, Nat.xor_self]
  have parts := Nat.div_add_mod (a ^^^ b) (2 ^ high)
  rw [upper, Nat.mul_zero, Nat.zero_add, Nat.xor_mod_two_pow] at parts
  exact parts.symm

variable {total narrow : Nat}

theorem xor_setWidth_of_high {wide : Nat} {left right : BitVec wide}
    (fits : wide ≤ total) (shorter : narrow ≤ wide)
    (same : left.toNat / 2 ^ narrow = right.toNat / 2 ^ narrow) :
    (left ^^^ right).setWidth total =
      (left.setWidth narrow ^^^ right.setWidth narrow).setWidth total := by
  apply eq_of_toNat_eq
  rw [toNat_setWidth_of_le fits, toNat_setWidth_of_le (by omega), toNat_xor,
    toNat_xor, toNat_setWidth, toNat_setWidth]
  exact xor_low same

private theorem add_div_of_calm {a step unit : Nat} (calm : a % unit + step < unit) :
    (a + step) / unit = a / unit := by
  have parts := Nat.div_add_mod a unit
  have sum : a + step = unit * (a / unit) + (a % unit + step) := by omega
  rw [sum, Nat.mul_add_div (by omega), Nat.div_eq_of_lt calm, Nat.add_zero]

private theorem sub_div_of_calm {a step unit : Nat} (pos : 0 < unit) (calm : step ≤ a % unit) :
    (a - step) / unit = a / unit := by
  have parts := Nat.div_add_mod a unit
  have below := Nat.mod_lt a pos
  have difference : a - step = unit * (a / unit) + (a % unit - step) := by omega
  have rest : (a % unit - step) / unit = 0 := Nat.div_eq_of_lt (by omega)
  rw [difference, Nat.mul_add_div pos, rest, Nat.add_zero]

variable {low : Nat}

section Carry

variable {wide narrow : Nat} (word : BitVec wide) (step : Nat)

private theorem high_add (shorter : narrow ≤ wide)
    (calm : word.toNat % 2 ^ narrow + step < 2 ^ narrow) :
    (word + BitVec.ofNat wide step).toNat / 2 ^ narrow = word.toNat / 2 ^ narrow := by
  have kept := add_div_of_calm calm
  have below : word.toNat + step < 2 ^ wide := by
    have quotients := Nat.div_lt_div_of_lt_of_dvd (Nat.pow_dvd_pow 2 shorter) word.isLt
    rw [← kept] at quotients
    exact Nat.lt_of_div_lt_div quotients
  rw [toNat_add, toNat_ofNat, Nat.add_mod_mod, Nat.mod_eq_of_lt below, kept]

private theorem high_sub (calm : step ≤ word.toNat % 2 ^ narrow) :
    (word - BitVec.ofNat wide step).toNat / 2 ^ narrow = word.toNat / 2 ^ narrow := by
  have least := Nat.le_trans calm (Nat.mod_le _ _)
  have small : step % 2 ^ wide = step := Nat.mod_eq_of_lt (by omega)
  have v : (word - BitVec.ofNat wide step).toNat = word.toNat - step := by
    rw [toNat_sub_of_le, toNat_ofNat, small]
    rw [le_def, toNat_ofNat, small]
    exact least
  rw [v, sub_div_of_calm (Nat.two_pow_pos _) calm]

theorem setWidth_sub (other : BitVec wide) (shorter : narrow ≤ wide) :
    (word - other).setWidth narrow = word.setWidth narrow - other.setWidth narrow := by
  have back := congrArg (BitVec.setWidth narrow) (BitVec.sub_add_cancel word other)
  rw [setWidth_add _ _ shorter] at back
  rw [← back, BitVec.add_sub_cancel]

private theorem setWidth_sub_ofNat (shorter : narrow ≤ wide) :
    (word - BitVec.ofNat wide step).setWidth narrow =
      word.setWidth narrow - BitVec.ofNat narrow step := by
  rw [setWidth_sub _ _ shorter, setWidth_ofNat_of_le shorter]

private theorem setWidth_add_ofNat (shorter : narrow ≤ wide) :
    (word + BitVec.ofNat wide step).setWidth narrow =
      word.setWidth narrow + BitVec.ofNat narrow step := by
  rw [setWidth_add _ _ shorter, setWidth_ofNat_of_le shorter]

theorem calm_add (fits : wide ≤ total) (shorter : narrow ≤ wide)
    (calm : word.toNat % 2 ^ narrow + step < 2 ^ narrow) :
    (word ^^^ (word + BitVec.ofNat wide step)).setWidth total =
      (word.setWidth narrow ^^^ (word.setWidth narrow + BitVec.ofNat narrow step)).setWidth
        total := by
  rw [← setWidth_add_ofNat _ _ shorter]
  exact xor_setWidth_of_high fits shorter (high_add _ _ shorter calm).symm

theorem calm_sub (fits : wide ≤ total) (shorter : narrow ≤ wide)
    (calm : step ≤ word.toNat % 2 ^ narrow) :
    (word ^^^ (word - BitVec.ofNat wide step)).setWidth total =
      (word.setWidth narrow ^^^ (word.setWidth narrow - BitVec.ofNat narrow step)).setWidth
        total := by
  rw [← setWidth_sub_ofNat _ _ shorter]
  exact xor_setWidth_of_high fits shorter (high_sub _ _ calm).symm

variable (fits : low ≤ narrow)

include fits

private theorem xor_far {a b : Nat}
    (top : 2 ^ narrow - 2 ^ low ≤ a % 2 ^ narrow) (bottom : b % 2 ^ narrow < 2 ^ low) :
    (a ^^^ b) % 2 ^ narrow / 2 ^ low = 2 ^ (narrow - low) - 1 := by
  have split : 2 ^ narrow = 2 ^ (narrow - low) * 2 ^ low := by
    rw [← Nat.pow_add, Nat.sub_add_cancel fits]
  have pos := Nat.two_pow_pos (narrow - low)
  have below := Nat.mod_lt a (Nat.two_pow_pos narrow)
  have ones : a % 2 ^ narrow / 2 ^ low = 2 ^ (narrow - low) - 1 := by
    apply Nat.div_eq_of_lt_le
    · rw [Nat.sub_mul, Nat.one_mul, ← split]
      exact top
    · rw [Nat.sub_add_cancel pos, ← split]
      exact below
  rw [Nat.xor_mod_two_pow, Nat.xor_div_two_pow, ones, Nat.div_eq_of_lt bottom, Nat.xor_zero]

theorem overflow_add (shorter : narrow ≤ wide)
    (small : step < 2 ^ low) (wraps : 2 ^ narrow ≤ word.toNat % 2 ^ narrow + step) :
    (word ^^^ (word + BitVec.ofNat wide step)).toNat % 2 ^ narrow / 2 ^ low =
      2 ^ (narrow - low) - 1 := by
  have bound := Nat.pow_le_pow_right (show 0 < 2 by decide) fits
  apply xor_far fits (by omega)
  rw [toNat_add, toNat_ofNat, Nat.add_mod_mod,
    Nat.mod_mod_of_dvd _ (Nat.pow_dvd_pow 2 shorter), Nat.add_mod,
    Nat.mod_eq_of_lt (show step < 2 ^ narrow by omega), Nat.mod_eq_sub_mod wraps,
    Nat.mod_eq_of_lt (by omega)]
  omega

theorem overflow_sub (shorter : narrow ≤ wide)
    (small : step < 2 ^ low) (wraps : word.toNat % 2 ^ narrow < step) :
    (word ^^^ (word - BitVec.ofNat wide step)).toNat % 2 ^ narrow / 2 ^ low =
      2 ^ (narrow - low) - 1 := by
  have bound := Nat.pow_le_pow_right (show 0 < 2 by decide) fits
  -- the difference overflows when the step is added back
  have back : (word - BitVec.ofNat wide step) + BitVec.ofNat wide step = word :=
    BitVec.sub_add_cancel _ _
  have again : 2 ^ narrow ≤ (word - BitVec.ofNat wide step).toNat % 2 ^ narrow + step := by
    rcases Nat.lt_or_ge ((word - BitVec.ofNat _ _).toNat % 2 ^ narrow + step) (2 ^ narrow)
      with calm | wraps
    · have sum := congrArg (fun v => v.toNat % 2 ^ narrow) back
      rw [toNat_add, toNat_ofNat, Nat.add_mod_mod,
        Nat.mod_mod_of_dvd _ (Nat.pow_dvd_pow 2 shorter), Nat.add_mod,
        Nat.mod_eq_of_lt (show step < 2 ^ narrow by omega), Nat.mod_eq_of_lt calm] at sum
      omega
    · exact wraps
  have far := overflow_add (word - BitVec.ofNat _ _) _ fits shorter small again
  rw [back, BitVec.xor_comm] at far
  exact far

end Carry

end AflPlusPlus.Machine
