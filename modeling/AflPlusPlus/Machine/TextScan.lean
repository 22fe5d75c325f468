/-
Numbers as text, and searching a sorted list by a key.

Zero-padded decimals of one width compare as text the way their numbers do.  A scan for
the first item with a given key in a list sorted by that key finds everything from that
key on, or nothing.
-/

import Mathlib.Algebra.Group.Nat.Defs
import Mathlib.Data.Char
import Mathlib.Data.List.Lex
import Mathlib.Data.List.Sort
import Mathlib.Data.List.TakeWhile

namespace AflPlusPlus.Machine

open List

/-- The last `count` decimal digits of a number. -/
def decimals : Nat → Nat → List Char
  | 0, _ => []
  | count + 1, v => Nat.digitChar (v / 10 ^ count % 10) :: decimals count v

@[simp] theorem length_decimals (count v : Nat) : (decimals count v).length = count := by
  induction count with
  | zero => rfl
  | succ count ih => exact congrArg Nat.succ ih

theorem decimals_add (front back v : Nat) :
    decimals (front + back) v = decimals front (v / 10 ^ back) ++ decimals back v := by
  induction front with
  | zero =>
    rw [Nat.zero_add]
    rfl
  | succ front ih =>
    have split : front + 1 + back = front + back + 1 := by omega
    have digit : v / 10 ^ back / 10 ^ front = v / 10 ^ (front + back) := by
      rw [Nat.div_div_eq_div_mul, ← Nat.pow_add, Nat.add_comm _ _]
    rw [split]
    simp [decimals, ih, digit]

variable {left right w v : Nat}

private theorem digitChar_lt_iff (leftDigit : left < 10) (rightDigit : right < 10) :
    Nat.digitChar left < Nat.digitChar right ↔ left < right := by
  have table : ∀ a b : Fin 10, Nat.digitChar a < Nat.digitChar b ↔ (a : Nat) < b := by decide
  exact table ⟨left, leftDigit⟩ ⟨right, rightDigit⟩

private theorem digitChar_inj (leftDigit : left < 10) (rightDigit : right < 10)
    (same : Nat.digitChar left = Nat.digitChar right) : left = right := by
  have table : ∀ a b : Fin 10, Nat.digitChar a = Nat.digitChar b → a = b := by decide
  exact congrArg Fin.val (table ⟨left, leftDigit⟩ ⟨right, rightDigit⟩ same)

theorem decimals_lt_iff (count left right : Nat) :
    decimals count left < decimals count right ↔ left % 10 ^ count < right % 10 ^ count := by
  induction count with
  | zero => simp [decimals, Nat.mod_one]
  | succ count ih =>
    have leftDigit : left / 10 ^ count % 10 < 10 := Nat.mod_lt _ (by decide)
    have rightDigit : right / 10 ^ count % 10 < 10 := Nat.mod_lt _ (by decide)
    have same : Nat.digitChar (left / 10 ^ count % 10) = Nat.digitChar (right / 10 ^ count % 10) ↔
          left / 10 ^ count % 10 = right / 10 ^ count % 10 :=
      ⟨digitChar_inj leftDigit rightDigit, congrArg Nat.digitChar⟩
    unfold decimals
    rw [cons_lt_cons_iff, digitChar_lt_iff leftDigit rightDigit, same, ih,
      Nat.mod_pow_succ, Nat.mod_pow_succ]
    generalize left / 10 ^ count % 10 = leftHigh
    generalize right / 10 ^ count % 10 = rightHigh
    constructor
    · rintro (higher | ⟨rfl, lower⟩)
      · have scaled : 10 ^ count * (leftHigh + 1) ≤ 10 ^ count * rightHigh :=
          Nat.mul_le_mul_left _ higher
        rw [Nat.mul_succ] at scaled
        omega
      · omega
    · intro below
      rcases Nat.lt_trichotomy leftHigh rightHigh with higher | rfl | lower
      · exact .inl higher
      · exact .inr ⟨rfl, by omega⟩
      · have scaled : 10 ^ count * (rightHigh + 1) ≤ 10 ^ count * leftHigh :=
          Nat.mul_le_mul_left _ lower
        rw [Nat.mul_succ] at scaled
        omega

variable {count : Nat}

private theorem decimals_inj (same : decimals count left = decimals count right) :
    left % 10 ^ count = right % 10 ^ count := by
  have notBelow := mt (decimals_lt_iff count left right).2 (same ▸ lt_irrefl _)
  have notAbove := mt (decimals_lt_iff count right left).2 (same ▸ lt_irrefl _)
  omega

/-- `%0wu`: at least `w` digits. -/
def zeroPadded (w v : Nat) : List Char :=
  let digits := Nat.toDigits 10 v
  List.replicate (w - digits.length) '0' ++ digits

def digitCount (v : Nat) : Nat := (Nat.toDigits 10 v).length

theorem lt_pow_digitCount (v : Nat) : v < 10 ^ digitCount v :=
  (Nat.length_toDigits_le_iff (by decide) Nat.length_toDigits_pos).1 (Nat.le_refl _)

private theorem toDigits_eq_decimals (v : Nat) :
    Nat.toDigits 10 v = decimals (digitCount v) v := by
  induction v using Nat.strongRecOn with
  | ind v ih =>
    unfold digitCount
    by_cases small : v < 10
    · rw [Nat.toDigits_of_lt_base small]
      simp [decimals, Nat.mod_eq_of_lt small]
    · have large : 10 ≤ v := Nat.le_of_not_lt small
      have earlier := ih (v / 10) (Nat.div_lt_self (by omega) (by decide))
      rw [Nat.toDigits_of_base_le (by decide) large, length_append, length_singleton, decimals_add]
      simp only [decimals, Nat.pow_zero, Nat.div_one, Nat.pow_one]
      exact congrArg (· ++ [_]) earlier

private theorem decimals_zero (count : Nat) : decimals count 0 = List.replicate count '0' := by
  induction count with
  | zero => rfl
  | succ count ih =>
    rw [replicate_succ, ← ih]
    simp [decimals]

theorem zeroPadded_eq (w v : Nat) :
    zeroPadded w v = decimals (max w (digitCount v)) v := by
  have split : max w (digitCount v) = (w - digitCount v) + digitCount v := by omega
  rw [split, decimals_add, Nat.div_eq_of_lt (lt_pow_digitCount _), decimals_zero,
    ← toDigits_eq_decimals]
  rfl

theorem zeroPadded_injective (w : Nat) : Function.Injective (zeroPadded w) := by
  intro left right same
  rw [zeroPadded_eq, zeroPadded_eq] at same
  have lengths := congrArg List.length same
  rw [length_decimals, length_decimals] at lengths
  rw [lengths] at same
  have shown := decimals_inj same
  have leftFits : left < 10 ^ max w (digitCount right) := by
    rw [← lengths]
    exact Nat.lt_of_lt_of_le (lt_pow_digitCount _)
      (Nat.pow_le_pow_right (by decide) (Nat.le_max_right ..))
  have rightFits : right < 10 ^ max w (digitCount right) := Nat.lt_of_lt_of_le (lt_pow_digitCount _)
      (Nat.pow_le_pow_right (by decide) (Nat.le_max_right ..))
  rw [Nat.mod_eq_of_lt leftFits, Nat.mod_eq_of_lt rightFits] at shown
  exact shown

private theorem isDigit_of_mem_zeroPadded {digit : Char} (mem : digit ∈ zeroPadded w v) :
    digit.isDigit = true := by
  rcases mem_append.1 mem with padding | shown
  · rw [eq_of_mem_replicate padding]
    rfl
  · exact Nat.isDigit_of_mem_toDigits (by decide) (by decide) shown

/-- A number that is followed by something else than a digit can be told. -/
theorem zeroPadded_append_inj {mark : Char} {rest other : List Char}
    (noDigit : mark.isDigit = false)
    (same : zeroPadded w left ++ mark :: rest = zeroPadded w right ++ mark :: other) :
    left = right := by
  have digits (v : Nat) (tail : List Char) :
      (zeroPadded w v ++ mark :: tail).takeWhile Char.isDigit = zeroPadded w v := by
    rw [takeWhile_append_of_pos (fun _ mem => isDigit_of_mem_zeroPadded mem),
      takeWhile_cons_of_neg (by simp [noDigit]), append_nil]
  have numbers := congrArg (List.takeWhile Char.isDigit) same
  rw [digits, digits] at numbers
  exact zeroPadded_injective _ numbers

theorem length_zeroPadded_le {limit : Nat} (narrow : w ≤ limit) (pos : 0 < limit)
    (short : v < 10 ^ limit) :
    (zeroPadded w v).length ≤ limit := by
  have fits : digitCount v ≤ limit := (Nat.length_toDigits_le_iff (by decide) pos).2 short
  rw [zeroPadded_eq, length_decimals]
  exact Nat.max_le.2 ⟨narrow, fits⟩

/-- The number that the first `w` digits show. -/
def leading (w v : Nat) : Nat := v / 10 ^ (digitCount v - w)

theorem take_zeroPadded (w v : Nat) :
    (zeroPadded w v).take w = decimals w (leading w v) := by
  have split : max w (digitCount v) = w + (digitCount v - w) := by omega
  rw [zeroPadded_eq, split, decimals_add, take_left' (length_decimals ..)]
  rfl

theorem leading_lt (w v : Nat) : leading w v < 10 ^ w := by
  unfold leading
  have below := lt_pow_digitCount v
  rw [Nat.div_lt_iff_lt_mul (Nat.pow_pos (by decide)), ← Nat.pow_add]
  exact Nat.lt_of_lt_of_le below (Nat.pow_le_pow_right (by decide) (by omega))

theorem leading_of_lt (wide : 0 < w) (short : v < 10 ^ w) :
    leading w v = v := by
  have fits : digitCount v ≤ w := (Nat.length_toDigits_le_iff (by decide) wide).2 short
  unfold leading
  rw [Nat.sub_eq_zero_of_le fits, Nat.pow_zero, Nat.div_one]

theorem le_leading_of_le (wide : 0 < w) (long : 10 ^ w ≤ v) :
    10 ^ (w - 1) ≤ leading w v := by
  have longer : w < digitCount v := by
    by_contra fits
    have short := (Nat.length_toDigits_le_iff (by decide) wide).1 (Nat.le_of_not_lt fits)
    omega
  have filled : 10 ^ (digitCount v - 1) ≤ v := by
    by_contra short
    have fewer := (Nat.length_toDigits_le_iff (by decide) (by omega)).2 (Nat.lt_of_not_le short)
    change digitCount _ ≤ digitCount _ - 1 at fewer
    omega
  unfold leading
  rw [Nat.le_div_iff_mul_le (Nat.pow_pos (by decide)), ← Nat.pow_add]
  have sum : w - 1 + (digitCount v - w) = digitCount v - 1 := by omega
  rw [sum]
  exact filled

variable {Item : Type}

private theorem lt_of_take_lt_take [LinearOrder Item] {left right : List Item}
    (below : left.take count < right.take count) : left < right := by
  induction count generalizing left right with
  | zero => exact absurd below (by simp)
  | succ count ih =>
    cases right with
    | nil => exact absurd below (by simp)
    | cons second rightRest =>
      cases left with
      | nil => exact nil_lt_cons ..
      | cons first leftRest =>
        rw [take_succ_cons, take_succ_cons, cons_lt_cons_iff] at below
        rw [cons_lt_cons_iff]
        exact below.imp_right (fun tie => ⟨tie.1, ih tie.2⟩)

theorem take_le_take [LinearOrder Item] {left right : List Item}
    (ordered : left ≤ right) (count : Nat) : left.take count ≤ right.take count := by
  rw [← not_lt] at ordered ⊢
  exact fun below => ordered (lt_of_take_lt_take below)

section Scan

variable {Item Key : Type} [LinearOrder Key] [DecidableEq Key] (key : Item → Key)

omit [LinearOrder Key] in
theorem dropWhile_of_absent {items : List Item} {target : Key}
    (absent : ∀ item ∈ items, key item ≠ target) :
    items.dropWhile (fun item => decide (key item ≠ target)) = [] := by
  rw [dropWhile_eq_nil_iff]
  intro item mem
  exact decide_eq_true (absent item mem)

/-- The scan stops at the first item with the key and so keeps all that follow
in the order. -/
theorem dropWhile_of_sorted {items : List Item} {target : Key}
    (sorted : items.Pairwise (fun left right => key left ≤ key right))
    (present : ∃ item ∈ items, key item = target) :
    items.dropWhile (fun item => decide (key item ≠ target)) =
      items.filter (fun item => decide (target ≤ key item)) := by
  induction items with
  | nil =>
    obtain ⟨item, mem, _⟩ := present
    cases mem
  | cons first rest ih =>
    rw [pairwise_cons] at sorted
    obtain ⟨item, mem, found⟩ := present
    by_cases here : key first = target
    · have kept : ∀ later ∈ first :: rest, decide (target ≤ key later) = true := by
        intro later mem
        rcases mem_cons.1 mem with rfl | mem
        · exact decide_eq_true (le_of_eq here.symm)
        · exact decide_eq_true (here ▸ sorted.1 _ mem)
      rw [filter_eq_self.2 kept, dropWhile_cons_of_neg (by simpa using here)]
    · have later : item ∈ rest := by
        rcases mem_cons.1 mem with rfl | later
        · exact absurd found here
        · exact later
      have below : ¬ target ≤ key first := by
        intro above
        have ordered := sorted.1 _ later
        rw [found] at ordered
        exact here (le_antisymm ordered above)
      rw [dropWhile_cons_of_pos (by simpa using here), filter_cons_of_neg (by simpa using below)]
      exact ih sorted.2 ⟨item, later, found⟩

end Scan

end AflPlusPlus.Machine
