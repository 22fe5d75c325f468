/-
Tables of slots.

Each index below a bound holds one occupant or none.  What clearing or filling
one slot does to a flag that marks who sits in the table, and to the total
weight of those who do.
-/

import Mathlib.Algebra.Order.BigOperators.Group.Finset
import Mathlib.Data.Finset.Option
import AflPlusPlus.Machine.Tally

namespace AflPlusPlus.Machine

open Function

variable {Occupant : Type} {slots : Nat → Option Occupant} {bound i : Nat} {p : Occupant}

theorem cleared_eq_some_iff (k : Nat) (q : Occupant) :
    update slots i none k = some q ↔ k ≠ i ∧ slots k = some q := by
  by_cases here : k = i
  · rw [here, update_self]
    exact ⟨nofun, fun other => absurd rfl other.1⟩
  · rw [update_of_ne here]
    exact ⟨fun held => ⟨here, held⟩, fun both => both.2⟩

theorem filled_eq_some_iff (k : Nat) (q : Occupant) :
    update slots i (some p) k = some q ↔ k = i ∧ p = q ∨ k ≠ i ∧ slots k = some q := by
  by_cases here : k = i
  · rw [here, update_self, Option.some.injEq]
    exact ⟨fun same => .inl ⟨rfl, same⟩,
      fun either => either.elim (fun same => same.2) (fun other => absurd rfl other.1)⟩
  · rw [update_of_ne here]
    exact ⟨fun held => .inr ⟨here, held⟩,
      fun either => either.elim (fun same => absurd same.1 here) (fun other => other.2)⟩

/-- Nobody sits in two slots, and the flag marks those who sit in one. -/
structure Seated (bound : Nat) (slots : Nat → Option Occupant) (flag : Occupant → Bool) :
    Prop where
  once : ∀ i j q, i < bound → j < bound → slots i = some q → slots j = some q → i = j
  owner : ∀ q, flag q = true ↔ ∃ i, i < bound ∧ slots i = some q

variable {flag : Occupant → Bool} (seated : Seated bound slots flag)

include seated

variable (inside : i < bound)

include inside

theorem Seated.clear [DecidableEq Occupant] (held : slots i = some p) :
    Seated bound (update slots i none) (update flag p false) where
  once := by
    intro j k q insideLeft insideRight first second
    rw [cleared_eq_some_iff] at first second
    exact seated.once j k q insideLeft insideRight first.2 second.2
  owner := by
    intro q
    simp only [cleared_eq_some_iff]
    by_cases same : q = p
    · rw [same, update_self]
      constructor
      · intro bad
        cases bad
      · rintro ⟨k, below, other, here⟩
        exact absurd (seated.once k i p below inside here held) other
    · rw [update_of_ne same, seated.owner q]
      constructor
      · rintro ⟨k, below, here⟩
        refine ⟨k, below, ?_, here⟩
        intro slot
        rw [slot, held] at here
        exact same (Option.some.inj here).symm
      · rintro ⟨k, below, _, here⟩
        exact ⟨k, below, here⟩

theorem Seated.fill [DecidableEq Occupant] (empty : slots i = none) (absent : flag p = false) :
    Seated bound (update slots i (some p)) (update flag p true) := by
  have nowhere : ∀ k, k < bound → slots k ≠ some p := by
    intro k below here
    have marked := (seated.owner p).2 ⟨k, below, here⟩
    rw [absent] at marked
    cases marked
  constructor
  · intro j k q insideLeft insideRight first second
    rw [filled_eq_some_iff] at first second
    rcases first with ⟨left, isNew⟩ | ⟨_, old⟩
    · rcases second with ⟨right, _⟩ | ⟨_, old⟩
      · rw [left, right]
      · rw [← isNew] at old
        exact absurd old (nowhere k insideRight)
    · rcases second with ⟨_, isNew⟩ | ⟨_, other⟩
      · rw [← isNew] at old
        exact absurd old (nowhere j insideLeft)
      · exact seated.once j k q insideLeft insideRight old other
  · intro q
    simp only [filled_eq_some_iff]
    by_cases same : q = p
    · rw [same, update_self]
      exact ⟨fun _ => ⟨i, inside, .inl ⟨rfl, rfl⟩⟩, fun _ => rfl⟩
    · rw [update_of_ne same, seated.owner q]
      constructor
      · rintro ⟨k, below, here⟩
        refine ⟨k, below, .inr ⟨?_, here⟩⟩
        intro slot
        rw [slot, empty] at here
        cases here
      · rintro ⟨k, below, ⟨_, isNew⟩ | ⟨_, here⟩⟩
        · exact absurd isNew.symm same
        · exact ⟨k, below, here⟩

omit inside

variable {kept : Nat → Option Occupant}

theorem Seated.cut {short : Nat}
    (shorter : short ≤ bound) (same : ∀ k, k < short → kept k = slots k)
    (past : ∀ k, short ≤ k → k < bound → slots k = none) : Seated short kept flag where
  once := by
    intro j k q insideLeft insideRight first second
    rw [same j insideLeft] at first
    rw [same k insideRight] at second
    exact seated.once j k q (Nat.lt_of_lt_of_le insideLeft shorter)
      (Nat.lt_of_lt_of_le insideRight shorter) first second
  owner := by
    intro q
    rw [seated.owner q]
    constructor
    · rintro ⟨k, below, here⟩
      have inside : k < short := by
        by_contra outside
        rw [past k (Nat.le_of_not_lt outside) below] at here
        cases here
      exact ⟨k, inside, (same k inside).trans here⟩
    · rintro ⟨k, inside, here⟩
      exact ⟨k, Nat.lt_of_lt_of_le inside shorter, (same k inside).symm.trans here⟩

omit seated

variable {other : Occupant → Nat}

section Weight

variable [DecidableEq Occupant]

def occupants (bound : Nat) (slots : Nat → Option Occupant) : Finset Occupant :=
  (Finset.range bound).biUnion (fun i => (slots i).toFinset)

theorem mem_occupants (q : Occupant) :
    q ∈ occupants bound slots ↔ ∃ i, i < bound ∧ slots i = some q := by
  simp [occupants]

private theorem occupants_card_le : (occupants bound slots).card ≤ bound := by
  have single := Finset.card_biUnion_le_card_mul (Finset.range bound)
    (fun i => (slots i).toFinset) 1 (by
      intro i _
      cases slots i with
      | none => exact Nat.zero_le 1
      | some q => exact Nat.le_refl 1)
  rw [Finset.card_range, Nat.mul_one] at single
  exact single

include seated

theorem Seated.mem_occupants (q : Occupant) :
    q ∈ occupants bound slots ↔ flag q = true :=
  (Machine.mem_occupants q).trans (seated.owner q).symm

theorem Seated.occupants_eq {other : Nat} (same : Seated other kept flag) :
    occupants other kept = occupants bound slots := by
  ext q
  rw [same.mem_occupants, seated.mem_occupants]

include inside

private theorem Seated.occupants_clear (held : slots i = some p) :
    occupants bound (update slots i none) = (occupants bound slots).erase p := by
  ext q
  rw [(seated.clear inside held).mem_occupants, Finset.mem_erase, seated.mem_occupants]
  by_cases same : q = p
  · rw [same, update_self]
    exact ⟨nofun, fun both => absurd rfl both.1⟩
  · rw [update_of_ne same]
    exact ⟨fun marked => ⟨same, marked⟩, fun both => both.2⟩

private theorem Seated.occupants_fill (empty : slots i = none) (absent : flag p = false) :
    occupants bound (update slots i (some p)) = insert p (occupants bound slots) := by
  ext q
  rw [(seated.fill inside empty absent).mem_occupants, Finset.mem_insert, seated.mem_occupants]
  by_cases same : q = p
  · rw [same, update_self]
    exact ⟨fun _ => .inl rfl, fun _ => rfl⟩
  · rw [update_of_ne same]
    exact ⟨.inr, fun either => either.resolve_left same⟩

omit inside seated

variable (weight : Occupant → Nat)

def tableWeight (bound : Nat) (slots : Nat → Option Occupant) : Nat :=
  ∑ q ∈ occupants bound slots, weight q

include seated inside

theorem Seated.tableWeight_clear (held : slots i = some p) :
    weight p + tableWeight weight bound (update slots i none) = tableWeight weight bound slots := by
  unfold tableWeight
  rw [seated.occupants_clear inside held]
  exact Finset.add_sum_erase _ _ ((Machine.mem_occupants p).2 ⟨i, inside, held⟩)

theorem Seated.tableWeight_fill (empty : slots i = none) (absent : flag p = false) :
    tableWeight weight bound (update slots i (some p)) =
      weight p + tableWeight weight bound slots := by
  unfold tableWeight
  rw [seated.occupants_fill inside empty absent]
  apply Finset.sum_insert
  intro present
  rw [seated.mem_occupants, absent] at present
  cases present

omit inside seated

theorem tableWeight_reweigh (present : p ∈ occupants bound slots)
    (same : ∀ q, q ≠ p → other q = weight q) :
    weight p + tableWeight other bound slots = other p + tableWeight weight bound slots := by
  unfold tableWeight
  rw [← Finset.add_sum_erase _ weight present, ← Finset.add_sum_erase _ _ present]
  have rest : ∑ q ∈ (occupants bound slots).erase p, other q =
      ∑ q ∈ (occupants bound slots).erase p, weight q := by
    apply Finset.sum_congr rfl
    intro q mem
    exact same q (Finset.ne_of_mem_erase mem)
  omega

theorem tableWeight_congr (same : ∀ q, q ∈ occupants bound slots → other q = weight q) :
    tableWeight other bound slots = tableWeight weight bound slots :=
  Finset.sum_congr rfl same

theorem tableWeight_le (most : Nat) (each : ∀ q, weight q ≤ most) :
    tableWeight weight bound slots ≤ bound * most := by
  have small := Finset.sum_le_card_nsmul (occupants bound slots) _ _ (fun q _ => each q)
  exact small.trans (Nat.mul_le_mul_right _ occupants_card_le)

end Weight

end AflPlusPlus.Machine
