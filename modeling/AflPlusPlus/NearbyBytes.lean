/-
The last step of the skip-deterministic stage with `FUZZ_NEARBY`.

It should mark what lies around the effective bytes.  The walk starts at byte 3, passes over
the two bytes behind each one it finds, and does not reach the last byte of the input.
-/

import Mathlib.Tactic.Common

namespace AflPlusPlus.NearbyBytes

/-- The walk over `skip_eff_map`; `ck_alloc` has refused an input whose sums could wrap. -/
def nearbyBytes (len : Nat) (effective : Nat → Bool) (i : Nat) (nearby : Nat → Bool) : Nat → Bool :=
  if i < len then
    if effective i then
      let fillLength := if i + 3 < len then 7 else len - i + 2
      nearbyBytes len effective (i + 3)
        (fun p => nearby p || (decide (i - 3 ≤ p) && decide (p < i - 3 + fillLength)))
    else nearbyBytes len effective (i + 1) nearby
  else nearby
termination_by len - i

/-- `skip_eff_map` behind `cleanup_skipdet`. -/
def markNearby (len : Nat) (effective nonEff : Nat → Bool) (p : Nat) : Bool :=
  effective p || (decide (p < len) && nearbyBytes len effective 3 (fun _ => false) p && !nonEff p)

/-- An effective byte lies at most 3 from `p`. -/
def Near (len : Nat) (effective : Nat → Bool) (p : Nat) : Prop :=
  ∃ e, e < len ∧ effective e = true ∧ e ≤ p + 3 ∧ p ≤ e + 3

/-- An effective byte from 3 on with no such byte less than 3 before it. -/
def Leads (effective : Nat → Bool) : Nat → Prop
  | 0 | 1 | 2 => False
  | n + 3 => effective (n + 3) = true ∧ ¬ Leads effective (n + 2) ∧ ¬ Leads effective (n + 1)

/-- `p` lies near `c`, and is not the last byte of an input that ends there. -/
def Reaches (len c p : Nat) : Prop := c ≤ p + 3 ∧ p ≤ c + 3 ∧ (p + 1 < len ∨ c + 3 < len)

variable {len : Nat} {effective : Nat → Bool}

private theorem leads_iff {i : Nat} (far : 3 ≤ i) : Leads effective i ↔
    effective i = true ∧ ∀ c < i, Leads effective c → c + 3 ≤ i := by
  obtain ⟨n, rfl⟩ : ∃ n, i = n + 3 := ⟨i - 3, by omega⟩
  refine and_congr_right fun _ => ⟨?_, ?_⟩
  · rintro ⟨one, two⟩ c below leads
    by_contra near
    obtain rfl | rfl : c = n + 2 ∨ c = n + 1 := by omega
    · exact one leads
    · exact two leads
  · intro apart
    constructor
    all_goals
      intro leads
      have := apart _ (by omega) leads
      omega

private theorem nearbyBytes_iff (i : Nat) (nearby : Nat → Bool) (far : 3 ≤ i)
    (apart : ∀ c < i, Leads effective c → c + 3 ≤ i) {p : Nat} (inside : p < len) :
    nearbyBytes len effective i nearby p = true ↔
      nearby p = true ∨ ∃ c, i ≤ c ∧ c < len ∧ Leads effective c ∧ Reaches len c p := by
  fun_induction nearbyBytes len effective i nearby with
  | case1 i nearby below hit fillLength rest =>
    have leads : Leads effective i := (leads_iff far).2 ⟨hit, apart⟩
    have next : ∀ c < i + 3, Leads effective c → c + 3 ≤ i + 3 := by
      intro c near leader
      by_contra behind
      have := ((leads_iff (by omega)).1 leader).2 i (by omega) leads
      omega
    have fills : i - 3 ≤ p ∧ p < i - 3 + fillLength ↔ Reaches len i p := by
      unfold Reaches fillLength
      split <;> omega
    rw [rest (by omega) next]
    simp only [Bool.or_eq_true, Bool.and_eq_true, decide_eq_true_eq, fills, or_assoc]
    refine or_congr_right ⟨?_, ?_⟩
    · rintro (reached | ⟨c, later, found⟩)
      · exact ⟨i, Nat.le_refl i, below, leads, reached⟩
      · exact ⟨c, by omega, found⟩
    · rintro ⟨c, later, short, leader, reached⟩
      obtain rfl | more := Nat.eq_or_lt_of_le later
      · exact .inl reached
      · exact .inr ⟨c, ((leads_iff (by omega)).1 leader).2 i more leads, short, leader, reached⟩
  | case2 i nearby below miss rest =>
    have skipped : ¬ Leads effective i := fun leader => miss ((leads_iff far).1 leader).1
    rw [rest (by omega) ?_]
    · refine or_congr_right (exists_congr fun c => and_congr_left fun found => ?_)
      have : c ≠ i := fun same => skipped (same ▸ found.2.1)
      omega
    · intro c near leader
      have : c ≠ i := fun same => skipped (same ▸ leader)
      have := apart c (by omega) leader
      omega
  | case3 i nearby ended =>
    refine (or_iff_left ?_).symm
    rintro ⟨c, later, short, _⟩
    omega

theorem Leads.far {c : Nat} (leads : Leads effective c) : 3 ≤ c ∧ effective c = true := by
  match c, leads with
  | n + 3, leads => exact ⟨Nat.le_add_left 3 n, leads.1⟩

private theorem markNearby_iff (nonEff : Nat → Bool) (p : Nat) :
    markNearby len effective nonEff p = true ↔ effective p = true ∨ p < len ∧ nonEff p = false ∧
      ∃ c, c < len ∧ Leads effective c ∧ Reaches len c p := by
  have walk := @nearbyBytes_iff len effective 3 (fun _ => false) (Nat.le_refl 3)
    (fun c low leads => absurd leads.far.1 (Nat.not_le.2 low)) p
  simp only [Bool.false_eq_true, false_or] at walk
  simp only [markNearby, Bool.or_eq_true, Bool.and_eq_true, decide_eq_true_eq, and_assoc,
    Bool.not_eq_true']
  refine or_congr_right (and_congr_right fun inside => ?_)
  rw [walk inside, and_comm]
  refine and_congr_right fun _ => exists_congr fun c => and_iff_right_of_imp ?_
  exact fun found => found.2.1.far.1

/-- The step marks what it should, exactly if everything near an effective byte is reached from
a leading one. -/
theorem markNearby_right_iff (nonEff : Nat → Bool) :
    (∀ p, markNearby len effective nonEff p = true ↔
        effective p = true ∨ p < len ∧ nonEff p = false ∧ Near len effective p) ↔
      ∀ p, p < len → effective p = false → nonEff p = false → Near len effective p →
        ∃ c, c < len ∧ Leads effective c ∧ Reaches len c p := by
  constructor
  · intro right p inside plain active near
    obtain known | found := (markNearby_iff nonEff p).1 ((right p).2 (.inr ⟨inside, active, near⟩))
    · rw [plain] at known
      cases known
    · exact found.2.2
  · intro reached p
    rw [markNearby_iff]
    constructor
    · rintro (known | ⟨inside, active, c, short, leads, low, high, _⟩)
      · exact .inl known
      · exact .inr ⟨inside, active, c, short, leads.far.2, low, high⟩
    · rintro (known | ⟨inside, active, near⟩)
      · exact .inl known
      · cases plain : effective p with
        | true => exact .inl rfl
        | false => exact .inr ⟨inside, active, reached p inside plain active near⟩

/-- Of five bytes the fourth one is effective; the fifth one is not marked. -/
theorem last_byte_not_marked :
    Near 5 (· == 3) 4 ∧ markNearby 5 (· == 3) (fun _ => false) 4 = false := by
  exact ⟨⟨3, by decide⟩, by decide +kernel⟩

end AflPlusPlus.NearbyBytes
