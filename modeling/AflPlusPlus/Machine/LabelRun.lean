/-
Control flow by labels.

A function with jumps is a step function on its labels: each block ends in a
jump or in a result.  A run has finitely many steps to spend; what it computes
does not depend on how many are left over.
-/

import AflPlusPlus.Machine.Checked

namespace AflPlusPlus.Machine

inductive Jump (State Result : Type) where
  | goto (next : State)
  | exit (res : Result)

variable {State Result : Type}

def runLabels (step : State → Checked (Jump State Result)) : Nat → State → Checked Result
  | 0, _ => .error .outOfFuel
  | fuel + 1, s =>
    match step s with
    | .error trap => .error trap
    | .ok (.exit res) => .ok res
    | .ok (.goto next) => runLabels step fuel next

def Halts (step : State → Checked (Jump State Result)) (s : State) (res : Result) : Prop :=
  ∃ fuel, runLabels step fuel s = .ok res

variable {step : State → Checked (Jump State Result)} {s next : State} {res : Result}

theorem Halts.of_exit (exits : step s = .ok (.exit res)) : Halts step s res := by
  refine ⟨1, ?_⟩
  unfold runLabels
  rw [exits]

theorem halts_goto_iff (jumps : step s = .ok (.goto next)) :
    Halts step s res ↔ Halts step next res := by
  constructor
  · intro halts
    obtain ⟨fuel, runs⟩ := halts
    cases fuel with
    | zero => cases runs
    | succ fuel =>
      unfold runLabels at runs
      rw [jumps] at runs
      exact ⟨fuel, runs⟩
  · intro halts
    obtain ⟨fuel, runs⟩ := halts
    refine ⟨fuel + 1, ?_⟩
    unfold runLabels
    rw [jumps]
    exact runs

/-- A run that comes to a result with some fuel has it with any fuel that is enough. -/
theorem Halts.settled (halts : Halts step s res) (fuel : Nat) :
    runLabels step fuel s = .error .outOfFuel ∨ runLabels step fuel s = .ok res := by
  obtain ⟨enough, runs⟩ := halts
  induction enough generalizing s fuel with
  | zero => cases runs
  | succ enough ih =>
    cases fuel with
    | zero => exact .inl rfl
    | succ fuel =>
      unfold runLabels at runs ⊢
      cases block : step s with
      | error trap =>
        rw [block] at runs
        cases runs
      | ok jump =>
        rw [block] at runs
        cases jump with
        | goto following => exact ih fuel runs
        | exit last => exact .inr runs

variable {holds : State → Prop} {final : Result → Prop}

/-- What every block keeps, the result of a run has. -/
theorem Halts.invariant
    (kept : ∀ cur following, holds cur → step cur = .ok (.goto following) → holds following)
    (ends : ∀ cur last, holds cur → step cur = .ok (.exit last) → final last)
    (halts : Halts step s res) (start : holds s) : final res := by
  obtain ⟨fuel, runs⟩ := halts
  induction fuel generalizing s with
  | zero => cases runs
  | succ fuel ih =>
    unfold runLabels at runs
    cases block : step s with
    | error trap =>
      rw [block] at runs
      cases runs
    | ok jump =>
      rw [block] at runs
      cases jump with
      | goto following => exact ih (kept _ _ start block) runs
      | exit last =>
        cases runs
        exact ends _ _ start block

/-- The end of a block in a run that has to come to an end: no trap, a result as
wanted, or a jump to a lower state that is again as it should be. -/
def Descends (holds : State → Prop) (lower : State → State → Prop) (final : Result → Prop)
    (cur : State) : Checked (Jump State Result) → Prop
  | .error _ => False
  | .ok (.exit last) => final last
  | .ok (.goto following) => holds following ∧ lower following cur

/-- Total correctness: blocks that all descend a well-founded order reach a result. -/
theorem Halts.of_descent {lower : State → State → Prop} (grounded : WellFounded lower)
    (descends : ∀ cur, holds cur → Descends holds lower final cur (step cur)) (start : holds s) :
    ∃ res, Halts step s res ∧ final res := by
  induction s using grounded.induction with
  | _ s ih =>
    have ending := descends _ start
    cases block : step s with
    | error trap =>
      rw [block] at ending
      exact ending.elim
    | ok jump =>
      rw [block] at ending
      cases jump with
      | exit last => exact ⟨last, Halts.of_exit block, ending⟩
      | goto following =>
        obtain ⟨again, below⟩ := ending
        obtain ⟨res, halts, wanted⟩ := ih following below again
        exact ⟨res, (halts_goto_iff block).mpr halts, wanted⟩

/-- A run that always jumps back into a set of states uses up any fuel. -/
theorem runLabels_diverges (progress : ∀ cur, holds cur →
      ∃ following, step cur = .ok (.goto following) ∧ holds following)
    (start : holds s) (fuel : Nat) : runLabels step fuel s = .error .outOfFuel := by
  induction fuel generalizing s with
  | zero => rfl
  | succ fuel ih =>
    obtain ⟨following, jumps, again⟩ := progress s start
    unfold runLabels
    rw [jumps]
    exact ih again

end AflPlusPlus.Machine
