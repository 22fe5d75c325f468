/-
Runs of a step function over a list of actions.

A guard may restrict which action is taken in which state.  An invariant that
every guarded step keeps holds at the end of every guarded run, and so in every
state the run passes through, since a prefix of a guarded run is guarded.
-/

import Mathlib.Data.List.Basic

namespace AflPlusPlus.Machine

variable {State Action : Type}

def runFrom (step : State → Action → State) (s : State) (acts : List Action) : State :=
  acts.foldl step s

/-- Every action of the run is admitted by the guard in the state it is taken in. -/
def Along (step : State → Action → State) (guard : State → Action → Prop) :
    State → List Action → Prop
  | _, [] => True
  | s, act :: rest => guard s act ∧ Along step guard (step s act) rest

instance Along.decidable (step : State → Action → State) (guard : State → Action → Prop)
    [∀ s act, Decidable (guard s act)] :
    ∀ s acts, Decidable (Along step guard s acts)
  | _, [] => isTrue trivial
  | s, act :: rest =>
    haveI := Along.decidable step guard (step s act) rest
    inferInstanceAs (Decidable (guard s act ∧ Along step guard (step s act) rest))

variable {step : State → Action → State} {guard : State → Action → Prop} {s : State}
  (holds : State → Prop)

theorem runFrom_preserves (kept : ∀ s act, holds s → holds (step s act)) (s : State)
    (start : holds s) (acts : List Action) :
    holds (runFrom step s acts) := by
  induction acts generalizing s with
  | nil => exact start
  | cons act rest ih => exact ih (step _ _) (kept _ _ start)

theorem runFrom_invariant (kept : ∀ s act, holds s → guard s act → holds (step s act))
    (s : State) (start : holds s) (acts : List Action)
    (admitted : Along step guard s acts) : holds (runFrom step s acts) := by
  induction acts generalizing s with
  | nil => exact start
  | cons act rest ih =>
    exact ih (step _ _) (kept _ _ start admitted.1) admitted.2

theorem Along.of_append {first second : List Action}
    (admitted : Along step guard s (first ++ second)) :
    Along step guard s first ∧ Along step guard (runFrom step s first) second := by
  induction first generalizing s with
  | nil => exact ⟨trivial, admitted⟩
  | cons act rest ih =>
    have tail := ih admitted.2
    exact ⟨⟨admitted.1, tail.1⟩, tail.2⟩

variable {acts : List Action}

theorem Along.mono {strong weak : State → Action → Prop} (admitted : Along step strong s acts)
    (weaker : ∀ s act, strong s act → weak s act) :
    Along step weak s acts := by
  induction acts generalizing s with
  | nil => trivial
  | cons act rest ih => exact ⟨weaker _ _ admitted.1, ih admitted.2⟩

theorem Along.and {guard other : State → Action → Prop}
    (admitted : Along step guard s acts) (too : Along step other s acts) :
    Along step (fun s act => guard s act ∧ other s act) s acts := by
  induction acts generalizing s with
  | nil => trivial
  | cons act rest ih => exact ⟨⟨admitted.1, too.1⟩, ih admitted.2 too.2⟩

end AflPlusPlus.Machine
