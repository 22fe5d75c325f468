/-
Computations that can go wrong in the ways C code can.

A bad access or a loop that outruns its bound is a defect.  A process that ends itself is
not: it has no further states.  `Ensures` is the postcondition that rules the first two
out; `Yields` speaks about the states that are reached only.
-/

import Mathlib.Data.List.Basic

namespace AflPlusPlus.Machine

inductive Trap where
  | badAccess
  | outOfFuel
  | aborted
  deriving DecidableEq, Repr

abbrev Checked (Value : Type) : Type := Except Trap Value

variable {Value Next : Type}

@[simp] theorem checked_ok_bind (v : Value) (next : Value → Checked Next) :
    ((.ok v : Checked Value) >>= next) = next v := rfl

def Ensures (holds : Value → Prop) : Checked Value → Prop
  | .ok v => holds v
  | .error trap => trap = .aborted

variable {run : Checked Value} {first second : Value → Prop}

theorem Ensures.mono (ensured : Ensures first run) (weaker : ∀ v, first v → second v) :
    Ensures second run := by
  cases run with
  | ok v => exact weaker _ ensured
  | error trap => exact ensured

variable {next : Value → Checked Next}

theorem Ensures.bind {second : Next → Prop}
    (ensured : Ensures first run) (continued : ∀ v, first v → Ensures second (next v)) :
    Ensures second (run >>= next) := by
  cases run with
  | ok v => exact continued _ ensured
  | error trap => exact ensured

theorem Ensures.and (left : Ensures first run) (right : Ensures second run) :
    Ensures (fun v => first v ∧ second v) run := by
  cases run with
  | ok v => exact ⟨left, right⟩
  | error trap => exact left

def Yields (holds : Value → Prop) : Checked Value → Prop
  | .ok v => holds v
  | .error _ => True

variable {holds : Value → Prop}

theorem Ensures.yields (ensured : Ensures holds run) :
    Yields holds run := by
  cases run with
  | ok v => exact ensured
  | error trap => trivial

theorem Yields.of_forall (always : ∀ v, holds v) (run : Checked Value) : Yields holds run := by
  cases run with
  | ok v => exact always _
  | error trap => trivial

theorem Yields.mono (yielded : Yields first run) (weaker : ∀ v, first v → second v) :
    Yields second run := by
  cases run with
  | ok v => exact weaker _ yielded
  | error trap => trivial

theorem Yields.bind {second : Next → Prop}
    (yielded : Yields first run) (continued : ∀ v, first v → Yields second (next v)) :
    Yields second (run >>= next) := by
  cases run with
  | ok v => exact continued _ yielded
  | error trap => trivial

end AflPlusPlus.Machine
