/-
The write budget of the bug instrumentation: nested frames on a stack of bounded depth.

A call that gets a buffer opens a frame, the stores inside it are noted, and when the call
returns the farthest one is compared with the returned size.  A frame that finds the stack
full is dropped, and a check looks for its frame by the base address.
-/

import Mathlib

namespace AflPlusPlus.WriteBudget

open List

/-- `__AFL_BUG_FRAME_STACK_DEPTH` -/
def depth : Nat := 16

/-- The cap of these frames is always 2^64 - 1, and no end of a store is above it. -/
structure Frame where
  base : Nat
  maxOff : Nat
  total : Nat
  deriving DecidableEq

/-- The bytes lie in the address space, and do not reach its last one. -/
structure Store where
  addr : Nat
  size : Nat
  inside : addr + size < 2 ^ 64

/-- The top of the stack comes first. -/
def wsBegin (base : Nat) (stack : List Frame) : List Frame :=
  if depth ≤ stack.length then stack else ⟨base, 0, 0⟩ :: stack

def Frame.note (frame : Frame) (store : Store) : Frame :=
  if store.addr < frame.base then frame
  else
    let end' := (store.addr - frame.base + store.size) % 2 ^ 64
    { frame with
      maxOff := if end' > frame.maxOff then end' else frame.maxOff
      total := (frame.total + store.size) % 2 ^ 64 }

def wsStore (stack : List Frame) (store : Store) : List Frame :=
  stack.map (Frame.note · store)

/-- `none`: the violation is reported and the program ends. -/
def wsCheckBudget (base retSize : Nat) (stack : List Frame) : Option (List Frame) :=
  match stack.dropWhile (fun frame => frame.base ≠ base) with
  | [] => some stack
  | frame :: below => if frame.maxOff > retSize then none else some below

/-- What happens from some point on: the stores, and the calls with what they do. -/
inductive History
  | done
  | store (one : Store) (rest : History)
  | frame (base retSize : Nat) (body rest : History)

def History.run : History → List Frame → Option (List Frame)
  | .done, stack => some stack
  | .store one rest, stack => rest.run (wsStore stack one)
  | .frame base retSize body rest, stack =>
    (body.run (wsBegin base stack)).bind fun inner =>
      (wsCheckBudget base retSize inner).bind rest.run

def History.stores : History → List Store
  | .done => []
  | .store one rest => one :: rest.stores
  | .frame _ _ body rest => body.stores ++ rest.stores

/-- The check of a frame that was opened on `stack` and finds `inner`: for a tracked frame it
reports exactly a store past the returned size and goes back to the stack, where the stores
are noted, and for a dropped frame it does nothing. -/
def CheckRight (stack : List Frame) (base retSize : Nat) (stores : List Store)
    (inner : List Frame) : Prop :=
  if stack.length < depth then
    (wsCheckBudget base retSize inner = none ↔
      ∃ store ∈ stores, base ≤ store.addr ∧ retSize < store.addr - base + store.size) ∧
    ∀ post, wsCheckBudget base retSize inner = some post → post = stores.foldl wsStore stack
  else wsCheckBudget base retSize inner = some inner

/-- All checks of the history that are reached are right. -/
def Correct : History → List Frame → Prop
  | .done, _ => True
  | .store one rest, stack => Correct rest (wsStore stack one)
  | .frame base retSize body rest, stack =>
    Correct body (wsBegin base stack) ∧
    ∀ inner, body.run (wsBegin base stack) = some inner →
      CheckRight stack base retSize body.stores inner ∧
      ∀ post, wsCheckBudget base retSize inner = some post → Correct rest post

/-- A frame that is dropped has no base of a tracked one. -/
def Apart : History → List Nat → Prop
  | .done, _ => True
  | .store _ rest, bases => Apart rest bases
  | .frame base _ body rest, bases =>
    (if bases.length < depth then Apart body (base :: bases)
      else base ∉ bases ∧ Apart body bases) ∧ Apart rest bases

variable (stores : List Store) {frame : Frame}

theorem note_base :
    (stores.foldl Frame.note frame).base = frame.base := by
  refine foldlRecOn (motive := fun post : Frame => post.base = frame.base) _ _ rfl ?_
  intro post same store _
  unfold Frame.note
  split <;> exact same

variable (stack : List Frame)

theorem foldl_wsStore :
    stores.foldl wsStore stack = stack.map (fun frame => stores.foldl Frame.note frame) := by
  induction stores generalizing stack with
  | nil => exact (map_id _).symm
  | cons store rest ih => rw [foldl_cons, ih, wsStore, map_map]; rfl

theorem bases_noted :
    (stores.foldl wsStore stack).map Frame.base = stack.map Frame.base := by
  rw [foldl_wsStore, map_map]
  exact map_congr_left fun frame _ => note_base _

private theorem lt_maxOff_iff (frame : Frame) (bound : Nat) :
    bound < (stores.foldl Frame.note frame).maxOff ↔ bound < frame.maxOff ∨
      ∃ store ∈ stores, frame.base ≤ store.addr ∧ bound < store.addr - frame.base + store.size := by
  induction stores generalizing frame with
  | nil => simp
  | cons store rest ih =>
    have fit := store.inside
    have same : (frame.note store).base = frame.base := note_base [store]
    rw [foldl_cons, ih, same, exists_mem_cons_iff, ← or_assoc]
    refine or_congr_left ?_
    unfold Frame.note
    split
    case isTrue below => simp [Nat.not_le.2 below]
    case isFalse above =>
      dsimp only
      split <;> omega

variable {base : Nat}

private theorem check_tracked {retSize : Nat} {below : List Frame}
    (own : frame.base = base) : wsCheckBudget base retSize (frame :: below) =
      if frame.maxOff > retSize then none else some below := by
  rw [wsCheckBudget, dropWhile_cons_of_neg (by simp [own])]

variable {stack : List Frame}

private theorem check_dropped (absent : base ∉ stack.map Frame.base)
    (retSize : Nat) : wsCheckBudget base retSize stack = some stack := by
  have all : stack.dropWhile (fun frame => frame.base ≠ base) = [] := by
    refine dropWhile_eq_nil_iff.2 ?_
    intro frame mem
    refine decide_eq_true ?_
    intro same
    exact absent (same ▸ mem_map_of_mem mem)
  rw [wsCheckBudget, all]

private theorem check_right (absent : ¬stack.length < depth → base ∉ stack.map Frame.base)
    (retSize : Nat) :
    CheckRight stack base retSize stores (stores.foldl wsStore (wsBegin base stack)) ∧
      ∀ post, wsCheckBudget base retSize (stores.foldl wsStore (wsBegin base stack)) = some post →
        post = stores.foldl wsStore stack := by
  unfold CheckRight
  split
  case isTrue room =>
    have found : wsCheckBudget base retSize (stores.foldl wsStore (wsBegin base stack)) =
        if (stores.foldl Frame.note ⟨base, 0, 0⟩).maxOff > retSize then none
        else some (stores.foldl wsStore stack) := by
      rw [wsBegin, if_neg (Nat.not_le.2 room), foldl_wsStore, foldl_wsStore]
      exact check_tracked (note_base _)
    have back : ∀ post, wsCheckBudget base retSize (stores.foldl wsStore (wsBegin base stack)) =
        some post → post = stores.foldl wsStore stack := by
      intro post popped
      rw [found] at popped
      split at popped
      · cases popped
      · exact (Option.some.inj popped).symm
    refine ⟨⟨?_, back⟩, back⟩
    rw [found, ite_eq_left_iff, gt_iff_lt, lt_maxOff_iff]
    simp
  case isFalse full =>
    have same : wsBegin base stack = stack := if_pos (Nat.not_lt.1 full)
    have nothing : wsCheckBudget base retSize (stores.foldl wsStore stack) =
        some (stores.foldl wsStore stack) :=
      check_dropped (by rw [bases_noted]; exact absent full) _
    rw [same]
    exact ⟨nothing, fun post found => Option.some.inj (found.symm.trans nothing)⟩

private theorem checks_correct (history : History) (stack : List Frame)
    (apart : Apart history (stack.map Frame.base)) :
    Correct history stack ∧
      ∀ post, history.run stack = some post → post = history.stores.foldl wsStore stack := by
  induction history generalizing stack with
  | done => exact ⟨trivial, fun post same => (Option.some.inj same).symm⟩
  | store one rest ih =>
    refine ih _ ?_
    rw [show (wsStore stack one).map Frame.base = _ from bases_noted [one] stack]
    exact apart
  | frame base retSize body rest ihBody ihRest =>
    obtain ⟨opened, later⟩ := apart
    rw [length_map] at opened
    have inner : Apart body ((wsBegin base stack).map Frame.base) ∧
        (¬stack.length < depth → base ∉ stack.map Frame.base) := by
      unfold wsBegin
      split at opened
      case isTrue room => exact ⟨by rw [if_neg (Nat.not_le.2 room)]; exact opened, absurd room⟩
      case isFalse full =>
        exact ⟨by rw [if_pos (Nat.not_lt.1 full)]; exact opened.2, fun _ => opened.1⟩
    obtain ⟨correct, reached⟩ := ihBody _ inner.1
    obtain ⟨right, back⟩ := check_right body.stores inner.2 retSize
    have next : Correct rest (body.stores.foldl wsStore stack) ∧ _ :=
      ihRest _ (by rw [bases_noted]; exact later)
    refine ⟨⟨correct, ?_⟩, ?_⟩
    · intro found run
      rw [reached _ run]
      exact ⟨right, fun post popped => back _ popped ▸ next.1⟩
    · intro post run
      obtain ⟨found, isFound, run⟩ := Option.bind_eq_some_iff.1 run
      obtain ⟨popped, isPopped, run⟩ := Option.bind_eq_some_iff.1 run
      rw [reached _ isFound] at isPopped
      rw [back _ isPopped] at run
      rw [next.2 _ run, History.stores, foldl_append]

/-- Where no dropped frame has the base of a tracked one, all checks of a nested history are
right. -/
theorem budget_frames_nest (history : History) (apart : Apart history []) : Correct history [] :=
  (checks_correct history [] apart).1

/-- A call that calls itself with the same buffer. -/
def recursive : History :=
  .frame 64 8 (.store ⟨64, 4, by decide⟩
    (.frame 64 4 (.store ⟨66, 2, by decide⟩ .done) .done)) .done

theorem budget_frames_nest_recursive : Apart recursive [] ∧ Correct recursive [] := by
  have apart : Apart recursive [] := by simp [recursive, Apart, depth]
  exact ⟨apart, budget_frames_nest _ apart⟩

def nest (inner : History) : Nat → History
  | 0 => inner
  | levels + 1 => .frame 0 100 (nest inner levels) .done

theorem Correct.of_nest {inner : History} {levels : Nat}
    (correct : Correct (nest inner levels) stack) : Correct inner ((wsBegin 0)^[levels] stack) := by
  induction levels generalizing stack with
  | zero => exact correct
  | succ levels ih => exact ih correct.1

/-- The check of the seventeenth frame with one base reports what its caller is allowed. -/
theorem dropped_check_reports :
    ¬Correct (nest (.frame 0 0 (.store ⟨0, 1, by decide⟩ .done) .done) 16) [] := by
  intro correct
  have right := (correct.of_nest.2 _ rfl).1
  rw [CheckRight] at right
  exact absurd right (by decide)

end AflPlusPlus.WriteBudget
