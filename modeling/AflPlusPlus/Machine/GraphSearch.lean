/-
Depth-first search over a finite graph with an explicit stack.

The search marks the edges that lead back to a node on its stack.  The edges that it
does not mark form a graph without cycles.  It runs for a number of steps that is
computed from the graph, and is done by then.
-/

import Mathlib

namespace AflPlusPlus.Machine

open List

section Descent

variable {State : Type} {step : State → State}

theorem iterate_done {done : State → Prop} {potential : State → Nat}
    (lowers : ∀ s, ¬done s → potential (step s) < potential s)
    (stays : ∀ s, done s → step s = s) (s : State) (fuel : Nat)
    (enough : potential s ≤ fuel) : done (step^[fuel] s) := by
  induction fuel generalizing s with
  | zero =>
    by_contra open_
    have lower := lowers s open_
    omega
  | succ fuel ih =>
    rw [Function.iterate_succ_apply]
    by_cases settled : done s
    · rw [stays _ settled]
      rw [Function.iterate_fixed (stays _ settled)]
      exact settled
    · have lower := lowers _ settled
      exact ih (step _) (by omega)

theorem iterate_keeps (holds : State → Prop) (kept : ∀ s, holds s → holds (step s))
    (s : State) (start : holds s) (fuel : Nat) : holds (step^[fuel] s) := by
  induction fuel generalizing s with
  | zero => exact start
  | succ fuel ih =>
    exact ih (step _) (kept _ start)

end Descent

def openWeight {Node : Type} (weight : Node → Nat) (closed : Node → Bool) (nodes : List Node) :
    Nat :=
  (nodes.map (fun node => if closed node then 0 else weight node)).sum

section

variable {Node : Type} (weight : Node → Nat)

section

variable (closed : Node → Bool)

theorem openWeight_le
    (nodes : List Node) : openWeight weight closed nodes ≤ (nodes.map weight).sum := by
  induction nodes with
  | nil => exact Nat.le_refl 0
  | cons node rest ih =>
    have head : (if closed node then 0 else weight node) ≤ weight node := by
      split <;> omega
    exact Nat.add_le_add head ih

theorem openWeight_update_le [DecidableEq Node] (node : Node) (nodes : List Node) :
    openWeight weight (Function.update closed node true) nodes ≤
      openWeight weight closed nodes := by
  induction nodes with
  | nil => exact Nat.le_refl 0
  | cons other rest ih =>
    refine Nat.add_le_add ?_ ih
    by_cases same : other = node
    all_goals simp [same]

theorem openWeight_close [DecidableEq Node] {node : Node} (isOpen : closed node = false)
    {nodes : List Node}
    (mem : node ∈ nodes) :
    openWeight weight (Function.update closed node true) nodes + weight node ≤
      openWeight weight closed nodes := by
  induction nodes with
  | nil => cases mem
  | cons other rest ih =>
    by_cases same : other = node
    · have tail := openWeight_update_le weight closed node rest
      subst same
      simp only [openWeight, map_cons, sum_cons, Function.update_self, isOpen] at tail ⊢
      simp only [if_true, Bool.false_eq_true, if_false]
      omega
    · have tail := ih ((mem_cons.1 mem).resolve_left (Ne.symm same))
      simp only [openWeight, map_cons, sum_cons, Function.update_of_ne same] at tail ⊢
      omega

end

end

variable {Node : Type} [DecidableEq Node]

/-- A frame is a node with the successors that are still to be looked at. -/
structure Search (Node : Type) where
  visited : Node → Bool
  onStack : Node → Bool
  back : Node → Node → Bool
  stack : List (Node × List Node)

namespace Search

variable (succs : Node → List Node)

def empty : Search Node :=
  { visited := fun _ => false, onStack := fun _ => false, back := fun _ _ => false, stack := [] }

def enter (search : Search Node) (node : Node) : Search Node :=
  { search with
    visited := Function.update search.visited node true
    onStack := Function.update search.onStack node true
    stack := (node, succs node) :: search.stack }

def markBack (search : Search Node) (src target : Node) : Search Node :=
  { search with
    back := Function.update search.back src (Function.update (search.back src) target true) }

def step (search : Search Node) : Search Node :=
  match search.stack with
  | [] => search
  | (node, []) :: below =>
    { search with onStack := Function.update search.onStack node false, stack := below }
  | (node, next :: rest) :: below =>
    let advanced := { search with stack := (node, rest) :: below }
    if search.onStack next then advanced.markBack node next
    else if search.visited next then advanced
    else advanced.enter succs next

def weight (node : Node) : Nat := (succs node).length + 1

def startAt (nodes : List Node) (search : Search Node) (node : Node) : Search Node :=
  if search.visited node then search
  else (step succs)^[(nodes.map (weight succs)).sum] (search.enter succs node)

/-- Search from one node, and then from every node that it has not reached. -/
def searchAll (nodes : List Node) (entry : Node) : Search Node :=
  nodes.foldl (startAt succs nodes) (startAt succs nodes empty entry)

def frameWeight (stack : List (Node × List Node)) : Nat :=
  (stack.map (fun frame => frame.2.length + 1)).sum

def potential (nodes : List Node) (search : Search Node) : Nat :=
  openWeight (weight succs) search.visited nodes + frameWeight search.stack

variable {succs} {nodes : List Node} {search : Search Node} {node : Node}

theorem potential_enter (fresh : search.visited node = false) (complete : ∀ node, node ∈ nodes) :
    potential succs nodes (search.enter succs node) ≤ potential succs nodes search := by
  have closes := openWeight_close (weight succs) search.visited fresh (complete _)
  simp only [potential, enter, frameWeight, map_cons, sum_cons]
  unfold weight at closes ⊢
  omega

variable (complete : ∀ node, node ∈ nodes)

include complete in
private theorem potential_step (busy : search.stack ≠ []) :
    potential succs nodes (search.step succs) < potential succs nodes search := by
  unfold step
  split
  case h_1 done => exact absurd done busy
  case h_2 node below top =>
    simp [potential, top, frameWeight]
  case h_3 node next rest below top =>
    have advance : potential succs nodes { search with stack := (node, rest) :: below } <
        potential succs nodes search := by
      simp [potential, top, frameWeight]
    split
    · exact advance
    · split
      · exact advance
      case isFalse unseen =>
        refine Nat.lt_of_le_of_lt ?_ advance
        exact potential_enter (Bool.not_eq_true _ ▸ unseen) complete

private theorem step_done (done : search.stack = []) : search.step succs = search := by
  unfold step
  rw [done]

include complete in
theorem startAt_done (done : search.stack = []) (node : Node) :
    (startAt succs nodes search node).stack = [] := by
  unfold startAt
  split
  · exact done
  case isFalse unseen =>
    refine iterate_done
      (fun _ busy => potential_step complete busy) (fun _ settled => step_done settled) _ _ ?_
    refine Nat.le_trans (potential_enter (Bool.not_eq_true _ ▸ unseen) complete) ?_
    have weights := openWeight_le (weight succs) search.visited nodes
    simp only [potential, done, frameWeight, map_nil, sum_nil, Nat.add_zero]
    exact weights

def Forward (succs : Node → List Node) (search : Search Node) (target src : Node) : Prop :=
  target ∈ succs src ∧ search.back src target = false

def Finished (search : Search Node) (node : Node) : Prop :=
  search.visited node = true ∧ search.onStack node = false

/-- What a frame has looked at is marked, finished, or the frame above. -/
def Framed (succs : Node → List Node) (search : Search Node) :
    Option Node → List (Node × List Node) → Prop
  | _, [] => True
  | above, (node, rest) :: below =>
    (∃ seen, succs node = seen ++ rest ∧ ∀ next ∈ seen,
      search.back node next = true ∨ search.Finished next ∨ above = some next) ∧
    Framed succs search (some node) below

/-- `above` is the node that is about to be entered, if there is one. -/
structure Explored (succs : Node → List Node) (search : Search Node) (above : Option Node) :
    Prop where
  distinct : (search.stack.map Prod.fst).Nodup
  onStack : ∀ node, search.onStack node = true ↔ node ∈ search.stack.map Prod.fst
  visited : ∀ node, search.onStack node = true → search.visited node = true
  framed : Framed succs search above search.stack
  grounded : ∀ node, search.Finished node → Acc (search.Forward succs) node

variable {above : Option Node}

omit [DecidableEq Node] in
theorem Framed.mono {next : Search Node} {later : Option Node} {stack : List (Node × List Node)}
    (framed : Framed succs search above stack)
    (marks : ∀ src target, search.back src target = true → next.back src target = true)
    (finished : ∀ node, search.Finished node → next.Finished node)
    (top : ∀ node, above = some node → next.Finished node ∨ later = some node) :
    Framed succs next later stack := by
  induction stack generalizing above later with
  | nil => trivial
  | cons frame below ih =>
    obtain ⟨node, _⟩ := frame
    obtain ⟨⟨seen, split, looked⟩, others⟩ := framed
    refine ⟨⟨seen, split, ?_⟩, ih others (fun _ same => .inr same)⟩
    intro target mem
    rcases looked target mem with marked | finishedTarget | isTop
    · exact .inl (marks node target marked)
    · exact .inr (.inl (finished target finishedTarget))
    · exact .inr (top target isTop)

variable {below : List (Node × List Node)} (explored : Explored succs search none)

include explored

theorem Explored.pop (top : search.stack = (node, []) :: below) :
    Explored succs
      { search with onStack := Function.update search.onStack node false, stack := below }
      none := by
  have distinct := explored.distinct
  have framed := explored.framed
  rw [top] at distinct framed
  rw [map_cons, nodup_cons] at distinct
  obtain ⟨⟨seen, split, looked⟩, others⟩ := framed
  rw [append_nil] at split
  have isOn : search.onStack node = true := (explored.onStack _).2 (by simp [top])
  have finished : ∀ other, search.Finished other → Finished
      { search with onStack := Function.update search.onStack node false, stack := below }
      other := by
    intro other ends
    have ne : other ≠ node := fun same => by simp [same, Finished, isOn] at ends
    exact ⟨ends.1, by simpa [ne] using ends.2⟩
  refine ⟨distinct.2, ?_, ?_, ?_, ?_⟩
  · intro other
    by_cases same : other = node
    · simp [same, distinct.1]
    · have pre := explored.onStack other
      simp only [top, map_cons, mem_cons, same, false_or] at pre
      simpa [same] using pre
  · intro other on
    by_cases same : other = node
    · simp [same] at on
    · exact explored.visited _ (by simpa [same] using on)
  · refine others.mono (fun _ _ marked => marked) finished ?_
    intro other same
    cases same
    exact .inl ⟨explored.visited _ isOn, by simp⟩
  · intro other ends
    by_cases same : other = node
    · subst same
      refine Acc.intro _ ?_
      intro target edge
      have mem : target ∈ seen := split ▸ edge.1
      rcases looked target mem with marked | ended | bad
      · have unmarked : search.back other target = false := edge.2
        simp [marked] at unmarked
      · exact explored.grounded _ ended
      · cases bad
    · exact explored.grounded _ ⟨ends.1, by simpa [same] using ends.2⟩

omit [DecidableEq Node] in
/-- The search moves on to the next successor, with perhaps one more mark. -/
private theorem Explored.advance {next : Node} {rest : List Node}
    (top : search.stack = (node, next :: rest) :: below) {back : Node → Node → Bool}
    (marks : ∀ src target, search.back src target = true → back src target = true)
    (known : back node next = true ∨ search.Finished next ∨ above = some next) :
    Explored succs { search with back := back, stack := (node, rest) :: below } above := by
  have distinct := explored.distinct
  have onStack := explored.onStack
  have framed := explored.framed
  rw [top] at distinct onStack framed
  obtain ⟨⟨seen, split, looked⟩, others⟩ := framed
  refine ⟨distinct, onStack, explored.visited, ⟨⟨seen ++ [next], ?_, ?_⟩, ?_⟩, ?_⟩
  · rw [split, append_assoc, singleton_append]
  · intro target mem
    rcases mem_append.1 mem with pre | last
    · rcases looked target pre with marked | ended | bad
      · exact .inl (marks node target marked)
      · exact .inr (.inl ended)
      · cases bad
    · rw [mem_singleton.1 last]
      exact known
  · exact others.mono marks (fun _ ended => ended) (fun _ same => .inr same)
  · intro other ends
    refine Subrelation.accessible ?_ (explored.grounded other ends)
    intro target src edge
    refine ⟨edge.1, ?_⟩
    by_contra marked
    have still := marks src target (Bool.not_eq_false _ ▸ marked)
    have unmarked : back src target = false := edge.2
    simp [still] at unmarked

omit explored

theorem Explored.enter (explored : Explored succs search (some node))
    (fresh : search.visited node = false) : Explored succs (search.enter succs node) none := by
  have off : search.onStack node = false := by
    by_contra on
    have seen := explored.visited _ (Bool.not_eq_false _ ▸ on)
    simp [seen] at fresh
  have outside : node ∉ search.stack.map Prod.fst := by
    rw [← explored.onStack _, off]
    exact Bool.false_ne_true
  have finished : ∀ other, search.Finished other → (search.enter succs node).Finished other := by
    intro other ends
    have ne : other ≠ node := fun same => by simp [same, Finished, fresh] at ends
    simpa [Finished, Search.enter, ne] using ends
  refine ⟨?_, ?_, ?_, ⟨⟨[], rfl, nofun⟩, ?_⟩, ?_⟩
  · exact nodup_cons.2 ⟨outside, explored.distinct⟩
  · intro other
    by_cases same : other = node
    · simp [same, Search.enter]
    · simpa [Search.enter, same] using explored.onStack other
  · intro other on
    by_cases same : other = node
    · simp [same, Search.enter]
    · have pre : search.onStack other = true := by simpa [Search.enter, same] using on
      simpa [Search.enter, same] using explored.visited other pre
  · exact explored.framed.mono (fun _ _ marked => marked) finished (fun _ same => .inr same)
  · intro other ends
    have ne : other ≠ node := fun same => by simp [same, Finished, Search.enter] at ends
    exact explored.grounded _ (by simpa [Finished, Search.enter, ne] using ends)

include explored in
theorem Explored.step :
    Explored succs (search.step succs) none := by
  unfold Search.step
  split
  · exact explored
  case h_2 node below top => exact explored.pop top
  case h_3 node next rest below top =>
    split
    case isTrue on =>
      refine explored.advance top ?_ (.inl ?_)
      · intro src target marked
        by_cases same : src = node
        · by_cases there : target = next
          · simp [same, there]
          · simpa [same, there] using marked
        · simpa [same] using marked
      · simp
    case isFalse off =>
      have notOn : search.onStack next = false := Bool.not_eq_true _ ▸ off
      split
      case isTrue seen =>
        exact explored.advance top (fun _ _ marked => marked) (.inr (.inl ⟨seen, notOn⟩))
      case isFalse unseen =>
        have advanced : Explored succs { search with stack := (node, rest) :: below } (some next) :=
          explored.advance top (fun _ _ marked => marked) (.inr (.inr rfl))
        exact advanced.enter (Bool.not_eq_true _ ▸ unseen)

omit [DecidableEq Node] in
theorem Explored.empty : Explored succs (empty : Search Node) none :=
  ⟨nodup_nil, by simp [Search.empty], nofun, trivial, nofun⟩

include explored in
theorem Explored.startAt (done : search.stack = [])
    (node : Node) : Explored succs (startAt succs nodes search node) none := by
  unfold Search.startAt
  split
  · exact explored
  case isFalse unseen =>
    have waiting : Explored succs search (some node) :=
      { explored with framed := by rw [done]; trivial }
    exact iterate_keeps (fun search => Explored _ search _)
      (fun _ kept => kept.step) _ (waiting.enter (Bool.not_eq_true _ ▸ unseen)) _

variable (seen : search.visited node = true)

include seen

private theorem visited_step :
    (search.step succs).visited node = true := by
  unfold step
  split
  · exact seen
  · exact seen
  case h_3 top next rest below _ =>
    split
    · exact seen
    · split
      · exact seen
      · by_cases same : node = next
        · simp [enter, same]
        · simpa [enter, same] using seen

theorem visited_iterate (fuel : Nat) :
    ((step succs)^[fuel] search).visited node = true :=
  iterate_keeps (fun search : Search Node => search.visited node = true)
    (fun _ kept => visited_step kept) search seen fuel

private theorem visited_startAt (start : Node) :
    (startAt succs nodes search start).visited node = true := by
  unfold startAt
  split
  · exact seen
  · refine visited_iterate ?_ _
    by_cases same : node = start
    · simp [enter, same]
    · simpa [enter, same] using seen

omit seen

private theorem startAt_visits (node : Node) :
    (startAt succs nodes search node).visited node = true := by
  unfold startAt
  split
  case isTrue seen => exact seen
  · exact visited_iterate (by simp [enter]) _

include complete

private theorem foldl_startAt (starts : List Node)
    (explored : Explored succs search none) (done : search.stack = []) :
    Explored succs (starts.foldl (startAt succs nodes) search) none ∧
      (starts.foldl (startAt succs nodes) search).stack = [] ∧
      (∀ node, search.visited node = true →
        (starts.foldl (startAt succs nodes) search).visited node = true) ∧
      ∀ node ∈ starts, (starts.foldl (startAt succs nodes) search).visited node = true := by
  induction starts generalizing search with
  | nil => exact ⟨explored, done, fun _ seen => seen, nofun⟩
  | cons start rest ih =>
    obtain ⟨still, empty, stays, reached⟩ :=
      ih (explored.startAt done start) (startAt_done complete done start)
    refine ⟨still, empty, fun node seen => stays _ (visited_startAt seen _), ?_⟩
    intro node mem
    rcases mem_cons.1 mem with rfl | later
    · exact stays _ (startAt_visits _)
    · exact reached _ later

theorem searchAll_grounded (entry : Node) :
    WellFounded ((searchAll succs nodes entry).Forward succs) := by
  have first : Explored succs (startAt succs nodes empty entry) none := Explored.empty.startAt rfl _
  obtain ⟨explored, done, -, reached⟩ :=
    foldl_startAt complete nodes first (startAt_done complete rfl entry)
  refine ⟨fun node => explored.grounded _ ⟨reached _ (complete _), ?_⟩⟩
  by_contra on
  have mem := (explored.onStack _).1 (Bool.not_eq_false _ ▸ on)
  rw [done] at mem
  cases mem

end Search

end AflPlusPlus.Machine
