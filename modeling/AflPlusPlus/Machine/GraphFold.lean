/-
Folding a finite graph without cycles from its leaves up, with an explicit stack.

A node is looked at once to push its children and once more, when they are done, to
combine their values.  A node that has a value is not opened again.
-/

import AflPlusPlus.Machine.GraphSearch

namespace AflPlusPlus.Machine

open List Function

variable {Node : Type} [DecidableEq Node]

/-- A node on the stack is marked once its children have been pushed. -/
structure Fold (Node Value : Type) where
  out : Node → Option Value
  stack : List (Node × Bool)

namespace Fold

variable {Value : Type} (children : Node → List Node) (sentinel : Value)
  (combine : Node → (Node → Option Value) → Value)

def step (fold : Fold Node Value) : Fold Node Value :=
  match fold.stack with
  | [] => fold
  | (node, false) :: below =>
    if (fold.out node).isSome then { fold with stack := below }
    else
      { out := update fold.out node (some sentinel)
        stack := (children node).reverse.map (fun child => (child, false)) ++
          (node, true) :: below }
  | (node, true) :: below =>
    { out := update fold.out node (some (combine node fold.out)), stack := below }

def weight (node : Node) : Nat := (children node).length + 1

def start (root : Node) : Fold Node Value := { out := fun _ => none, stack := [(root, false)] }

def run (nodes : List Node) (root : Node) : Fold Node Value :=
  (step children sentinel combine)^[(nodes.map (weight children)).sum + 1] (start root)

def closed (fold : Fold Node Value) (node : Node) : Bool := (fold.out node).isSome

def potential (nodes : List Node) (fold : Fold Node Value) : Nat :=
  openWeight (weight children) fold.closed nodes + fold.stack.length

variable {children sentinel combine} {nodes : List Node} {fold : Fold Node Value} {root : Node}
  (stack : List (Node × Bool))

private theorem closed_update (node : Node) (v : Value) :
    closed { out := update fold.out node (some v), stack := stack } =
      update fold.closed node true := by
  funext other
  by_cases same : other = node
  all_goals simp [closed, same]

private theorem potential_step (complete : ∀ node, node ∈ nodes) (busy : fold.stack ≠ []) :
    potential children nodes (fold.step children sentinel combine) <
      potential children nodes fold := by
  unfold step
  split
  case h_1 done => exact absurd done busy
  case h_2 node below top =>
    split
    · have same : closed { fold with stack := below } = fold.closed := rfl
      simp [potential, top, same]
    case isFalse unseen =>
      have isOpen : fold.closed node = false := Bool.not_eq_true _ ▸ unseen
      have closes := openWeight_close (weight children) fold.closed isOpen (complete _)
      simp only [potential, closed_update, top, length_append, length_map,
        length_reverse, length_cons]
      unfold weight at closes ⊢
      omega
  case h_3 node below top =>
    have weights := openWeight_update_le (weight children) fold.closed node nodes
    simp only [potential, closed_update, top, length_cons]
    omega

private theorem step_done (done : fold.stack = []) :
    fold.step children sentinel combine = fold := by
  unfold step
  rw [done]

private theorem run_done (complete : ∀ node, node ∈ nodes) :
    (run children sentinel combine nodes root).stack = [] := by
  refine iterate_done
    (fun _ busy => potential_step complete busy) (fun _ settled => step_done settled) _ _ ?_
  exact Nat.add_le_add_right (openWeight_le _ _ _) 1

def Resolved (fold : Fold Node Value) (node : Node) : Prop :=
  (fold.out node).isSome = true ∧ (node, true) ∉ fold.stack

def IsChild (children : Node → List Node) (child node : Node) : Prop := child ∈ children node

/-- Below a stretch of the stack, every opened node waits only for nodes of that stretch,
and all of these descend from it. -/
def Pending (children : Node → List Node) (fold : Fold Node Value) :
    List Node → List (Node × Bool) → Prop
  | _, [] => True
  | above, (node, false) :: below => Pending children fold (node :: above) below
  | above, (node, true) :: below =>
    (∀ child ∈ children node, fold.Resolved child ∨ child ∈ above) ∧
    (∀ lower ∈ above, Relation.TransGen (IsChild children) lower node) ∧
    Pending children fold (node :: above) below

structure Folding (children : Node → List Node) (combine : Node → (Node → Option Value) → Value)
    (root : Node) (fold : Fold Node Value) : Prop where
  pending : Pending children fold [] fold.stack
  opened : ∀ node, (node, true) ∈ fold.stack → (fold.out node).isSome = true
  values : ∀ node, fold.Resolved node → fold.out node = some (combine node fold.out) ∧
    ∀ child ∈ children node, fold.Resolved child
  reached : fold.Resolved root ∨ root ∈ fold.stack.map Prod.fst

variable {above : List Node}
  {stack : List (Node × Bool)} (pending : Pending children fold above stack)

include pending

omit [DecidableEq Node] in
theorem Pending.mono {next : Fold Node Value} {later : List Node}
    (resolved : ∀ node, fold.Resolved node → next.Resolved node)
    (kept : ∀ node ∈ above, next.Resolved node ∨ node ∈ later)
    (lineage : ∀ node ∈ later, ∃ older ∈ above,
      Relation.ReflTransGen (IsChild children) node older) : Pending children next later stack := by
  induction stack generalizing above later with
  | nil => trivial
  | cons frame below ih =>
    obtain ⟨node, isOpened⟩ := frame
    have keptToo : ∀ other ∈ node :: above, next.Resolved other ∨ other ∈ node :: later := by
      intro other mem
      rcases mem_cons.1 mem with rfl | among
      · exact .inr mem_cons_self
      · exact (kept other among).imp_right (mem_cons_of_mem node)
    have lineageToo : ∀ other ∈ node :: later, ∃ older ∈ node :: above,
        Relation.ReflTransGen (IsChild children) other older := by
      intro other mem
      rcases mem_cons.1 mem with rfl | among
      · exact ⟨other, mem_cons_self, .refl⟩
      · obtain ⟨older, found, descends⟩ := lineage other among
        exact ⟨older, mem_cons_of_mem node found, descends⟩
    cases isOpened with
    | false => exact ih pending keptToo lineageToo
    | true =>
      obtain ⟨waits, descend, others⟩ := pending
      refine ⟨?_, ?_, ih others keptToo lineageToo⟩
      · intro child mem
        rcases waits child mem with settled | among
        · exact .inl (resolved child settled)
        · exact kept child among
      · intro lower mem
        obtain ⟨older, found, path⟩ := lineage lower mem
        exact Relation.TransGen.trans_right path (descend older found)

variable {node : Node}

omit [DecidableEq Node] in
private theorem Pending.descends (mem : (node, true) ∈ stack) {lower : Node}
    (among : lower ∈ above) :
    Relation.TransGen (IsChild children) lower node := by
  induction stack generalizing above with
  | nil => cases mem
  | cons frame below ih =>
    obtain ⟨other, isOpened⟩ := frame
    cases isOpened with
    | false =>
      have later : (node, true) ∈ below := by simpa using mem
      exact ih pending later (mem_cons_of_mem other among)
    | true =>
      rcases mem_cons.1 mem with same | later
      · cases same
        exact pending.2.1 lower among
      · exact ih pending.2.2 later (mem_cons_of_mem other among)

omit pending

omit [DecidableEq Node] in
private theorem pending_append (pushed : List Node) :
    Pending children fold above (pushed.map (fun child => (child, false)) ++ stack) ↔
      Pending children fold (pushed.reverse ++ above) stack := by
  induction pushed generalizing above with
  | nil => rfl
  | cons child rest ih =>
    rw [map_cons, cons_append, Pending, ih, reverse_cons, append_assoc, singleton_append]

variable (grounded : WellFounded (IsChild children))
  (reads : ∀ node out other, (∀ child ∈ children node, out child = other child) →
    combine node out = combine node other)

omit [DecidableEq Node] in
theorem Folding.start (root : Node) :
    Folding children combine root (Fold.start root : Fold Node Value) :=
  ⟨trivial, by simp [Fold.start], by simp [Resolved, Fold.start], .inr (by simp [Fold.start])⟩

variable {below : List (Node × Bool)}

omit [DecidableEq Node] in
include grounded in
theorem Folding.not_opened_below (folding : Folding children combine root fold) {isOpened : Bool}
    (top : fold.stack = (node, isOpened) :: below) : (node, true) ∉ below := by
  intro again
  have pending := folding.pending
  rw [top] at pending
  have under : Pending children fold [node] below := by
    cases isOpened with
    | false => exact pending
    | true => exact pending.2.2
  have cycle := under.descends again (mem_singleton_self node)
  exact grounded.transGen.irrefl.irrefl node cycle

omit [DecidableEq Node] in
include grounded in
theorem Folding.skip (folding : Folding children combine root fold)
    (top : fold.stack = (node, false) :: below) (seen : (fold.out node).isSome = true) :
    Folding children combine root { fold with stack := below } := by
  have resolved : ∀ other, fold.Resolved other ↔ Resolved { fold with stack := below } other := by
    intro other
    simp [Resolved, top]
  have settled : fold.Resolved node := by
    refine ⟨seen, ?_⟩
    rw [top]
    simpa using folding.not_opened_below grounded top
  have pending : Pending children fold [node] below := by
    have whole := folding.pending
    rw [top] at whole
    exact whole
  refine ⟨?_, ?_, ?_, ?_⟩
  · refine pending.mono (fun other => (resolved other).1) ?_ nofun
    intro other mem
    rw [mem_singleton.1 mem]
    exact .inl ((resolved node).1 settled)
  · intro other mem
    exact folding.opened other (top ▸ mem_cons_of_mem _ mem)
  · intro other ends
    obtain ⟨v, done⟩ := folding.values other ((resolved other).2 ends)
    exact ⟨v, fun child mem => (resolved child).1 (done child mem)⟩
  · rcases folding.reached with ends | mem
    · exact .inl ((resolved root).1 ends)
    · rw [top, map_cons, mem_cons] at mem
      rcases mem with rfl | later
      · exact .inl ((resolved root).1 settled)
      · exact .inr later

include reads in
/-- A value is read at the children only, so it does not see a node that is still open. -/
theorem combine_update {parent : Node} (waiting : ¬fold.Resolved node) (v : Value)
    (done : ∀ child ∈ children parent, fold.Resolved child) :
    combine parent (update fold.out node (some v)) = combine parent fold.out := by
  refine reads parent _ _ ?_
  intro child mem
  have apart : child ≠ node := fun same => waiting (same ▸ done child mem)
  rw [update_of_ne apart]

section

variable (folding : Folding children combine root fold)
include folding

variable {node : Node}

include reads in
theorem Folding.values_update {parent : Node} (waiting : ¬fold.Resolved node) (v : Value)
    (settled : fold.Resolved parent) :
    update fold.out node (some v) parent =
      some (combine parent (update fold.out node (some v))) := by
  obtain ⟨equation, done⟩ := folding.values parent settled
  have apart : parent ≠ node := fun same => waiting (same ▸ settled)
  rw [update_of_ne apart, combine_update reads waiting v done, equation]

variable {below : List (Node × Bool)}

include reads in
private theorem Folding.descend (top : fold.stack = (node, false) :: below)
    (unseen : fold.out node = none) :
    Folding children combine root
      { out := update fold.out node (some sentinel)
        stack := (children node).reverse.map (fun child => (child, false)) ++
          (node, true) :: below } := by
  have resolved : ∀ other, fold.Resolved other ↔ Resolved
      { out := update fold.out node (some sentinel)
        stack := (children node).reverse.map (fun child => (child, false)) ++
          (node, true) :: below } other := by
    intro other
    by_cases same : other = node
    · simp [Resolved, same, unseen]
    · simp [Resolved, same, top]
  have pending : Pending children fold [node] below := by
    have whole := folding.pending
    rw [top] at whole
    exact whole
  refine ⟨?_, ?_, ?_, ?_⟩
  · rw [pending_append, reverse_reverse, append_nil]
    refine ⟨fun child mem => .inr mem, fun lower mem => .single mem, ?_⟩
    refine pending.mono (fun other => (resolved other).1) ?_ ?_
    · intro other mem
      rw [mem_singleton.1 mem]
      exact .inr mem_cons_self
    · intro other mem
      refine ⟨node, mem_singleton_self node, ?_⟩
      rcases mem_cons.1 mem with rfl | child
      · exact .refl
      · exact .single child
  · intro other mem
    by_cases same : other = node
    · simp [same]
    · have pre : (other, true) ∈ fold.stack := by
        rw [top]
        simpa [same] using mem
      simpa [same] using folding.opened other pre
  · intro other ends
    have pre := (resolved other).2 ends
    obtain ⟨-, done⟩ := folding.values other pre
    have waiting : ¬fold.Resolved node := by simp [Resolved, unseen]
    refine ⟨folding.values_update reads waiting sentinel pre, ?_⟩
    exact fun child mem => (resolved child).1 (done child mem)
  · rcases folding.reached with ends | mem
    · exact .inl ((resolved root).1 ends)
    · right
      rw [top] at mem
      have mem : root = node ∨ root ∈ below.map Prod.fst := by simpa using mem
      rw [map_append, map_cons, mem_append, mem_cons]
      exact .inr mem

include grounded reads in
private theorem Folding.close (top : fold.stack = (node, true) :: below) :
    Folding children combine root
      { out := update fold.out node (some (combine node fold.out)), stack := below } := by
  have notBelow := folding.not_opened_below grounded top
  have waits : ∀ child ∈ children node, fold.Resolved child := by
    have whole := folding.pending
    rw [top] at whole
    intro child mem
    exact (whole.1 child mem).resolve_right nofun
  have unresolved : ¬fold.Resolved node := fun ends => ends.2 (top ▸ mem_cons_self)
  have resolved : ∀ other, Resolved
      { out := update fold.out node (some (combine node fold.out)), stack := below }
      other ↔ fold.Resolved other ∨ other = node := by
    intro other
    by_cases same : other = node
    · simp [Resolved, same, notBelow]
    · simp [Resolved, same, top]
  refine ⟨?_, ?_, ?_, ?_⟩
  · have whole := folding.pending
    rw [top] at whole
    refine whole.2.2.mono (fun other ends => (resolved other).2 (.inl ends)) ?_ nofun
    intro other mem
    exact .inl ((resolved other).2 (.inr (mem_singleton.1 mem)))
  · intro other mem
    have ne : other ≠ node := fun same => notBelow (same ▸ mem)
    simpa [ne] using folding.opened other (top ▸ mem_cons_of_mem _ mem)
  · intro other ends
    rcases (resolved other).1 ends with pre | rfl
    · obtain ⟨-, done⟩ := folding.values other pre
      refine ⟨folding.values_update reads unresolved _ pre, ?_⟩
      exact fun child mem => (resolved child).2 (.inl (done child mem))
    · refine ⟨?_, fun child mem => (resolved child).2 (.inl (waits child mem))⟩
      exact (update_self ..).trans (congrArg some (combine_update reads unresolved _ waits).symm)
  · rcases folding.reached with ends | mem
    · exact .inl ((resolved root).2 (.inl ends))
    · rw [top, map_cons, mem_cons] at mem
      rcases mem with same | later
      · exact .inl ((resolved root).2 (.inr same))
      · exact .inr later

include grounded reads in
theorem Folding.step : Folding children combine root (fold.step children sentinel combine) := by
  unfold Fold.step
  split
  · exact folding
  case h_2 node below top =>
    split
    case isTrue seen => exact folding.skip grounded top seen
    case isFalse unseen =>
      exact folding.descend reads top (Option.not_isSome_iff_eq_none.1 unseen)
  case h_3 node below top => exact folding.close grounded reads top

end

include grounded reads in
/-- The root is reached, and every node that is has the value that its children give. -/
theorem run_spec (complete : ∀ node, node ∈ nodes) :
    ((run children sentinel combine nodes root).out root).isSome = true ∧
      ∀ node, ((run children sentinel combine nodes root).out node).isSome = true →
        (run children sentinel combine nodes root).out node =
            some (combine node (run children sentinel combine nodes root).out) ∧
          ∀ child ∈ children node,
            ((run children sentinel combine nodes root).out child).isSome = true := by
  have folding : Folding children combine root (run children sentinel combine nodes root) :=
    iterate_keeps (Folding children combine root) (fun _ kept => kept.step grounded reads) _
      (Folding.start root) _
  have done : (run children sentinel combine nodes root).stack = [] := run_done complete
  have resolved : ∀ node, ((run children sentinel combine nodes root).out node).isSome = true →
      (run children sentinel combine nodes root).Resolved node := by
    intro node has
    exact ⟨has, by rw [done]; exact not_mem_nil⟩
  refine ⟨?_, ?_⟩
  · rcases folding.reached with ends | mem
    · exact ends.1
    · rw [done] at mem
      cases mem
  · intro node has
    obtain ⟨v, settled⟩ := folding.values node (resolved node has)
    exact ⟨v, fun child mem => (settled child mem).1⟩

end Fold

end AflPlusPlus.Machine
