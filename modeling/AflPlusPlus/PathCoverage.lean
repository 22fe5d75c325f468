/-
Path coverage: what the analysis reserves and what the instrumented function adds up.

The analysis takes the back edges out of the control-flow graph and counts the paths from
every block to an exit.  The instrumented function adds the values of the edges that are
left to a register, also inside loops, and uses the register at an exit as an index into
the slots that were reserved.  An addition stands at the top of the target block when the
source has several successors: on an edge that could not be split every way into the block
adds the value.
-/

import Mathlib
import AflPlusPlus.Machine.GraphFold
import AflPlusPlus.Machine.GuardedRun

namespace AflPlusPlus.PathCoverage

open Machine List

/-- A function with a body: its blocks in order, the first one being the entry.
`exits`: the block returns, resumes, is unreachable or calls a function that does not
return.  `guardOnly`: the block only computes and tests.  A successor may occur more
than once. -/
structure Cfg where
  last : Nat
  succs : Fin (last + 1) → List (Fin (last + 1))
  exits : Fin (last + 1) → Bool
  guardOnly : Fin (last + 1) → Bool
  callsSetjmp : Bool
  isCoroutine : Bool

abbrev Cfg.Block (cfg : Cfg) : Type := Fin (cfg.last + 1)

def Cfg.entry (cfg : Cfg) : cfg.Block := 0

def Cfg.blocks (cfg : Cfg) : List cfg.Block := List.finRange (cfg.last + 1)

/-- `AFL_LLVM_PATH` and `AFL_LLVM_PATH_MAX_PATHS`. -/
structure Settings where
  level : Nat
  maxPaths : Nat

def findBackEdges (cfg : Cfg) : cfg.Block → cfg.Block → Bool :=
  (Search.searchAll cfg.succs cfg.blocks cfg.entry).back

def fwdSuccs (cfg : Cfg) (block : cfg.Block) : List cfg.Block :=
  if cfg.exits block then []
  else (cfg.succs block).filter (fun next => !findBackEdges cfg block next)

def shouldMaxMerge (level : Nat) (cfg : Cfg) (simplified : Bool) (block : cfg.Block) : Bool :=
  let size := (fwdSuccs cfg block).length
  if simplified && decide (size > 2) then true
  else if level == 1 && decide (size > 1) && cfg.guardOnly block then true
  else if level == 2 && size == 2 && cfg.guardOnly block then true
  else false

section Counts

variable {Block : Type} (count : Block → Nat)

def largest (succs : List Block) : Nat :=
  succs.foldl (fun total next => if count next > total then count next else total) 0

def wrappedSum (succs : List Block) : Nat :=
  succs.foldl (fun total next => (total + count next) % 2 ^ 64) 0

end Counts

def total (level : Nat) (cfg : Cfg) (simplify : Bool) (block : cfg.Block)
    (out : cfg.Block → Option Nat) : Nat :=
  if cfg.exits block then 1
  else if shouldMaxMerge level cfg simplify block then
    largest (fun next => (out next).getD 0) (fwdSuccs cfg block)
  else wrappedSum (fun next => (out next).getD 0) (fwdSuccs cfg block)

def computeNumPaths (level : Nat) (cfg : Cfg) (simplify : Bool) : cfg.Block → Option Nat :=
  (Fold.run (fwdSuccs cfg) 0 (total level cfg simplify) cfg.blocks cfg.entry).out

/-- The values of the edges out of one block; of two edges to the same block the later
one counts. -/
def edgesOut {Block : Type} [DecidableEq Block] (count : Block → Nat) :
    Nat → List Block → (Block → Option Nat) → Block → Option Nat
  | _, [], values => values
  | pre, next :: rest, values =>
    edgesOut count ((pre + count next) % 2 ^ 64) rest (Function.update values next (some pre))

def edgeValuesOf (level : Nat) (cfg : Cfg) (simplified : Bool)
    (counts : cfg.Block → Option Nat) (block : cfg.Block) : cfg.Block → Option Nat :=
  if cfg.exits block || (counts block).isNone then fun _ => none
  else if shouldMaxMerge level cfg simplified block then
    fun next => if next ∈ fwdSuccs cfg block then some 0 else none
  else edgesOut (fun next => (counts next).getD 0) 0 (fwdSuccs cfg block) (fun _ => none)

/-- `PathAnalysisResult`.  No paths means that no slots are reserved. -/
structure Result (cfg : Cfg) where
  numPaths : Nat
  exits : List cfg.Block
  numPathsAtBB : cfg.Block → Option Nat
  edgeValues : cfg.Block → cfg.Block → Option Nat
  simplified : Bool
  overCap : Bool

variable (cfg : Cfg)

def Result.skipped (simplified overCap : Bool) : Result cfg :=
  { numPaths := 0
    exits := []
    numPathsAtBB := fun _ => none
    edgeValues := fun _ _ => none
    simplified := simplified
    overCap := overCap }

def analyze (settings : Settings) (cfg : Cfg) : Result cfg :=
  let exits := cfg.blocks.filter cfg.exits
  if cfg.callsSetjmp || cfg.isCoroutine || exits.isEmpty then Result.skipped cfg false false
  else
    let first := computeNumPaths settings.level cfg false
    let simplified := decide ((first cfg.entry).getD 0 > settings.maxPaths)
    let counts := if simplified then computeNumPaths settings.level cfg true else first
    let numPaths := (counts cfg.entry).getD 0
    if simplified && decide (numPaths > settings.maxPaths) then Result.skipped cfg true true
    else if numPaths ≤ 1 then Result.skipped cfg simplified false
    else
      { numPaths := numPaths
        exits := exits
        numPathsAtBB := counts
        edgeValues := edgeValuesOf settings.level cfg simplified counts
        simplified := simplified
        overCap := false }

structure Position (cfg : Cfg) where
  block : cfg.Block
  pathReg : Nat

def Position.start : Position cfg := { block := cfg.entry, pathReg := 0 }

/-- Nothing is emitted for an edge without a value or with the value 0. -/
def addValue (pathReg : Nat) : Option Nat → Nat
  | none => pathReg
  | some 0 => pathReg
  | some (v + 1) => (pathReg + (v + 1) % 2 ^ 32) % 2 ^ 32

def several (block : cfg.Block) : Bool := decide (1 < (cfg.succs block).length)

/-- The additions of `emitPathCoverageEdges`: of a block with one successor in front of its
terminator, of all others at the top of their targets. -/
def pass (settings : Settings) (cfg : Cfg) (position : Position cfg) (next : cfg.Block) :
    Position cfg :=
  let values := (analyze settings cfg).edgeValues
  let left := if several cfg position.block then position.pathReg
    else addValue position.pathReg (values position.block next)
  { block := next
    pathReg := (cfg.blocks.filter (several cfg)).foldl
      (fun pathReg src => addValue pathReg (values src next)) left }

def IsEdge (position : Position cfg) (next : cfg.Block) : Prop :=
  next ∈ cfg.succs position.block

instance (cfg : Cfg) (position : Position cfg) (next : cfg.Block) :
    Decidable (IsEdge cfg position next) :=
  inferInstanceAs (Decidable (_ ∈ _))

/-- The block writes the path id: it is an exit that the analysis has reached. -/
def Records (settings : Settings) (cfg : Cfg) (block : cfg.Block) : Prop :=
  block ∈ (analyze settings cfg).exits ∧ ((analyze settings cfg).numPathsAtBB block).isSome = true

instance (settings : Settings) (cfg : Cfg) (block : cfg.Block) :
    Decidable (Records settings cfg block) :=
  inferInstanceAs (Decidable (_ ∧ _))

section Counts

variable {Block : Type} {count other : Block → Nat} {succs : List Block}
  (same : ∀ next ∈ succs, count next = other next)

include same

theorem largest_congr :
    largest count succs = largest other succs := by
  refine foldl_ext _ _ _ ?_
  intro total next mem
  rw [same _ mem]

theorem wrappedSum_congr :
    wrappedSum count succs = wrappedSum other succs := by
  refine foldl_ext _ _ _ ?_
  intro total next mem
  rw [same _ mem]

omit same

theorem le_largest (count : Block → Nat) {next : Block} (mem : next ∈ succs) :
    count next ≤ largest count succs := by
  -- over any start value, which stays below the result
  have general : ∀ start : Nat, start ≤ succs.foldl
        (fun total next => if count next > total then count next else total) start ∧
      ∀ next ∈ succs, count next ≤ succs.foldl
        (fun total next => if count next > total then count next else total) start := by
    clear mem
    induction succs with
    | nil => exact fun start => ⟨Nat.le_refl _, nofun⟩
    | cons head rest ih =>
      intro start
      obtain ⟨above, all⟩ := ih (if count _ > start then count _ else start)
      have fromStart : start ≤ if count head > start then count head else start := by
        split <;> omega
      have fromHead : count head ≤ if count head > start then count head else start := by
        split <;> omega
      refine ⟨Nat.le_trans fromStart above, ?_⟩
      intro next among
      rcases mem_cons.1 among with rfl | later
      · exact Nat.le_trans fromHead above
      · exact all _ later
  exact (general 0).2 _ mem

theorem wrappedSum_eq (fits : (succs.map count).sum < 2 ^ 64) :
    wrappedSum count succs = (succs.map count).sum := by
  have general : ∀ start : Nat, start + (succs.map count).sum < 2 ^ 64 →
      succs.foldl (fun total next => (total + count next) % 2 ^ 64) start =
        start + (succs.map count).sum := by
    clear fits
    induction succs with
    | nil => exact fun start _ => rfl
    | cons head rest ih =>
      intro start fits
      rw [map_cons, sum_cons] at fits ⊢
      rw [foldl_cons, ih _ (by omega)]
      omega
  have whole := general 0 (by omega)
  rw [Nat.zero_add] at whole
  exact whole

variable [DecidableEq Block]

theorem edgesOut_other {next : Block} (absent : next ∉ succs) (pre : Nat)
    (values : Block → Option Nat) : edgesOut count pre succs values next = values next := by
  induction succs generalizing pre values with
  | nil => rfl
  | cons head rest ih =>
    rw [mem_cons, not_or] at absent
    rw [edgesOut, ih absent.2, Function.update_of_ne absent.1]

private theorem edgesOut_spec {count : Block → Nat} {next : Block} (mem : next ∈ succs) (pre : Nat)
    (values : Block → Option Nat) (fits : pre + (succs.map count).sum < 2 ^ 64) :
    ∃ v, edgesOut count pre succs values next = some v ∧ pre ≤ v ∧
      v + count next ≤ pre + (succs.map count).sum := by
  induction succs generalizing pre values with
  | nil => cases mem
  | cons head rest ih =>
    rw [map_cons, sum_cons] at fits ⊢
    rw [edgesOut, Nat.mod_eq_of_lt (by omega)]
    by_cases later : next ∈ rest
    · obtain ⟨v, found, _, _⟩ := ih later (pre + count head)
        (Function.update values head (some pre)) (by omega)
      exact ⟨v, found, by omega, by omega⟩
    · obtain rfl : next = head := (mem_cons.1 mem).resolve_right later
      refine ⟨pre, ?_, Nat.le_refl _, by omega⟩
      rw [edgesOut_other later, Function.update_self]

end Counts

variable {settings : Settings} {level : Nat} {cfg : Cfg}

theorem mem_blocks (block : cfg.Block) : block ∈ cfg.blocks := mem_finRange block

theorem fwdSuccs_grounded : WellFounded (Fold.IsChild (fwdSuccs cfg)) := by
  have grounded : WellFounded
      ((Search.searchAll cfg.succs cfg.blocks cfg.entry).Forward cfg.succs) :=
    Search.searchAll_grounded mem_blocks cfg.entry
  refine Subrelation.wf ?_ grounded
  intro child block mem
  unfold Fold.IsChild fwdSuccs at mem
  split at mem
  · cases mem
  · obtain ⟨isSucc, forward⟩ := mem_filter.1 mem
    exact ⟨isSucc, Bool.not_eq_true' _ ▸ forward⟩

variable {simplify : Bool}

theorem total_congr (block : cfg.Block) (out other : cfg.Block → Option Nat)
    (same : ∀ next ∈ fwdSuccs cfg block, out next = other next) :
    total level cfg simplify block out = total level cfg simplify block other := by
  have counts : ∀ next ∈ fwdSuccs cfg block, (out next).getD 0 = (other next).getD 0 := by
    intro next mem
    rw [same _ mem]
  rw [total, total, largest_congr counts, wrappedSum_congr counts]

variable {block : cfg.Block}

theorem computeNumPaths_spec (reached : (computeNumPaths level cfg simplify block).isSome = true) :
    computeNumPaths level cfg simplify block =
        some (total level cfg simplify block (computeNumPaths level cfg simplify)) ∧
      ∀ next ∈ fwdSuccs cfg block, (computeNumPaths level cfg simplify next).isSome = true :=
  (Fold.run_spec fwdSuccs_grounded total_congr mem_blocks).2 block reached

def Result.of (level : Nat) (cfg : Cfg) (simplified : Bool) : Result cfg :=
  { numPaths := (computeNumPaths level cfg simplified cfg.entry).getD 0
    exits := cfg.blocks.filter cfg.exits
    numPathsAtBB := computeNumPaths level cfg simplified
    edgeValues := edgeValuesOf level cfg simplified (computeNumPaths level cfg simplified)
    simplified := simplified
    overCap := false }

variable (reserved : (analyze settings cfg).numPaths ≠ 0)

include reserved in
theorem analyze_of_reserved :
    ∃ simplified, analyze settings cfg = Result.of settings.level cfg simplified := by
  unfold analyze at reserved ⊢
  by_cases skips : (cfg.callsSetjmp || cfg.isCoroutine ||
      (cfg.blocks.filter cfg.exits).isEmpty) = true
  · rw [if_pos skips] at reserved
    exact absurd rfl reserved
  rw [if_neg skips] at reserved ⊢
  by_cases many : (computeNumPaths settings.level cfg false cfg.entry).getD 0 > settings.maxPaths
  · refine ⟨true, ?_⟩
    simp only [many, decide_true, if_true, Bool.true_and] at reserved ⊢
    split at reserved
    · exact absurd rfl reserved
    case isFalse capped =>
      rw [if_neg capped]
      split at reserved
      · exact absurd rfl reserved
      case isFalse several =>
        rw [if_neg several]
        rfl
  · refine ⟨false, ?_⟩
    simp only [many, decide_false, Bool.false_eq_true, if_false, Bool.false_and] at reserved ⊢
    split at reserved
    · exact absurd rfl reserved
    case isFalse several =>
      rw [if_neg several]
      rfl

def Fits (settings : Settings) (cfg : Cfg) : Prop :=
  let res := analyze settings cfg
  ∀ block, (res.numPathsAtBB block).isSome = true →
    shouldMaxMerge settings.level cfg res.simplified block = false →
    ((fwdSuccs cfg block).map (fun next => (res.numPathsAtBB next).getD 0)).sum < 2 ^ 64

instance (settings : Settings) (cfg : Cfg) : Decidable (Fits settings cfg) := by
  unfold Fits
  infer_instance

variable {next : cfg.Block}

private theorem value_add_count_le {simplified : Bool}
    (same : analyze settings cfg = Result.of settings.level cfg simplified)
    (fits : Fits settings cfg) {v : Nat}
    (edge : (analyze settings cfg).edgeValues block next = some v) :
    ∃ paths, (analyze settings cfg).numPathsAtBB block = some paths ∧
      v + ((analyze settings cfg).numPathsAtBB next).getD 0 ≤ paths := by
  unfold Fits at fits
  rw [same] at fits edge ⊢
  have fits : ∀ block, (computeNumPaths settings.level cfg simplified block).isSome = true →
      shouldMaxMerge settings.level cfg simplified block = false →
      ((fwdSuccs cfg block).map
        (fun next => (computeNumPaths settings.level cfg simplified next).getD 0)).sum <
          2 ^ 64 := fits
  have edge : edgeValuesOf settings.level cfg simplified
      (computeNumPaths settings.level cfg simplified) block next = some v := edge
  unfold edgeValuesOf at edge
  split at edge
  · cases edge
  case isFalse counted =>
    rw [Bool.or_eq_true, not_or, Bool.not_eq_true, Bool.not_eq_true, Option.isNone_eq_false_iff]
      at counted
    obtain ⟨inner, reached⟩ := counted
    obtain ⟨equation, -⟩ := computeNumPaths_spec reached
    refine ⟨_, equation, ?_⟩
    rw [total, if_neg (Bool.not_eq_true _ ▸ inner)]
    split at edge
    case isTrue merges =>
      rw [if_pos merges]
      dsimp only at edge
      split at edge
      case isTrue mem =>
        cases edge
        rw [Nat.zero_add]
        exact le_largest (fun next => (computeNumPaths _ _ _ next).getD 0) mem
      · cases edge
    case isFalse adds =>
      have room := fits _ reached (Bool.not_eq_true _ ▸ adds)
      rw [if_neg adds, wrappedSum_eq room]
      have mem : next ∈ fwdSuccs cfg block := by
        by_contra absent
        rw [edgesOut_other absent] at edge
        cases edge
      obtain ⟨_, isFound, -, below⟩ := edgesOut_spec mem 0
        (fun _ => none) (by rw [Nat.zero_add]; exact room)
      rw [isFound] at edge
      cases edge
      rw [Nat.zero_add] at below
      exact below

/-- The register has room for all paths that lead from this block to an exit. -/
def Position.Room (settings : Settings) (cfg : Cfg) (position : Position cfg) : Prop :=
  ∀ paths ∈ (analyze settings cfg).numPathsAtBB position.block, 0 < paths →
    position.pathReg + paths ≤ (analyze settings cfg).numPaths

instance (settings : Settings) (cfg : Cfg) (position : Position cfg) :
    Decidable (position.Room settings cfg) := by
  unfold Position.Room
  infer_instance

/-- No other edge adds its value on the way from the block to the next one. -/
def Alone (settings : Settings) (cfg : Cfg) (block next : cfg.Block) : Prop :=
  ∀ src, src ≠ block → several cfg src = true →
    ((analyze settings cfg).edgeValues src next).getD 0 = 0

instance (settings : Settings) (cfg : Cfg) (block next : cfg.Block) :
    Decidable (Alone settings cfg block next) := by
  unfold Alone
  infer_instance

/-- The step follows an edge, and where the edge has no value (a back edge, or an edge
out of a block that has an exit) or another edge adds its own as well (the two were not
split) the register still has room in the next block. -/
def Roomy (settings : Settings) (cfg : Cfg) (position : Position cfg) (next : cfg.Block) : Prop :=
  IsEdge cfg position next ∧ ((analyze settings cfg).edgeValues position.block next = none ∨
    ¬Alone settings cfg position.block next → (pass settings cfg position next).Room settings cfg)

instance (settings : Settings) (cfg : Cfg) (position : Position cfg) (next : cfg.Block) :
    Decidable (Roomy settings cfg position next) := by
  unfold Roomy IsEdge
  infer_instance

include reserved in
theorem Position.Room.start :
    (Position.start cfg).Room settings cfg := by
  obtain ⟨simplified, same⟩ := analyze_of_reserved reserved
  intro paths counted pos
  rw [same] at counted ⊢
  change 0 + paths ≤ (computeNumPaths settings.level cfg simplified cfg.entry).getD 0
  have counted : computeNumPaths settings.level cfg simplified cfg.entry = some paths := counted
  rw [counted, Nat.zero_add]
  exact Nat.le_refl _

private theorem addValue_le (pathReg v : Nat) : addValue pathReg (some v) ≤ pathReg + v := by
  cases v with
  | zero => exact Nat.le_refl _
  | succ v =>
    rw [addValue]
    omega

private theorem addValue_none (pathReg : Nat) {v : Option Nat} (empty : v.getD 0 = 0) :
    addValue pathReg v = pathReg := by
  cases v with
  | none => rfl
  | some v =>
    cases empty
    rfl

private theorem foldl_addValue {values : cfg.Block → Option Nat} {sources : List cfg.Block}
    (distinct : sources.Nodup)
    (others : ∀ src ∈ sources, src ≠ block → (values src).getD 0 = 0) (pathReg : Nat) :
    sources.foldl (fun pathReg src => addValue pathReg (values src)) pathReg =
      if block ∈ sources then addValue pathReg (values block) else pathReg := by
  induction sources generalizing pathReg with
  | nil => rfl
  | cons head rest ih =>
    obtain ⟨fresh, distinct⟩ := nodup_cons.1 distinct
    rw [foldl_cons, ih distinct fun src mem => others _ (mem_cons_of_mem _ mem)]
    by_cases here : head = block
    · subst here
      rw [if_neg fresh, if_pos mem_cons_self]
    · rw [addValue_none _ (others _ mem_cons_self here)]
      simp [mem_cons, Ne.symm here]

private theorem pass_of_alone {position : Position cfg}
    (alone : Alone settings cfg position.block next) :
    (pass settings cfg position next).pathReg =
      addValue position.pathReg ((analyze settings cfg).edgeValues position.block next) := by
  have others : ∀ src ∈ cfg.blocks.filter (several cfg), src ≠ position.block →
      ((analyze settings cfg).edgeValues src next).getD 0 = 0 :=
    fun src mem other => alone _ other (mem_filter.1 mem).2
  have distinct : (cfg.blocks.filter (several cfg)).Nodup := (nodup_finRange _).filter _
  unfold pass
  dsimp only
  rw [foldl_addValue distinct others]
  cases splits : several cfg position.block with
  | true => simp [splits, mem_blocks]
  | false => simp [splits]

theorem Position.Room.pass {position : Position cfg} (room : position.Room settings cfg)
    (reserved : (analyze settings cfg).numPaths ≠ 0) (fits : Fits settings cfg)
    (roomy : Roomy settings cfg position next) :
    (pass settings cfg position next).Room settings cfg := by
  by_cases alone : Alone settings cfg position.block next
  case neg => exact roomy.2 (.inr alone)
  cases edge : (analyze settings cfg).edgeValues position.block next with
  | none => exact roomy.2 (.inl edge)
  | some v =>
    obtain ⟨_, same⟩ := analyze_of_reserved reserved
    obtain ⟨_, counted, below⟩ := value_add_count_le same fits edge
    intro paths reached pos
    have reached : (analyze settings cfg).numPathsAtBB next = some paths := reached
    rw [reached, Option.getD_some] at below
    have earlier := room _ counted (by omega)
    have added := addValue_le position.pathReg v
    rw [pass_of_alone alone, edge]
    omega

include reserved in
private theorem exit_count (records : Records settings cfg block) :
    (analyze settings cfg).numPathsAtBB block = some 1 := by
  obtain ⟨_, same⟩ := analyze_of_reserved reserved
  obtain ⟨exit, reached⟩ := records
  rw [same] at exit reached ⊢
  have exit : cfg.exits block = true := (mem_filter.1 exit).2
  have equation := (computeNumPaths_spec reached).1
  rw [total, if_pos exit] at equation
  exact equation

/-- As long as the steps without a value and those over an edge that was not split leave the
register room, the path id that an exit records lies in the reserved slots. -/
theorem path_id_in_range (settings : Settings) (cfg : Cfg)
    (reserved : (analyze settings cfg).numPaths ≠ 0) (fits : Fits settings cfg)
    (walk : List cfg.Block)
    (roomy : Along (pass settings cfg) (Roomy settings cfg) (Position.start cfg) walk)
    (records : Records settings cfg (runFrom (pass settings cfg) (Position.start cfg) walk).block) :
    (runFrom (pass settings cfg) (Position.start cfg) walk).pathReg <
      (analyze settings cfg).numPaths := by
  have room : (runFrom (pass settings cfg) (Position.start cfg) walk).Room settings cfg :=
    runFrom_invariant (Position.Room _ _) (fun _ _ room roomy => room.pass reserved fits roomy)
      (Position.start _) (Position.Room.start reserved) _ roomy
  have one := room 1 (exit_count reserved records) (by decide)
  omega

/-- `do { if (a) f(); } while (b);`, with its critical edges split by the blocks 5 and 6. -/
def doWhile : Cfg :=
  { last := 6
    succs := ![[1], [2, 5], [3], [6, 4], [], [3], [1]]
    exits := fun block => block == 4
    guardOnly := fun _ => false
    callsSetjmp := false
    isCoroutine := false }

def strict : Settings := { level := 3, maxPaths := 100000 }

theorem path_id_in_range_doWhile :
    ((analyze strict doWhile).numPaths = 2 ∧ Fits strict doWhile ∧
      Along (pass strict doWhile) (Roomy strict doWhile) (Position.start doWhile)
        [1, 2, 3, 6, 1, 5, 3, 4]) ∧
    (runFrom (pass strict doWhile) (Position.start doWhile) [1, 2, 3, 6, 1, 5, 3, 4]).pathReg <
      (analyze strict doWhile).numPaths := by
  have slots : (analyze strict doWhile).numPaths = 2 := by decide +kernel
  have fits : Fits strict doWhile := by decide +kernel
  have roomy : Along (pass strict doWhile) (Roomy strict doWhile) (Position.start doWhile)
      [1, 2, 3, 6, 1, 5, 3, 4] := by decide +kernel
  refine ⟨⟨slots, fits, roomy⟩, ?_⟩
  exact path_id_in_range strict doWhile (by rw [slots]; decide) fits _ roomy (by decide +kernel)

/-- Twice through the loop without the call: the register is behind the two slots. -/
theorem second_round_out_of_range :
    (analyze strict doWhile).numPaths = 2 ∧
    Along (pass strict doWhile) (IsEdge doWhile) (Position.start doWhile) [1, 5, 3, 6, 1, 5, 3, 4] ∧
    Records strict doWhile
      (runFrom (pass strict doWhile) (Position.start doWhile) [1, 5, 3, 6, 1, 5, 3, 4]).block ∧
    (runFrom (pass strict doWhile) (Position.start doWhile) [1, 5, 3, 6, 1, 5, 3, 4]).pathReg =
      2 := by
  decide +kernel

end AflPlusPlus.PathCoverage
