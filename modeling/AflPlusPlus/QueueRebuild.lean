/-
When recalculating the scores leaves every minimised trace to its entry.

The condition is read off the queue before `recalculate_all_scores` starts: which entries
it will run and rescore, which trace the last run leaves behind, and which slots an entry
cannot lose, because it beats whatever else contends for them.
-/

import AflPlusPlus.QueueReferences

namespace AflPlusPlus

open Machine

/-- `update_bitmap_rescore` will be called for this entry and this index. -/
def Queue.Contends (trace : Nat → Buffer) (queue : Queue) (q i : Nat) : Prop :=
  (queue.queueBuf q).disabled = false ∧
    ((∃ list, queue.topRatedCandidates i = some list ∧ q ∈ list.ids) ∨
      queue.Unscored q ∧ trace q i ≠ 0)

/-- The entry holds the slot, and all others that contend for it are worse. -/
def Queue.Keeps (trace : Nat → Buffer) (queue : Queue) (q i : Nat) : Prop :=
  queue.topRated i = some q ∧ ∀ other, other ≠ q → queue.Contends trace other i →
    queue.holds (queue.fuzzP2 (queue.queueBuf other)) (queue.favFactor (queue.queueBuf other))
      q = true

/-- An entry may displace itself from a slot, so one slot is not enough. -/
def Queue.Retains (trace : Nat → Buffer) (mapSize : Nat) (queue : Queue) (q : Nat) : Prop :=
  (queue.queueBuf q).traceMini ≠ none ∧ ∃ i j, i ≠ j ∧ i < mapSize ∧ j < mapSize ∧
    queue.Keeps trace q i ∧ queue.Keeps trace q j

/-- The last entry to be run leaves the hits of `q`; when none is run, they are
in the buffer already. -/
def QueueState.Leaves (trace : Nat → Buffer) (s : QueueState) (q : Nat) : Prop :=
  (∀ last, s.queue.Unscored last → (∀ e, s.queue.Unscored e → e ≤ last) →
      SameHits s.fsrv.mapSize (trace last) (trace q)) ∧
    ((∀ e, ¬ s.queue.Unscored e) → SameHits s.fsrv.mapSize s.fsrv.traceBits (trace q))

/-- The condition on a step. -/
def RebuildGuard (trace : Nat → Buffer) (s : QueueState) : QueueStep → Prop
  | .rescore q idx => (s.queue.queueBuf q).disabled = false →
      SameHits s.fsrv.mapSize s.fsrv.traceBits (trace q) ∨ (s.queue.queueBuf q).traceMini ≠ none ∧
          ∃ i, i ≠ idx ∧ i < s.fsrv.mapSize ∧ s.queue.topRated i = some q
  | .recalculate => ∀ q i, i < s.fsrv.mapSize → s.queue.Contends trace q i →
      s.Leaves trace q ∨ s.queue.Retains trace s.fsrv.mapSize q ∨
        ∃ keeper, keeper ≠ q ∧ s.queue.Keeps trace keeper i
  | _ => True

variable {trace : Nat → Buffer} {mapSize : Nat} {queue : Queue} {s : QueueState}

theorem RefCounts.two_le {q i j : Nat} (counts : RefCounts mapSize queue) (other : i ≠ j)
    (insideI : i < mapSize) (insideJ : j < mapSize) (heldI : queue.topRated i = some q)
    (heldJ : queue.topRated j = some q) : 2 ≤ (queue.queueBuf q).tcRef := by
  rw [counts.owned q, Nat.count_eq_card_filter_range]
  have pair : ({i, j} : Finset Nat) ⊆
      (Finset.range mapSize).filter (fun k => queue.topRated k = some q) := by
    intro k mem
    rcases Finset.mem_insert.1 mem with here | here
    · rw [here, Finset.mem_filter, Finset.mem_range]
      exact ⟨insideI, heldI⟩
    · rw [Finset.mem_singleton.1 here, Finset.mem_filter, Finset.mem_range]
      exact ⟨insideJ, heldJ⟩
  calc 2 = ({i, j} : Finset Nat).card := (Finset.card_pair other).symm
    _ ≤ _ := Finset.card_le_card pair

theorem RecalculateFrame.contest {pre middle post : Queue}
    (frame : RecalculateFrame pre middle) (contests : ContestFrame middle post) :
    RecalculateFrame pre post where
  rest := by rw [contests.rest, frame.rest]
  entries e := by rw [contests.entries e, frame.entries e]

/-- Recalculating does not touch the scores that it compares. -/
theorem RecalculateFrame.holds {pre post : Queue} (frame : RecalculateFrame pre post)
    (other q : Nat) :
    post.holds (post.fuzzP2 (post.queueBuf other)) (post.favFactor (post.queueBuf other)) q =
      pre.holds (pre.fuzzP2 (pre.queueBuf other)) (pre.favFactor (pre.queueBuf other)) q := by
  have p2 : ∀ e, post.fuzzP2 (post.queueBuf e) = pre.fuzzP2 (pre.queueBuf e) := by
    intro e
    rw [frame.entries e, frame.rest]
    rfl
  have factor : ∀ e, post.favFactor (post.queueBuf e) = pre.favFactor (pre.queueBuf e) := by
    intro e
    rw [frame.entries e, frame.rest]
    rfl
  unfold Queue.holds
  rw [p2, p2, factor, factor]

theorem Queue.contend_topRated_kept {fsrv : Fsrv} {miniLen other i k q : Nat}
    {fuzzP2 favFactor : BitVec 64} (held : queue.topRated k = some q)
    (safe : i = k → other ≠ q → queue.holds fuzzP2 favFactor q = true) :
    (queue.contend fsrv miniLen other fuzzP2 favFactor i).topRated k = some q := by
  have crowned : ∀ cur : Queue, cur.topRated = queue.topRated → (i = k → other = q) →
      (cur.crown fsrv miniLen other i).topRated k = some q := by
    intro cur same own
    change Function.update cur.topRated i (some other) k = some q
    by_cases slot : k = i
    · rw [slot, Function.update_self, own slot.symm]
    · rw [Function.update_of_ne slot, same]
      exact held
  unfold Queue.contend
  cases here : queue.topRated i with
  | none =>
    apply crowned queue rfl
    intro slot
    rw [slot, held] at here
    cases here
  | some winner =>
    dsimp only
    split
    · exact held
    · rename_i beaten
      apply crowned (queue.modify winner QueueEntry.release) rfl
      intro slot
      by_contra foreign
      rw [slot, held] at here
      rw [← Option.some.inj here, safe slot foreign] at beaten
      exact beaten rfl

section Collecting

variable (trace) (s)

/-- Which trace is in the buffer when the rescoring starts. -/
private theorem collectCandidates_traceBits :
    (∃ last, s.queue.Unscored last ∧ (∀ e, s.queue.Unscored e → e ≤ last) ∧
        (collectCandidates trace s).fsrv.traceBits = trace last) ∨
      (∀ e, ¬ s.queue.Unscored e) ∧
        (collectCandidates trace s).fsrv.traceBits = s.fsrv.traceBits := by
  have loop := forUpto_invariant (s.queue.queuedItems - (s.queue.lastScoredIdx + 1).toNat)
    (fun k cur => collectEntry trace ((s.queue.lastScoredIdx + 1).toNat + k) cur)
    (fun k cur => cur.queue.queueBuf = s.queue.queueBuf ∧ ((∃ last, s.queue.Unscored last ∧
          (∀ e, s.queue.Unscored e → e < (s.queue.lastScoredIdx + 1).toNat + k → e ≤ last) ∧
          cur.fsrv.traceBits = trace last) ∨
        (∀ e, s.queue.Unscored e → (s.queue.lastScoredIdx + 1).toNat + k ≤ e) ∧
          cur.fsrv.traceBits = s.fsrv.traceBits))
    s ?_ ?_
  · rcases loop.2 with ⟨last, unscored, latest, bits⟩ | ⟨none, bits⟩
    · refine .inl ⟨last, unscored, fun e later => latest e later ?_, bits⟩
      have behind := later.1
      have queued := later.2.1
      omega
    · refine .inr ⟨fun e unscored => ?_, bits⟩
      have beyond := none e unscored
      have behind := unscored.1
      have queued := unscored.2.1
      omega
  · refine ⟨rfl, .inr ⟨fun e unscored => ?_, rfl⟩⟩
    have behind := unscored.1
    omega
  · intro k below cur ongoing
    obtain ⟨same, ran⟩ := ongoing
    have frame := collectEntry_frame trace ((s.queue.lastScoredIdx + 1).toNat + k) cur
    refine ⟨by rw [frame.rest]; exact same, ?_⟩
    unfold collectEntry
    rw [same]
    split
    · rename_i disabled
      -- a disabled entry is not among the unscored ones
      have skipped : ∀ e, s.queue.Unscored e → e ≠ (s.queue.lastScoredIdx + 1).toNat + k := by
        intro e unscored here
        rw [here] at unscored
        rw [unscored.2.2] at disabled
        cases disabled
      rcases ran with ⟨last, unscored, latest, bits⟩ | ⟨none, bits⟩
      · refine .inl ⟨last, unscored, fun e later inside => latest e later ?_, bits⟩
        have other := skipped e later
        omega
      · refine .inr ⟨fun e unscored => ?_, bits⟩
        have beyond := none e unscored
        have other := skipped e unscored
        omega
    · rename_i enabled
      refine .inl ⟨_, ⟨by omega, by omega, Bool.eq_false_of_not_eq_true enabled⟩, ?_, rfl⟩
      intro e _ inside
      omega

theorem QueueState.Leaves.hits {q : Nat} (leaves : s.Leaves trace q) :
    SameHits (collectCandidates trace s).fsrv.mapSize
      (collectCandidates trace s).fsrv.traceBits (trace q) := by
  rw [(collectCandidates_frame trace s).mapSize]
  rcases collectCandidates_traceBits trace s with ⟨last, unscored, latest, bits⟩ | ⟨none, bits⟩
  · rw [bits]
    exact leaves.1 last unscored latest
  · rw [bits]
    exact leaves.2 none

private theorem contends_of_listed {q i : Nat} {list : Candidates}
    (present : (collectCandidates trace s).queue.topRatedCandidates i = some list)
    (listed : q ∈ list.ids) (enabled : (s.queue.queueBuf q).disabled = false) :
    s.queue.Contends trace q i := by
  have collected : ListedIn (fun id i =>
      (∃ list, s.queue.topRatedCandidates i = some list ∧ id ∈ list.ids) ∨
        s.queue.Unscored id ∧ trace id i ≠ 0)
      (collectCandidates trace s).queue.topRatedCandidates := by
    apply ListedIn.collectCandidates
    · exact fun i list present id mem => .inl ⟨list, present, mem⟩
    · exact fun id i unscored lit => .inr ⟨unscored, lit⟩
  exact ⟨enabled, collected i list present q listed⟩

end Collecting

/-- What holds between two rescoring calls: nobody has lost a slot it keeps. -/
structure Rescoring (trace : Nat → Buffer) (s : QueueState) (cur : Queue) : Prop where
  frame : RecalculateFrame s.queue cur
  counts : RefCounts s.fsrv.mapSize cur
  slots : ∀ q i, s.queue.Keeps trace q i → cur.topRated i = some q
  minis : ∀ q, s.queue.Retains trace s.fsrv.mapSize q → (cur.queueBuf q).traceMini ≠ none

variable {cur : Queue} (rescoring : Rescoring trace s cur)

include rescoring

theorem Rescoring.two_le {q : Nat} (retains : s.queue.Retains trace s.fsrv.mapSize q) :
    2 ≤ (cur.queueBuf q).tcRef := by
  obtain ⟨_, i, j, other, insideI, insideJ, keepsI, keepsJ⟩ := retains
  exact rescoring.counts.two_le other insideI insideJ (rescoring.slots q i keepsI)
    (rescoring.slots q j keepsJ)

theorem Rescoring.disabled (q : Nat) :
    (cur.queueBuf q).disabled = (s.queue.queueBuf q).disabled := by
  rw [rescoring.frame.entries q]

section Call

variable {call : Nat × Nat} (inside : call.2 < s.fsrv.mapSize)
  (contends : (s.queue.queueBuf call.1).disabled = false → s.queue.Contends trace call.1 call.2)

include inside contends

theorem Rescoring.rescoreCall (small : s.fsrv.mapSize < 2 ^ 32) (fsrv : Fsrv) :
    Rescoring trace s (rescoreCall fsrv cur call) := by
  unfold AflPlusPlus.rescoreCall updateBitmapRescore
  split
  · exact rescoring
  · rename_i enabled
    rw [rescoring.disabled] at enabled
    have contender := contends (Bool.eq_false_of_not_eq_true enabled)
    constructor
    · exact rescoring.frame.contest (Queue.contend_frame _ _ _ _ _ _ _)
    · exact rescoring.counts.contend small _ _ _ _ _ inside
    · intro q i keeps
      apply Queue.contend_topRated_kept (rescoring.slots q i keeps)
      intro slot foreign
      rw [rescoring.frame.holds]
      exact keeps.2 call.1 foreign (slot ▸ contender)
    · intro q retains gone
      have several := rescoring.two_le retains
      rcases Queue.contend_traceMini_none _ _ _ _ _ _ _ _ gone with absent | last
      · exact rescoring.minis q retains absent
      · omega

theorem Rescoring.buildsOwn (guard : RebuildGuard trace s .recalculate) :
    BuildsOwn trace (collectCandidates trace s).fsrv cur call := by
  intro enabled takes lacks
  rw [rescoring.disabled] at enabled
  rcases guard call.1 call.2 inside (contends enabled) with leaves | retains | kept
  · exact leaves.hits trace s
  · have several := rescoring.two_le retains
    rcases lacks with absent | last
    · exact absurd absent (rescoring.minis _ retains)
    · omega
  · obtain ⟨keeper, other, keeps⟩ := kept
    unfold Queue.takes at takes
    rw [rescoring.slots keeper call.2 keeps] at takes
    dsimp only at takes
    rw [rescoring.frame.holds, keeps.2 call.1 other.symm (contends enabled)] at takes
    cases takes

end Call

theorem Rescoring.along (small : s.fsrv.mapSize < 2 ^ 32)
    (guard : RebuildGuard trace s .recalculate) (calls : List (Nat × Nat))
    (known : ∀ call ∈ calls, call.2 < s.fsrv.mapSize ∧ ((s.queue.queueBuf call.1).disabled = false →
        s.queue.Contends trace call.1 call.2)) :
    Along (AflPlusPlus.rescoreCall (collectCandidates trace s).fsrv)
      (BuildsOwn trace (collectCandidates trace s).fsrv) cur calls := by
  induction calls generalizing cur with
  | nil => trivial
  | cons call rest ih =>
    have first := known call List.mem_cons_self
    refine ⟨rescoring.buildsOwn first.1 first.2 guard, ?_⟩
    apply ih (rescoring.rescoreCall first.1 first.2 small _)
    exact fun later mem => known later (List.mem_cons_of_mem _ mem)

omit rescoring

theorem RebuildGuard.recalculate (counts : RefCounts s.fsrv.mapSize s.queue)
    (small : s.fsrv.mapSize < 2 ^ 32) (guard : RebuildGuard trace s .recalculate) :
    MiniGuard trace s .recalculate := by
  have frame := collectCandidates_frame trace s
  have started : Rescoring trace s (collectCandidates trace s).queue := by
    constructor
    · exact frame.recalculate (ContestFrame.refl _)
    · rw [frame.rest]
      exact ⟨counts.owned, counts.unowned⟩
    · intro q i keeps
      rw [frame.rest]
      exact keeps.1
    · intro q retains
      rw [frame.rest]
      exact retains.1
  apply started.along small guard
  intro call mem
  obtain ⟨list, present, listed⟩ := mem_rescoreCalls mem
  refine ⟨?_, contends_of_listed trace s present listed⟩
  rw [← frame.mapSize]
  exact rescoreCalls_inside _ _ _ mem

theorem RebuildGuard.rescore {q idx : Nat} (counts : RefCounts s.fsrv.mapSize s.queue)
    (inside : idx < s.fsrv.mapSize) (guard : RebuildGuard trace s (.rescore q idx)) :
    MiniGuard trace s (.rescore q idx) := by
  intro enabled _ lacks
  rcases guard enabled with hits | ⟨present, i, other, below, held⟩
  · exact hits
  · rcases lacks with absent | ⟨here, last⟩
    · exact absurd absent present
    · exact absurd last (Nat.ne_of_gt (counts.two_le other below inside held here))

theorem RebuildGuard.builds (step : QueueStep) (kept : SlotsKept trace s)
    (regular : step.Regular trace s) (guard : RebuildGuard trace s step) :
    MiniGuard trace s step := by
  have counts := kept.referenced.counts
  cases step with
  | rescore q idx => exact guard.rescore counts regular.2.1
  | recalculate => exact guard.recalculate counts kept.whole.small
  | _ => trivial

/-- In every run whose steps meet the condition, every minimised trace is that
of its entry. -/
theorem traceMini_own_of_run (trace : Nat → Buffer) (fsrv : Fsrv) (whole : fsrv.Whole)
    (schedule : Schedule) (fixedSeed aflDisableRedundant : Bool) (steps : List QueueStep)
    (admitted : Along (queueStep trace)
      (fun s step => step.Regular trace s ∧ RebuildGuard trace s step)
      (QueueState.start fsrv schedule fixedSeed aflDisableRedundant) steps) :
    let post := runFrom (queueStep trace)
      (QueueState.start fsrv schedule fixedSeed aflDisableRedundant) steps
    ∀ q mini, (post.queue.queueBuf q).traceMini = some mini →
      mini.bytes = minimizeBits fsrv.mapSize (fun _ => 0) (trace q) := by
  intro post q mini present
  have start : SlotsKept trace (QueueState.start fsrv schedule fixedSeed aflDisableRedundant) ∧
      OwnMinis trace fsrv.mapSize
        (QueueState.start fsrv schedule fixedSeed aflDisableRedundant).queue :=
    ⟨SlotsKept.run trace fsrv whole schedule fixedSeed aflDisableRedundant [] trivial, nofun⟩
  have own : SlotsKept trace post ∧ OwnMinis trace post.fsrv.mapSize post.queue := by
    refine runFrom_invariant (fun s => SlotsKept trace s ∧ OwnMinis trace s.fsrv.mapSize s.queue)
      ?_ _ start _ admitted
    rintro s step ⟨kept, own⟩ ⟨regular, guard⟩
    exact ⟨kept.step _ _ regular, own.step _ step (guard.builds step kept regular)⟩
  have size : post.fsrv.mapSize = fsrv.mapSize := runFrom_mapSize _ _ _
  rw [← size]
  exact own.2 q _ present

/-- Entry `q` hits two slots of its own, and one that all entries hit. -/
def pairedTrace (q : Nat) : Buffer := fun i => if i = 2 * q ∨ i = 2 * q + 1 ∨ i = 8 then 1 else 0

def pairedScored : QueueState :=
  runFrom (queueStep pairedTrace) (QueueState.start ⟨fun _ => 0, 64, 64⟩ .explore false false)
    [.add 4, .add 4, .score 0, .score 1]

private theorem pairedScored_rest :
    pairedScored.queue.queuedItems = 2 ∧ pairedScored.queue.topRatedCandidates = fun _ => none :=
  ⟨rfl, rfl⟩

private theorem pairedScored_guard : RebuildGuard pairedTrace pairedScored .recalculate := by
  have unscored : ∀ {q}, pairedScored.queue.Unscored q → q = 0 ∨ q = 1 := by
    intro q late
    have queued := late.2.1
    rw [pairedScored_rest.1] at queued
    omega
  have contender : ∀ {q i}, pairedScored.queue.Contends pairedTrace q i →
      (q = 0 ∨ q = 1) ∧ pairedTrace q i ≠ 0 := by
    rintro q i ⟨_, ⟨list, present, _⟩ | ⟨late, lit⟩⟩
    · rw [pairedScored_rest.2] at present
      cases present
    · exact ⟨unscored late, lit⟩
  have keeps : ∀ i, i < 2 → pairedScored.queue.Keeps pairedTrace 0 i := by
    intro i below
    constructor
    · have held : ∀ i, i < 2 → pairedScored.queue.topRated i = some 0 := by decide +kernel
      exact held i below
    · intro other foreign contends
      obtain ⟨known, lit⟩ := contender contends
      have hit : i = 2 * other ∨ i = 2 * other + 1 ∨ i = 8 := by
        by_contra missed
        exact lit (if_neg missed)
      omega
  intro q i _ contends
  rcases (contender contends).1 with first | second
  · refine .inr (.inl ?_)
    rw [first]
    exact ⟨by decide +kernel, 0, 1, by decide, by decide, by decide, keeps 0 (by decide),
      keeps 1 (by decide)⟩
  · refine .inl ?_
    have last : pairedScored.queue.Unscored 1 := by
      refine ⟨?_, ?_, ?_⟩ <;> decide +kernel
    rw [second]
    constructor
    · intro e late latest
      rcases unscored late with here | here
      · have one := latest 1 last
        omega
      · rw [here]
        exact fun _ _ => Iff.rfl
    · exact fun none => absurd last (none 1)

def recalculatedPair : List QueueStep := [.add 4, .add 4, .score 0, .score 1, .recalculate]

/-- Entry 0 keeps its two slots, and entry 1 is the last to run. -/
theorem traceMini_own_of_run_two_entries :
    Along (queueStep pairedTrace)
        (fun s step => step.Regular pairedTrace s ∧ RebuildGuard pairedTrace s step)
        (QueueState.start ⟨fun _ => 0, 64, 64⟩ .explore false false) recalculatedPair ∧
      ∀ q mini, ((runFrom (queueStep pairedTrace)
          (QueueState.start ⟨fun _ => 0, 64, 64⟩ .explore false false)
          recalculatedPair).queue.queueBuf q).traceMini = some mini →
        mini.bytes = minimizeBits 64 (fun _ => 0) (pairedTrace q) := by
  have admitted : Along (queueStep pairedTrace)
      (fun s step => step.Regular pairedTrace s ∧ RebuildGuard pairedTrace s step)
      (QueueState.start ⟨fun _ => 0, 64, 64⟩ .explore false false) recalculatedPair := by
    refine ⟨⟨trivial, trivial⟩, ⟨trivial, trivial⟩, ⟨?_, trivial⟩, ⟨?_, trivial⟩,
      ⟨trivial, pairedScored_guard⟩, trivial⟩
    · exact Nat.zero_lt_two
    · exact Nat.one_lt_two
  exact ⟨admitted, traceMini_own_of_run pairedTrace ⟨fun _ => 0, 64, 64⟩ ⟨by decide, by decide⟩
    .explore false false recalculatedPair admitted⟩

def diagonalTrace (q : Nat) : Buffer := fun i => if i = q then 1 else 0

/-- Two entries score one slot each.  Recalculating makes entry 0 displace
itself after entry 1 was the last to run. -/
theorem traceMini_foreign_after_recalculate :
    let post := runFrom (queueStep diagonalTrace)
      (QueueState.start ⟨fun _ => 0, 64, 64⟩ .explore false false) recalculatedPair
    ¬ ∀ q mini, (post.queue.queueBuf q).traceMini = some mini →
      mini.bytes = minimizeBits 64 (fun _ => 0) (diagonalTrace q) := by
  intro post claim
  have foreign : (post.queue.queueBuf 0).traceMini.map (fun mini => mini.bytes 0) = some 2 := by
    unfold post
    decide +kernel
  obtain ⟨mini, present, byte⟩ := Option.map_eq_some_iff.1 foreign
  have own : minimizeBits 64 (fun _ => 0) (diagonalTrace 0) 0 = 1 := by decide +kernel
  rw [claim 0 mini present, own] at byte
  exact absurd byte (by decide)

end AflPlusPlus
