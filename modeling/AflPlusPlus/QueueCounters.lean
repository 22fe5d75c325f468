/-
The counters of favored entries.

The scan counts an entry when it makes it favored.  An entry that a tightness
mark has already made favored is passed over by the counters, and marking the
current entry as tight makes it favored without counting it.
-/

import AflPlusPlus.QueueCover

namespace AflPlusPlus

open Machine

def Queue.countOf (measure : QueueEntry → Bool) (queue : Queue) : Nat :=
  Nat.count (fun q => measure (queue.queueBuf q) = true) queue.queuedItems

section Counting

variable {pre post : Queue} (measure : QueueEntry → Bool)

theorem Queue.countOf_congr (items : post.queuedItems = pre.queuedItems)
    (same : ∀ q, q < pre.queuedItems → measure (post.queueBuf q) = measure (pre.queueBuf q)) :
    post.countOf measure = pre.countOf measure := by
  unfold Queue.countOf
  rw [items]
  apply count_congr
  intro q inside
  rw [same q inside]

variable {queue : Queue} {q : Nat} {change : QueueEntry → QueueEntry}

theorem Queue.countOf_modify (change : QueueEntry → QueueEntry) (queued : q < queue.queuedItems) :
    (queue.modify q change).countOf measure + (if measure (queue.queueBuf q) = true then 1 else 0) =
      queue.countOf measure + (if measure (change (queue.queueBuf q)) = true then 1 else 0) :=
  count_update (fun entry => measure entry = true) queue.queueBuf queued _

theorem Queue.countOf_modify_of_same
    (same : measure (change (queue.queueBuf q)) = measure (queue.queueBuf q)) :
    (queue.modify q change).countOf measure = queue.countOf measure := by
  have items : (queue.modify q change).queuedItems = queue.queuedItems := rfl
  apply Queue.countOf_congr _ items
  intro e _
  by_cases here : e = q
  · rw [here, Queue.modify_self]
    exact same
  · rw [Queue.modify_of_ne here]

theorem Queue.countOf_addToQueue (queue : Queue) (len : BitVec 32) :
    (addToQueue len queue).countOf measure =
      queue.countOf measure + if measure (QueueEntry.added len) = true then 1 else 0 := by
  change Nat.count (fun q => measure ((queue.modify queue.queuedItems
    (fun _ => QueueEntry.added len)).queueBuf q) = true) (queue.queuedItems + 1) = _
  rw [Nat.count_succ, Queue.modify_self]
  congr 1
  apply count_congr
  intro q inside
  rw [Queue.modify_of_ne (Nat.ne_of_lt inside)]

end Counting

def QueueEntry.countsFavored (entry : QueueEntry) : Bool := entry.favored && !entry.disabled

def QueueEntry.pends (entry : QueueEntry) : Bool := entry.countsFavored && !entry.wasFuzzed

def Queue.favoredCount (queue : Queue) : Nat :=
  Nat.count (fun q => (queue.queueBuf q).countsFavored = true) queue.queuedItems

def Queue.pendingCount (queue : Queue) : Nat :=
  Nat.count (fun q => (queue.queueBuf q).pends = true) queue.queuedItems

/-- `smallest_favored` is the least pending entry, or -1 when nothing pends. -/
def Queue.SmallestExact (queue : Queue) : Prop :=
  (queue.smallestFavored = -1 ∧ ∀ q, q < queue.queuedItems → (queue.queueBuf q).pends = false) ∨
  ∃ q : Nat, q < queue.queuedItems ∧ queue.smallestFavored = q ∧ (queue.queueBuf q).pends = true ∧
    ∀ other, other < queue.queuedItems → (queue.queueBuf other).pends = true → q ≤ other

structure CountersExact (queue : Queue) : Prop where
  queued : queue.queuedFavored = queue.favoredCount
  pending : queue.pendingFavored = queue.pendingCount
  smallest : queue.SmallestExact

variable (entry : QueueEntry)

section Scan

variable {queue : Queue}

private theorem favor_counts (eligible : (!entry.favored && !entry.disabled) = true) :
    entry.countsFavored = false ∧ entry.pends = false ∧
      entry.favor.countsFavored = true ∧ entry.favor.pends = !entry.wasFuzzed := by
  rw [Bool.and_eq_true, Bool.not_eq_true'] at eligible
  unfold QueueEntry.pends QueueEntry.countsFavored QueueEntry.favor
  rw [eligible.1, eligible.2]
  exact ⟨rfl, rfl, rfl, rfl⟩

private theorem smallest_favor (exactly : queue.SmallestExact) (winner : Nat)
    (within : winner < queue.queuedItems) (pends : (queue.queueBuf winner).favor.pends = true) :
    ({ queue.modify winner QueueEntry.favor with
        smallestFavored :=
          if queue.smallestFavored < 0 ∨ queue.smallestFavored > (winner : Int) then (winner : Int)
          else queue.smallestFavored } : Queue).SmallestExact := by
  have pendsAfter : ∀ q, ((queue.modify winner QueueEntry.favor).queueBuf q).pends = true →
      q = winner ∨ (queue.queueBuf q).pends = true := by
    intro q pending
    by_cases same : q = winner
    · exact .inl same
    · rw [Queue.modify_of_ne same] at pending
      exact .inr pending
  have winnerPends : ((queue.modify winner QueueEntry.favor).queueBuf winner).pends = true := by
    rw [Queue.modify_self]
    exact pends
  rcases exactly with ⟨none, absent⟩ | ⟨q, inside, same, here, least⟩
  · refine .inr ⟨winner, within, ?_, winnerPends, ?_⟩
    · rw [none, if_pos (.inl (by decide))]
    · intro other below pending
      rcases pendsAfter other pending with itself | earlier
      · exact Nat.le_of_eq itself.symm
      · rw [absent _ below] at earlier
        cases earlier
  · by_cases smaller : winner < q
    · refine .inr ⟨winner, within, ?_, winnerPends, ?_⟩
      · rw [if_pos (.inr (by omega))]
      · intro other below pending
        rcases pendsAfter other pending with itself | earlier
        · exact Nat.le_of_eq itself.symm
        · have bound := least _ below earlier
          omega
    · refine .inr ⟨q, inside, ?_, ?_, ?_⟩
      · rw [same, if_neg (by omega)]
      · by_cases itself : q = winner
        · rw [itself]
          exact winnerPends
        · rw [Queue.modify_of_ne itself]
          exact here
      · intro other below pending
        rcases pendsAfter other pending with itself | earlier
        · omega
        · exact least _ below earlier

theorem pending_congr {pre post : Queue} (items : post.queuedItems = pre.queuedItems)
    (pends : ∀ q, q < pre.queuedItems → (post.queueBuf q).pends = (pre.queueBuf q).pends) :
    post.pendingCount = pre.pendingCount ∧ (post.smallestFavored = pre.smallestFavored →
        pre.SmallestExact → post.SmallestExact) := by
  constructor
  · exact Queue.countOf_congr QueueEntry.pends items pends
  · intro same exactly
    unfold Queue.SmallestExact
    rw [items, same]
    rcases exactly with ⟨none, absent⟩ | ⟨q, inside, here, pending, least⟩
    · refine .inl ⟨none, ?_⟩
      intro q inside
      rw [pends q inside]
      exact absent q inside
    · refine .inr ⟨q, inside, here, ?_, ?_⟩
      · rw [pends q inside]
        exact pending
      · intro other below alsoPending
        rw [pends _ below] at alsoPending
        exact least _ below alsoPending

variable (counters : CountersExact queue)

include counters

private theorem CountersExact.favorWinner (winner : Nat)
    (within : winner < queue.queuedItems) : CountersExact (queue.favorWinner winner) := by
  unfold Queue.favorWinner
  dsimp only
  split
  · rename_i eligible
    obtain ⟨notCounted, notPending, counted, pends⟩ := favor_counts _ eligible
    have more := Queue.countOf_modify QueueEntry.countsFavored QueueEntry.favor within
    rw [notCounted, counted] at more
    have queued : queue.queuedFavored + 1 =
        (queue.modify winner QueueEntry.favor).favoredCount := by
      rw [counters.queued]
      exact more.symm
    split
    · -- a fuzzed entry counts as favored, but it does not pend
      rename_i fuzzed
      rw [fuzzed] at pends
      have same := @pending_congr queue (queue.modify _ QueueEntry.favor) rfl (by
          intro q _
          by_cases here : q = winner
          · rw [here, Queue.modify_self, notPending]
            exact pends
          · rw [Queue.modify_of_ne here])
      exact ⟨queued, counters.pending.trans same.1.symm, same.2 rfl counters.smallest⟩
    · -- an unfuzzed entry pends from now on
      rename_i unfuzzed
      rw [Bool.eq_false_of_not_eq_true unfuzzed] at pends
      have morePending := Queue.countOf_modify QueueEntry.pends QueueEntry.favor within
      rw [notPending, pends] at morePending
      refine ⟨queued, ?_, ?_⟩
      · rw [counters.pending]
        exact morePending.symm
      · exact smallest_favor counters.smallest _ within pends
  · exact counters

private theorem CountersExact.visitSlot (len i : Nat)
    (queued : ∀ winner, queue.topRated i = some winner → winner < queue.queuedItems) :
    CountersExact (queue.visitSlot len i) := by
  unfold Queue.visitSlot
  cases held : queue.topRated i with
  | none => exact counters
  | some winner =>
    dsimp only
    split
    · cases (queue.queueBuf winner).traceMini with
      | none => exact counters
      | some mini =>
        have cleared : CountersExact (queue.clearSeen len mini) :=
          ⟨counters.queued, counters.pending, counters.smallest⟩
        exact cleared.favorWinner _ (queued _ held)
    · exact counters

private theorem CountersExact.cullScan (fsrv : Fsrv) (bound : Nat)
    (queued : ∀ i winner, queue.topRated i = some winner → winner < queue.queuedItems) :
    CountersExact (cullScan fsrv bound queue) := by
  refine (forUpto_preserves _ _ (fun cur => CountersExact cur ∧
    ScanFrame _ cur) _ ⟨counters, ScanFrame.refl _⟩ ?_).1
  intro i _ cur ongoing
  refine ⟨ongoing.1.visitSlot _ i ?_, ongoing.2.trans (Queue.visitSlot_frame _ i _)⟩
  intro winner held
  rw [ongoing.2.topRated] at held
  rw [ongoing.2.queuedItems]
  exact queued i _ held

end Scan

def Queue.NoTightness (queue : Queue) : Prop :=
  ∀ q, q < queue.queuedItems → (queue.queueBuf q).disabled = false →
    (queue.queueBuf q).tightlyFavored queue.queueCycle = false

variable (fsrv : Fsrv)

private theorem cullStart_counters (queue : Queue) (loose : queue.NoTightness) :
    CountersExact (cullStart fsrv queue) := by
  have items := cullStart_queuedItems fsrv queue
  have quiet : ∀ q, q < queue.queuedItems →
      ((cullStart fsrv queue).queueBuf q).countsFavored = false := by
    intro q inside
    unfold QueueEntry.countsFavored
    rw [cullStart_disabled, cullStart_queueBuf, if_pos inside, QueueEntry.resetFavored_favored]
    cases enabled : (queue.queueBuf q).disabled with
    | true => exact Bool.and_false _
    | false =>
      rw [loose q inside enabled]
      rfl
  have silent : ∀ q, q < queue.queuedItems → ((cullStart fsrv queue).queueBuf q).pends = false := by
    intro q inside
    unfold QueueEntry.pends
    rw [quiet q inside, Bool.false_and]
  have zero : (cullStart fsrv queue).queuedFavored = 0 ∧
      (cullStart fsrv queue).pendingFavored = 0 := by
    unfold cullStart
    rw [Queue.forEntries_eq]
    exact ⟨rfl, rfl⟩
  refine ⟨?_, ?_, ?_⟩
  · unfold Queue.favoredCount
    symm
    rw [zero.1, items, Nat.count_iff_forall_not]
    intro q inside counted
    rw [quiet q inside] at counted
    cases counted
  · unfold Queue.pendingCount
    symm
    rw [zero.2, items, Nat.count_iff_forall_not]
    intro q inside counted
    rw [silent q inside] at counted
    cases counted
  · refine .inl ⟨rfl, ?_⟩
    rw [items]
    exact silent

private theorem settle_counts (aflDisableRedundant : Bool) :
    (entry.settle aflDisableRedundant).countsFavored = entry.countsFavored ∧
      (entry.settle aflDisableRedundant).pends = entry.pends := by
  have fuzzed : (entry.settle aflDisableRedundant).wasFuzzed = entry.wasFuzzed := by
    unfold QueueEntry.settle QueueEntry.markRedundant
    split
    · rfl
    · split <;> rfl
  have counted : (entry.settle aflDisableRedundant).countsFavored = entry.countsFavored := by
    unfold QueueEntry.countsFavored
    rw [QueueEntry.settle_favored]
    cases favored : entry.favored with
    | false => rfl
    | true => rw [QueueEntry.settle_disabled_of_favored _ _ favored]
  refine ⟨counted, ?_⟩
  unfold QueueEntry.pends
  rw [counted, fuzzed]

theorem cullQueue_counters (queue : Queue) (ran : queue.cullSkipped = false)
    (queued : ∀ i winner, queue.topRated i = some winner → winner < queue.queuedItems)
    (loose : queue.NoTightness) : CountersExact (cullQueue fsrv queue) := by
  have scanned := (cullStart_counters fsrv _ loose).cullScan fsrv fsrv.mapSize (by
    rw [cullStart_topRated, cullStart_queuedItems]
    exact queued)
  have items : (cullQueue fsrv queue).queuedItems =
      (cullScan fsrv fsrv.mapSize (cullStart fsrv queue)).queuedItems := by
    rw [cullQueue_queuedItems, (cullScan_frame _ _ _).queuedItems, cullStart_queuedItems]
  have counts : ∀ q, q < (cullScan fsrv fsrv.mapSize (cullStart fsrv queue)).queuedItems →
      ((cullQueue fsrv queue).queueBuf q).countsFavored =
          ((cullScan fsrv fsrv.mapSize (cullStart fsrv queue)).queueBuf q).countsFavored ∧
        ((cullQueue fsrv queue).queueBuf q).pends =
          ((cullScan fsrv fsrv.mapSize (cullStart fsrv queue)).queueBuf q).pends := by
    intro q inside
    rw [← items, cullQueue_queuedItems] at inside
    rw [cullQueue_queueBuf _ _ ran, if_pos inside]
    exact settle_counts _ _
  have figures : (cullQueue fsrv queue).queuedFavored =
        (cullScan fsrv fsrv.mapSize (cullStart fsrv queue)).queuedFavored ∧
      (cullQueue fsrv queue).pendingFavored =
        (cullScan fsrv fsrv.mapSize (cullStart fsrv queue)).pendingFavored ∧
      (cullQueue fsrv queue).smallestFavored =
        (cullScan fsrv fsrv.mapSize (cullStart fsrv queue)).smallestFavored := by
    unfold cullQueue
    rw [ran, Queue.forEntries_eq]
    exact ⟨rfl, rfl, rfl⟩
  have same := pending_congr items (fun q inside => (counts q inside).2)
  refine ⟨?_, ?_, ?_⟩
  · rw [figures.1, scanned.queued]
    exact (Queue.countOf_congr _ items (fun q inside => (counts q inside).1)).symm
  · rw [figures.2.1, scanned.pending, same.1]
  · exact same.2 figures.2.2 scanned.smallest

/-- The condition on a step.  No enabled entry enters a cull with a tightness
mark, and no mark makes a fresh entry favored between culls.  The dry run is
over before anything is favored. -/
def CounterGuard (trace : Nat → Buffer) (s : QueueState) (step : QueueStep) : Prop :=
  step.Regular trace s ∧
    match step with
    | .cull => s.queue.cullSkipped = false → s.queue.NoTightness
    | .tighten q => (s.queue.queueBuf q).favored = true ∨
        (s.queue.queueBuf q).disabled = true ∨ (s.queue.queueBuf q).wasFuzzed = true
    | .removeDuplicates => ∀ q, q < s.queue.queuedItems → (s.queue.queueBuf q).favored = false
    | _ => True

def Queue.PendingExact (queue : Queue) : Prop := queue.pendingFavored = queue.pendingCount

variable {queue pre : Queue} {post : Queue}

theorem Queue.PendingExact.of_same (pending : pre.PendingExact)
    (figure : post.pendingFavored = pre.pendingFavored)
    (items : post.queuedItems = pre.queuedItems)
    (pends : ∀ q, q < pre.queuedItems → (post.queueBuf q).pends = (pre.queueBuf q).pends) :
    post.PendingExact := by
  unfold Queue.PendingExact
  rw [figure, (pending_congr items pends).1]
  exact pending

private theorem Queue.PendingExact.of_contest (pending : pre.PendingExact)
    (frame : ContestFrame pre post) : post.PendingExact := by
  apply pending.of_same
  · rw [frame.rest]
  · rw [frame.rest]
  · intro q _
    rw [frame.entries q]
    rfl

variable (pending : queue.PendingExact)

include pending

theorem Queue.PendingExact.modify (q : Nat) (change : QueueEntry → QueueEntry)
    (same : (change (queue.queueBuf q)).pends = (queue.queueBuf q).pends) :
    (queue.modify q change).PendingExact := by
  exact pending.trans (Queue.countOf_modify_of_same QueueEntry.pends same).symm

theorem Queue.PendingExact.addToQueue (len : BitVec 32) :
    (addToQueue len queue).PendingExact := by
  exact pending.trans (Queue.countOf_addToQueue QueueEntry.pends _ _).symm

theorem Queue.PendingExact.abandonEntry (stopSoon : Bool) (q : Nat)
    (queued : q < queue.queuedItems) : (abandonEntry stopSoon q queue).PendingExact := by
  apply Queue.PendingExact.modify _ q
  · rfl
  · split
    · rename_i first
      simp only [Bool.and_eq_true, Bool.not_eq_true'] at first
      obtain ⟨⟨_, unfuzzed⟩, enabled⟩ := first
      have silent : (queue.queueBuf q).noteFuzzed.pends = false := Bool.and_false _
      split
      · rename_i favored
        have pends : (queue.queueBuf q).pends = true := by
          unfold QueueEntry.pends QueueEntry.countsFavored
          rw [favored, enabled, unfuzzed]
          rfl
        have fewer := Queue.countOf_modify QueueEntry.pends QueueEntry.noteFuzzed queued
        rw [pends, silent] at fewer
        exact congrArg (· - 1) (pending.trans fewer.symm)
      · rename_i unfavored
        have quiet : (queue.queueBuf q).pends = false := by
          unfold QueueEntry.pends QueueEntry.countsFavored
          rw [Bool.eq_false_of_not_eq_true unfavored]
          rfl
        exact pending.modify q QueueEntry.noteFuzzed (silent.trans quiet.symm)
    · exact pending

omit pending

theorem Queue.PendingExact.step {trace : Nat → Buffer} (s : QueueState) (step : QueueStep)
    (invariant : WinnersHit trace s.queue ∧ s.queue.PendingExact)
    (guard : CounterGuard trace s step) :
    WinnersHit trace (queueStep trace s step).queue ∧
      (queueStep trace s step).queue.PendingExact := by
  obtain ⟨hit, pending⟩ := invariant
  refine ⟨hit.step _ _ guard.1, ?_⟩
  cases step with
  | add len => exact pending.addToQueue _
  | execute q | setSchedule schedule fixedSeed nFuzz | nextCycle => exact pending
  | score q => exact pending.of_contest (updateBitmapScore_frame _ q _ s.queue)
  | rescore q idx => exact pending.of_contest (updateBitmapRescore_frame _ q _ s.queue)
  | recalculate =>
    have frame := collectCandidates_frame trace s
    have collected : (collectCandidates trace s).queue.PendingExact := by
      rw [frame.rest]
      exact pending
    exact Queue.PendingExact.of_contest collected (rescoreCalls_frame _ _ _)
  | removeDuplicates =>
    have frame := removeDuplicates_frame s.queue
    apply pending.of_same
    · change (removeDuplicates s.queue).pendingFavored = _
      rw [frame.rest]
    · change (removeDuplicates s.queue).queuedItems = _
      rw [frame.rest]
    · intro q inside
      have unfavored := guard.2 q inside
      change ((removeDuplicates s.queue).queueBuf q).pends = _
      rw [frame.entries q]
      unfold QueueEntry.pends QueueEntry.countsFavored
      rw [unfavored]
      rfl
  | cull =>
    change (cullQueue s.fsrv s.queue).PendingExact
    by_cases skipped : s.queue.cullSkipped = true
    · unfold cullQueue
      rw [if_pos skipped]
      exact pending
    · have ran := Bool.eq_false_of_not_eq_true skipped
      exact (cullQueue_counters s.fsrv s.queue ran
        (fun i winner held => (hit.winners i _ held).1) (guard.2 ran)).pending
  | abandon q stopSoon => exact pending.abandonEntry _ q guard.1
  | tighten q =>
    apply Queue.PendingExact.modify pending
    unfold QueueEntry.pends QueueEntry.countsFavored
    rcases guard.2 with favored | disabled | fuzzed
    · rw [favored]
    · rw [disabled, Bool.not_true, Bool.and_false, Bool.and_false]
    · rw [fuzzed, Bool.not_true, Bool.and_false, Bool.and_false]
  | setScores q scores =>
    apply Queue.PendingExact.modify pending
    rfl

/-- In every run whose steps meet the condition, `pending_favored` is always
the number of pending entries, and right after any cull that was not skipped
all three figures are exact. -/
theorem favored_counters_of_run (trace : Nat → Buffer) (fsrv : Fsrv) (schedule : Schedule)
    (fixedSeed aflDisableRedundant : Bool) (steps : List QueueStep)
    (admitted : Along (queueStep trace) (CounterGuard trace)
      (QueueState.start fsrv schedule fixedSeed aflDisableRedundant) steps) :
    let start := QueueState.start fsrv schedule fixedSeed aflDisableRedundant
    let post := runFrom (queueStep trace) start steps
    post.queue.pendingFavored = post.queue.pendingCount ∧
      ∀ earlier later, steps = earlier ++ .cull :: later →
        (runFrom (queueStep trace) start earlier).queue.cullSkipped = false →
        CountersExact (queueStep trace (runFrom (queueStep trace) start earlier) .cull).queue := by
  intro start post
  have initially : WinnersHit trace start.queue ∧ start.queue.PendingExact := by
    refine ⟨⟨?_, ?_⟩, rfl⟩
    · intro i winner bad
      cases bad
    · intro i list bad
      cases bad
  have invariant := runFrom_invariant (fun s => WinnersHit _ s.queue ∧ s.queue.PendingExact)
      Queue.PendingExact.step start initially
  refine ⟨(invariant _ admitted).2, ?_⟩
  intro earlier later split ran
  rw [split] at admitted
  obtain ⟨first, second⟩ := admitted.of_append
  have hit := (invariant _ first).1
  exact cullQueue_counters _ _ ran (fun i winner held => (hit.winners i _ held).1) (second.1.2 ran)

/-- Three seeds are culled, the first of the two that are favored is given up. -/
theorem favored_counters_of_run_three_seeds :
    CountersExact (queueStep chainTrace chainScored .cull).queue ∧
      let post := (runFrom (queueStep chainTrace) chainScored [.cull, .abandon 0 false]).queue
      post.pendingFavored = post.pendingCount ∧ post.pendingCount = 1 := by
  have admitted : Along (queueStep chainTrace) (CounterGuard chainTrace)
      (QueueState.start ⟨fun _ => 0, 64, 64⟩ .explore false false)
      [.add 4, .add 4, .add 4, .score 0, .score 1, .score 2, .cull, .abandon 0 false] := by
    obtain ⟨_, _, _, first, second, third, _⟩ := chainScored_regular
    refine ⟨⟨trivial, trivial⟩, ⟨trivial, trivial⟩, ⟨trivial, trivial⟩, ⟨first, trivial⟩,
      ⟨second, trivial⟩, ⟨third, trivial⟩, ⟨trivial, ?_⟩,
      ⟨(by decide +kernel : 0 < (queueStep chainTrace chainScored .cull).queue.queuedItems),
        trivial⟩, trivial⟩
    intro _ q inside _
    have untight : ∀ q, q < 3 → (chainScored.queue.queueBuf q).tightlyFavored
        chainScored.queue.queueCycle = false := by decide +kernel
    exact untight q inside
  have law := favored_counters_of_run chainTrace ⟨fun _ => 0, 64, 64⟩ .explore false false _
    admitted
  exact ⟨law.2 [.add 4, .add 4, .add 4, .score 0, .score 1, .score 2] [.abandon 0 false] rfl
    (by decide +kernel), law.1, by decide +kernel⟩

/-- A seed that is marked as tight after the first cull and scored again. -/
def tightSeedScored : QueueState :=
  runFrom (queueStep sharedTrace) (QueueState.start ⟨fun _ => 0, 64, 64⟩ .explore false false)
    [.add 4, .score 0, .cull, .tighten 0, .score 0]

/-- The second cull keeps the seed favored and counts nothing. -/
theorem favored_counters_miss_tight_seed :
    tightSeedScored.queue.cullSkipped = false ∧
      ¬ CountersExact (queueStep sharedTrace tightSeedScored .cull).queue := by
  refine ⟨by decide +kernel, ?_⟩
  intro counters
  have figure : (queueStep sharedTrace tightSeedScored .cull).queue.queuedFavored = 0 := by
    decide +kernel
  have number : (queueStep sharedTrace tightSeedScored .cull).queue.favoredCount = 1 := by
    decide +kernel
  have queued := counters.queued
  rw [figure, number] at queued
  cases queued

end AflPlusPlus
