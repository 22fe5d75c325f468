/-
What the favored entries cover.

After a cull the favored entries should hit every slot that has a winner.  The greedy scan
guarantees that for a slot whose winner is enabled and still has its minimised trace, as
long as nothing that claims the slot is disabled or carries a foreign trace.
-/

import AflPlusPlus.QueueOwners

namespace AflPlusPlus

open Machine

/-- Slot winners and candidates are queued entries that hit the index. -/
structure WinnersHit (trace : Nat → Buffer) (queue : Queue) : Prop where
  winners : ∀ i winner, queue.topRated i = some winner →
    winner < queue.queuedItems ∧ trace winner i ≠ 0
  candidates : ∀ i list, queue.topRatedCandidates i = some list → ∀ id, id ∈ list.ids →
    id < queue.queuedItems ∧ trace id i ≠ 0

variable (s : QueueState)

section Winners

variable {trace : Nat → Buffer} {pre post : Queue}

private theorem WinnersHit.of_same (hit : WinnersHit trace pre)
    (items : pre.queuedItems ≤ post.queuedItems)
    (slots : post.topRated = pre.topRated)
    (lists : post.topRatedCandidates = pre.topRatedCandidates) :
    WinnersHit trace post where
  winners := by
    intro i winner held
    rw [slots] at held
    have old := hit.winners i _ held
    exact ⟨Nat.lt_of_lt_of_le old.1 items, old.2⟩
  candidates := by
    intro i list present id mem
    rw [lists] at present
    have old := hit.candidates i _ present id mem
    exact ⟨Nat.lt_of_lt_of_le old.1 items, old.2⟩

theorem winnersHit_iff :
    WinnersHit trace pre ↔ pre.OwnersIn (fun q i => q < pre.queuedItems ∧ trace q i ≠ 0) := by
  constructor
  · intro hit
    exact ⟨hit.winners, hit.candidates⟩
  · intro owners
    exact ⟨owners.winners, owners.candidates⟩

theorem WinnersHit.of_owners (items : post.queuedItems = pre.queuedItems)
    (owners : post.OwnersIn (fun q i => q < pre.queuedItems ∧ trace q i ≠ 0)) :
    WinnersHit trace post := by
  rw [winnersHit_iff, items]
  exact owners

theorem WinnersHit.updateBitmapScore (hit : WinnersHit trace pre) (fsrv : Fsrv)
    (q : Nat) (haveTrace : Bool) (queued : q < pre.queuedItems)
    (ran : fsrv.traceBits = trace q) :
    WinnersHit trace (updateBitmapScore fsrv q haveTrace pre) := by
  apply WinnersHit.of_owners
  · rw [(updateBitmapScore_frame _ q _ _).rest]
  · apply (winnersHit_iff.1 hit).updateBitmapScore
    intro i lit
    rw [ran] at lit
    exact ⟨queued, lit⟩

theorem WinnersHit.updateBitmapRescore (hit : WinnersHit trace pre) (fsrv : Fsrv)
    (q idx : Nat) (queued : q < pre.queuedItems) (own : trace q idx ≠ 0) :
    WinnersHit trace (updateBitmapRescore fsrv q idx pre) := by
  apply WinnersHit.of_owners
  · rw [(updateBitmapRescore_frame _ q _ _).rest]
  · exact (winnersHit_iff.1 hit).updateBitmapRescore _ q _ ⟨queued, own⟩

private theorem WinnersHit.recalculate (hit : WinnersHit trace s.queue) :
    WinnersHit trace (recalculateAllScores trace s).queue := by
  apply WinnersHit.of_owners
  · rw [(recalculateAllScores_frame _ _).rest]
  · apply (winnersHit_iff.1 hit).recalculate _
    intro id i unscored lit
    exact ⟨unscored.2.1, lit⟩

end Winners

variable {trace : Nat → Buffer}

theorem WinnersHit.step (step : QueueStep) (hit : WinnersHit trace s.queue)
    (regular : step.Regular trace s) :
    WinnersHit trace (queueStep trace s step).queue := by
  cases step with
  | add len => exact hit.of_same (Nat.le_succ _) rfl rfl
  | execute q => exact hit
  | score q => exact hit.updateBitmapScore _ q _ regular rfl
  | rescore q idx => exact hit.updateBitmapRescore _ q _ regular.1 regular.2.2
  | recalculate => exact hit.recalculate _
  | removeDuplicates =>
    have frame := (removeDuplicates_frame s.queue).rest
    apply hit.of_same
    · change _ ≤ (removeDuplicates s.queue).queuedItems
      rw [frame]
    · change (removeDuplicates s.queue).topRated = _
      rw [frame]
    · change (removeDuplicates s.queue).topRatedCandidates = _
      rw [frame]
  | cull =>
    apply hit.of_same
    · exact Nat.le_of_eq (cullQueue_queuedItems s.fsrv s.queue).symm
    · exact cullQueue_topRated s.fsrv s.queue
    · change (cullQueue s.fsrv s.queue).topRatedCandidates = _
      rw [(cullQueue_frame s.fsrv s.queue).rest]
  | abandon q stopSoon =>
    have rest := abandonEntry_rest stopSoon q s.queue
    apply hit.of_same
    · change _ ≤ (abandonEntry stopSoon q s.queue).queuedItems
      rw [rest]
    · change (abandonEntry stopSoon q s.queue).topRated = _
      rw [rest]
    · change (abandonEntry stopSoon q s.queue).topRatedCandidates = _
      rw [rest]
  | tighten q | setScores q scores | setSchedule schedule fixedSeed nFuzz | nextCycle =>
    exact hit.of_same (Nat.le_refl _) rfl rfl

/-- The entry holds some slot, and its minimised trace claims this index. -/
def Queue.Claims (queue : Queue) (mapSize e i : Nat) : Prop :=
  ∃ k mini, k < mapSize ∧ queue.coverOwner k = some (e, mini) ∧ bitAt mini.bytes i = true

/-- The entry may be taken for slot `j`: it wins it or claims it. -/
def Queue.MayCover (queue : Queue) (mapSize winner j e : Nat) : Prop :=
  e = winner ∨ queue.Claims mapSize e j

/-- The index is hit by an enabled entry whose tightness mark keeps it favored,
or by everything that some slot `j` can make the scan take.  The slot itself
will do for `j` when its winner is enabled, still has its minimised trace, and
nothing disabled or foreign claims it. -/
def SlotSecured (trace : Nat → Buffer) (mapSize : Nat) (queue : Queue) (i : Nat) : Prop :=
  (∃ e, e < queue.queuedItems ∧ (queue.queueBuf e).disabled = false ∧
    (queue.queueBuf e).tightlyFavored queue.queueCycle = true ∧ trace e i ≠ 0) ∨
  ∃ j winner mini, j < mapSize ∧ queue.coverOwner j = some (winner, mini) ∧
    ∀ e, queue.MayCover mapSize winner j e → (queue.queueBuf e).disabled = false ∧ trace e i ≠ 0

def CoverCondition (trace : Nat → Buffer) (mapSize : Nat) (queue : Queue) : Prop :=
  ∀ i winner, i < mapSize → queue.topRated i = some winner → SlotSecured trace mapSize queue i

def Queue.CoveredAt (queue : Queue) (trace : Nat → Buffer) (i : Nat) : Prop :=
  ∃ e, e < queue.queuedItems ∧ (queue.queueBuf e).favored = true ∧
    (queue.queueBuf e).disabled = false ∧ trace e i ≠ 0

variable {queue : Queue} {fsrv : Fsrv}

private theorem cullQueue_coveredAt_of_favored
    (ran : queue.cullSkipped = false) (trace : Nat → Buffer) (i e : Nat)
    (queued : e < queue.queuedItems) (enabled : (queue.queueBuf e).disabled = false)
    (favored : ((cullQueue fsrv queue).queueBuf e).favored = true) (hits : trace e i ≠ 0) :
    (cullQueue fsrv queue).CoveredAt trace i := by
  refine ⟨e, ?_, favored, ?_, hits⟩
  · rw [cullQueue_queuedItems]
    exact queued
  · rw [cullQueue_disabled_of_favored _ _ ran e queued favored]
    exact enabled

private theorem exists_taken_claim {mapSize : Nat} {i winner : Nat}
    {mini : TraceMini} (within : i < mapSize) (owned : queue.coverOwner i = some (winner, mini)) :
    ∃ e kept, GreedyCover.Taken queue.coverOwner coverBits mapSize (e, kept) ∧
      queue.MayCover mapSize winner i e := by
  obtain ⟨chosen, taken, either⟩ := @GreedyCover.exists_taken_of_owner _ _ coverBits _ _ _
    within owned
  refine ⟨chosen.1, chosen.2, taken, ?_⟩
  rcases either with same | hit
  · exact .inl (congrArg Prod.fst same)
  · obtain ⟨k, inside, here⟩ := taken
    exact .inr ⟨k, chosen.2, inside, here.1, hit⟩

theorem cullQueue_covers (aligned : 8 ∣ fsrv.mapSize)
    (queue : Queue) (ran : queue.cullSkipped = false) (hit : WinnersHit trace queue) (i : Nat)
    (secured : SlotSecured trace fsrv.mapSize queue i) :
    (cullQueue fsrv queue).CoveredAt trace i := by
  rcases secured with ⟨e, queued, enabled, tight, hits⟩ | ⟨j, _, _, inside, owned, good⟩
  · have favored : ((cullQueue fsrv queue).queueBuf e).favored = true := by
      rw [cullQueue_favored_iff _ aligned _ ran e queued]
      exact .inl tight
    exact cullQueue_coveredAt_of_favored ran _ i e queued enabled favored hits
  · obtain ⟨e, kept, taken, may⟩ := exists_taken_claim inside owned
    obtain ⟨enabled, hits⟩ := good e may
    have queued : e < queue.queuedItems := by
      obtain ⟨k, _, here, _⟩ := taken
      have slot := ((queue.coverOwner_eq_some_iff k e _).1 here).1
      exact (hit.winners k e slot).1
    have favored : ((cullQueue fsrv queue).queueBuf e).favored = true := by
      rw [cullQueue_favored_iff _ aligned _ ran e queued]
      exact .inr ⟨enabled, kept, taken⟩
    exact cullQueue_coveredAt_of_favored ran _ i e queued enabled favored hits

/-- Steps are regular, and a cull that is not skipped meets the condition. -/
def CoverGuard (trace : Nat → Buffer) (s : QueueState) (step : QueueStep) : Prop :=
  step.Regular trace s ∧ (step = .cull → s.queue.cullSkipped = false →
      CoverCondition trace s.fsrv.mapSize s.queue)

theorem WinnersHit.run (trace : Nat → Buffer) (fsrv : Fsrv) (schedule : Schedule)
    (fixedSeed aflDisableRedundant : Bool) (steps : List QueueStep)
    (regular : Along (queueStep trace) (fun s step => step.Regular trace s)
      (QueueState.start fsrv schedule fixedSeed aflDisableRedundant) steps) :
    WinnersHit trace (runFrom (queueStep trace)
      (QueueState.start fsrv schedule fixedSeed aflDisableRedundant) steps).queue := by
  refine runFrom_invariant (fun s => WinnersHit _ s.queue)
    (fun s step => WinnersHit.step _ _) _ ?_ _ regular
  constructor
  · intro i winner bad
    cases bad
  · intro i list bad
    cases bad

/-- In every run whose culls meet the condition, right after any cull that was
not skipped the favored entries hit every slot that has a winner. -/
theorem favored_cover_of_run (trace : Nat → Buffer) (fsrv : Fsrv) (aligned : 8 ∣ fsrv.mapSize)
    (schedule : Schedule) (fixedSeed aflDisableRedundant : Bool) (steps : List QueueStep)
    (admitted : Along (queueStep trace) (CoverGuard trace)
      (QueueState.start fsrv schedule fixedSeed aflDisableRedundant) steps)
    (earlier later : List QueueStep) (split : steps = earlier ++ .cull :: later) :
    let pre := runFrom (queueStep trace)
      (QueueState.start fsrv schedule fixedSeed aflDisableRedundant) earlier
    let post := queueStep trace pre .cull
    pre.queue.cullSkipped = false →
      ∀ i winner, i < fsrv.mapSize → post.queue.topRated i = some winner →
        post.queue.CoveredAt trace i := by
  intro pre post ran i winner within held
  rw [split] at admitted
  obtain ⟨first, second⟩ := admitted.of_append
  have size : pre.fsrv.mapSize = fsrv.mapSize := runFrom_mapSize _ _ _
  have hit : WinnersHit trace pre.queue :=
    WinnersHit.run _ _ _ _ _ _ (first.mono (fun _ _ guard => guard.1))
  have cond := second.1.2 rfl ran
  change (cullQueue pre.fsrv pre.queue).topRated i = some winner at held
  rw [cullQueue_topRated] at held
  rw [← size] at aligned within
  exact cullQueue_covers aligned pre.queue ran hit i (cond i _ within held)

/-- Every entry shares one index with the one before it and one with the next. -/
def chainTrace (q : Nat) : Buffer := fun i => if i = q ∨ i = q + 1 then 1 else 0

def chainScored : QueueState :=
  runFrom (queueStep chainTrace) (QueueState.start ⟨fun _ => 0, 64, 64⟩ .explore false false)
    [.add 4, .add 4, .add 4, .score 0, .score 1, .score 2]

theorem chainScored_regular : Along (queueStep chainTrace) (fun s step => step.Regular chainTrace s)
    (QueueState.start ⟨fun _ => 0, 64, 64⟩ .explore false false)
    [.add 4, .add 4, .add 4, .score 0, .score 1, .score 2] := by
  decide +kernel

private theorem chainScored_condition : CoverCondition chainTrace 64 chainScored.queue := by
  have hit : WinnersHit chainTrace chainScored.queue :=
    WinnersHit.run _ ⟨fun _ => 0, 64, 64⟩ .explore _ _ _ chainScored_regular
  have kept : ∀ i, i < 64 → ∀ e ∈ chainScored.queue.topRated i,
      (chainScored.queue.queueBuf e).traceMini.isSome = true ∧
        (chainScored.queue.queueBuf e).disabled = false := by decide +kernel
  have claims : ∀ k, k < 64 → ∀ item ∈ chainScored.queue.coverOwner k, ∀ i, i < 64 →
      bitAt item.2.bytes i = true → (chainScored.queue.queueBuf item.1).disabled = false ∧
        chainTrace item.1 i ≠ 0 := by decide +kernel
  intro i winner within held
  obtain ⟨mini, present⟩ := Option.isSome_iff_exists.1 (kept i within winner held).1
  refine .inr ⟨i, winner, mini, within,
    (Queue.coverOwner_eq_some_iff _ i winner _).2 ⟨held, present⟩, ?_⟩
  intro e may
  rcases may with same | ⟨k, other, inside, owned, claimed⟩
  · rw [same]
    exact ⟨(kept i within winner held).2, (hit.winners i winner held).2⟩
  · exact claims k inside (e, other) owned i within claimed

/-- Entry 1 wins a slot and is not favored: entry 0, which was taken before, hits it. -/
theorem favored_cover_of_run_three_seeds :
    let post := (queueStep chainTrace chainScored .cull).queue
    (post.topRated 1 = some 1 ∧ (post.queueBuf 1).favored = false) ∧
      ∀ i winner, i < 64 → post.topRated i = some winner → post.CoveredAt chainTrace i := by
  have ran : chainScored.queue.cullSkipped = false := by decide +kernel
  refine ⟨by decide +kernel, ?_⟩
  unfold chainScored at ran ⊢
  refine favored_cover_of_run chainTrace ⟨fun _ => 0, 64, 64⟩ (by decide) .explore false false
    [.add 4, .add 4, .add 4, .score 0, .score 1, .score 2, .cull] ?_
    [.add 4, .add 4, .add 4, .score 0, .score 1, .score 2] [] rfl ran
  obtain ⟨_, _, _, first, second, third, _⟩ := chainScored_regular
  exact ⟨⟨trivial, nofun⟩, ⟨trivial, nofun⟩, ⟨trivial, nofun⟩, ⟨first, nofun⟩, ⟨second, nofun⟩,
    ⟨third, nofun⟩, ⟨trivial, fun _ _ => chainScored_condition⟩, trivial⟩

def sharedTrace (_ : Nat) : Buffer := fun i => if i = 0 then 1 else 0

def seedScores : QueueEntry := { QueueEntry.added 4 with execUs := 10, execCksum := 77 }

def equalSeedsDryRun : List QueueStep :=
  [.add 4, .add 4, .setScores 0 seedScores, .score 0, .setScores 1 seedScores, .score 1,
    .removeDuplicates]

/-- The dry run's result for two seeds with the same trace, length and speed.
The second takes over the slot and is then disabled as a duplicate. -/
def equalSeedsScored : QueueState :=
  runFrom (queueStep sharedTrace) (QueueState.start ⟨fun _ => 0, 64, 64⟩ .explore false false)
    equalSeedsDryRun

theorem favored_cover_lost_to_duplicate :
    let post := (queueStep sharedTrace equalSeedsScored .cull).queue
    equalSeedsScored.queue.cullSkipped = false ∧
      ¬ ∀ i winner, i < 64 → post.topRated i = some winner → post.CoveredAt sharedTrace i := by
  intro post
  have items : post.queuedItems = 2 := by
    unfold post
    decide +kernel
  have first : (post.queueBuf 0).favored = false := by
    unfold post
    decide +kernel
  have second : (post.queueBuf 1).favored = false := by
    unfold post
    decide +kernel
  refine ⟨by decide +kernel, ?_⟩
  intro claim
  obtain ⟨e, _, favored, _, _⟩ := claim 0 1 (by decide) (by unfold post; decide +kernel)
  have cases : e = 0 ∨ e = 1 := by omega
  rcases cases with zero | one
  · rw [zero, first] at favored
    cases favored
  · rw [one, second] at favored
    cases favored

end AflPlusPlus
