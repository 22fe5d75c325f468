/-
How many entries are active, and how many are still to be fuzzed.

Disabling an entry as redundant adjusts neither `active_items` nor `pending_not_fuzzed`,
and a crashing seed that is no news leaves the count of active entries without being
disabled.
-/

import AflPlusPlus.DryRun
import AflPlusPlus.QueueCounters

namespace AflPlusPlus

open Machine

def QueueEntry.active (entry : QueueEntry) : Bool := !entry.disabled

def QueueEntry.toFuzz (entry : QueueEntry) : Bool := !entry.disabled && !entry.wasFuzzed

structure PopulationExact (queue : Queue) : Prop where
  active : queue.activeItems = queue.countOf QueueEntry.active
  pending : queue.pendingNotFuzzed = queue.countOf QueueEntry.toFuzz

variable {pre post queue : Queue} {q e : Nat} {afl : Afl}

structure StandingFrame (pre post : Queue) : Prop where
  items : post.queuedItems = pre.queuedItems
  active : post.activeItems = pre.activeItems
  pending : post.pendingNotFuzzed = pre.pendingNotFuzzed
  entries : ∀ e, e < pre.queuedItems → (post.queueBuf e).disabled = (pre.queueBuf e).disabled ∧
      (post.queueBuf e).wasFuzzed = (pre.queueBuf e).wasFuzzed

theorem PopulationExact.of_standing (exactly : PopulationExact pre)
    (frame : StandingFrame pre post) : PopulationExact post := by
  constructor
  · rw [frame.active, exactly.active]
    symm
    apply Queue.countOf_congr _ frame.items
    intro q inside
    unfold QueueEntry.active
    rw [(frame.entries q inside).1]
  · rw [frame.pending, exactly.pending]
    symm
    apply Queue.countOf_congr _ frame.items
    intro q inside
    unfold QueueEntry.toFuzz
    rw [(frame.entries q inside).1, (frame.entries q inside).2]

theorem StandingFrame.modify (queue : Queue) (q : Nat) (change : QueueEntry → QueueEntry)
    (disabled : (change (queue.queueBuf q)).disabled = (queue.queueBuf q).disabled)
    (wasFuzzed : (change (queue.queueBuf q)).wasFuzzed = (queue.queueBuf q).wasFuzzed) :
    StandingFrame queue (queue.modify q change) := by
  refine ⟨rfl, rfl, rfl, ?_⟩
  intro e _
  by_cases here : e = q
  · rw [here, Queue.modify_self]
    exact ⟨disabled, wasFuzzed⟩
  · rw [Queue.modify_of_ne here]
    exact ⟨rfl, rfl⟩

theorem ContestFrame.standing (frame : ContestFrame pre post) :
    StandingFrame pre post := by
  refine ⟨by rw [frame.rest], by rw [frame.rest], by rw [frame.rest], ?_⟩
  intro e _
  rw [frame.entries e]
  exact ⟨rfl, rfl⟩

theorem RecalculateFrame.standing (frame : RecalculateFrame pre post) :
    StandingFrame pre post := by
  refine ⟨by rw [frame.rest], by rw [frame.rest], by rw [frame.rest], ?_⟩
  intro e _
  rw [frame.entries e]
  exact ⟨rfl, rfl⟩

/-- A cull disables nobody: the option is off, or every enabled entry is marked
as redundant already, stays favored by its tightness mark, or is taken by the
greedy scan. -/
def Queue.CullDisablesNone (mapSize : Nat) (queue : Queue) : Prop :=
  queue.aflDisableRedundant = true → ∀ q, q < queue.queuedItems →
    (queue.queueBuf q).disabled = false → (queue.queueBuf q).fsRedundant = true ∨
        (queue.queueBuf q).tightlyFavored queue.queueCycle = true ∨
        8 ∣ mapSize ∧ ∃ mini, GreedyCover.Taken queue.coverOwner coverBits mapSize (q, mini)

private theorem QueueEntry.settle_disabled (aflDisableRedundant : Bool) (entry : QueueEntry)
    (harmless : aflDisableRedundant = true → entry.disabled = false →
      entry.fsRedundant = true ∨ entry.favored = true) :
    (entry.settle aflDisableRedundant).disabled = entry.disabled := by
  unfold QueueEntry.settle QueueEntry.markRedundant
  cases enabled : entry.disabled with
  | true => rw [if_pos rfl, enabled]
  | false =>
    rw [if_neg Bool.false_ne_true]
    split
    · exact enabled
    · rename_i changes
      cases aflDisableRedundant with
      | false => simp
      | true =>
        rcases harmless rfl enabled with redundant | favored
        · rw [redundant] at changes
          cases favored : entry.favored with
          | true => simp
          | false =>
            rw [favored] at changes
            exact absurd rfl changes
        · simp [favored]

theorem Queue.visitSlot_favored {len i : Nat} (favored : (queue.queueBuf e).favored = true) :
    ((queue.visitSlot len i).queueBuf e).favored = true := by
  unfold Queue.visitSlot
  split
  · exact favored
  · split
    · split
      · exact favored
      · rw [Queue.favorWinner_favored_iff]
        exact .inl favored
    · exact favored

private theorem cullScan_favored {fsrv : Fsrv} {bound : Nat}
    (favored : (queue.queueBuf e).favored = true) :
    ((cullScan fsrv bound queue).queueBuf e).favored = true := by
  apply forUpto_preserves _ _ (fun cur => (Queue.queueBuf cur e).favored = true) _ favored
  intro i _ cur held
  exact Queue.visitSlot_favored held

private theorem cullQueue_standing (fsrv : Fsrv)
    (harmless : queue.cullSkipped = false → queue.CullDisablesNone fsrv.mapSize) :
    StandingFrame queue (cullQueue fsrv queue) := by
  have frame := cullQueue_frame fsrv queue
  refine ⟨by rw [frame.rest], by rw [frame.rest], by rw [frame.rest], ?_⟩
  intro e inside
  have fuzzed : ((cullQueue fsrv queue).queueBuf e).wasFuzzed = (queue.queueBuf e).wasFuzzed := by
    rw [cullQueue_entries _ _ e]
  refine ⟨?_, fuzzed⟩
  cases skipped : queue.cullSkipped with
  | true =>
    unfold cullQueue
    rw [if_pos skipped]
  | false =>
    have scan := cullScan_frame fsrv fsrv.mapSize (cullStart fsrv queue)
    have sameDisabled : ((cullScan fsrv fsrv.mapSize (cullStart fsrv queue)).queueBuf e).disabled =
        (queue.queueBuf e).disabled := (scan.disabled e).trans (cullStart_disabled _ _ e)
    have started : (cullStart fsrv queue).queueBuf e =
        (queue.queueBuf e).resetFavored queue.queueCycle := by
      rw [cullStart_queueBuf, if_pos inside]
    rw [cullQueue_queueBuf _ _ skipped, if_pos inside, ← sameDisabled]
    apply QueueEntry.settle_disabled
    intro option enabled
    rw [sameDisabled] at enabled
    rcases harmless skipped option e inside enabled with redundant | tight | ⟨aligned, taken⟩
    · left
      rw [scan.entries e, started]
      unfold QueueEntry.resetFavored
      split <;> exact redundant
    · right
      apply cullScan_favored
      rw [started, QueueEntry.resetFavored_favored]
      exact tight
    · right
      apply ((cullScan_refines _ aligned (cullStart _ _) (cullStart_unseen _ aligned _) _
        (Nat.le_refl _)).2 e).2
      rw [cullStart_coverOwner, cullStart_disabled]
      exact .inr ⟨enabled, taken⟩

section

variable (exactly : PopulationExact queue)

include exactly

theorem PopulationExact.addToQueue (len : BitVec 32) :
    PopulationExact (addToQueue len queue) := by
  constructor
  · rw [Queue.countOf_addToQueue, ← exactly.active]
    rfl
  · rw [Queue.countOf_addToQueue, ← exactly.pending]
    rfl

theorem PopulationExact.abandonEntry (stopSoon : Bool) (q : Nat) (queued : q < queue.queuedItems) :
    PopulationExact (abandonEntry stopSoon q queue) := by
  have levelled : ∀ cur : Queue, PopulationExact cur →
      PopulationExact (cur.modify q QueueEntry.raiseLevel) :=
    fun cur held => held.of_standing (StandingFrame.modify _ q _ rfl rfl)
  apply levelled
  split
  · rename_i first
    simp only [Bool.and_eq_true, Bool.not_eq_true'] at first
    obtain ⟨⟨_, unfuzzed⟩, enabled⟩ := first
    have counted : (queue.queueBuf q).toFuzz = true := by
      unfold QueueEntry.toFuzz
      rw [enabled, unfuzzed]
      rfl
    have lost : (queue.queueBuf q).noteFuzzed.toFuzz = false := Bool.and_false _
    have fewer := Queue.countOf_modify QueueEntry.toFuzz QueueEntry.noteFuzzed queued
    rw [counted, lost] at fewer
    have same : (queue.modify q QueueEntry.noteFuzzed).countOf QueueEntry.active =
        queue.countOf QueueEntry.active := Queue.countOf_modify_of_same _ rfl
    have noted : PopulationExact { queue.modify q QueueEntry.noteFuzzed with
        pendingNotFuzzed := queue.pendingNotFuzzed - 1, reinitTable := true } := by
      constructor
      · exact exactly.active.trans same.symm
      · exact congrArg (· - 1) (exactly.pending.trans fewer.symm)
    split
    · exact ⟨noted.active, noted.pending⟩
    · exact noted
  · exact exactly

theorem PopulationExact.leave (queued : q < queue.queuedItems)
    (enabled : (queue.queueBuf q).disabled = false)
    (unfuzzed : (queue.queueBuf q).wasFuzzed = false)
    (items : post.queuedItems = queue.queuedItems)
    (active : post.activeItems = u32Pred queue.activeItems)
    (pending : post.pendingNotFuzzed = u32Pred queue.pendingNotFuzzed)
    (left : (post.queueBuf q).disabled = true)
    (others : ∀ e, e ≠ q → post.queueBuf e = queue.queueBuf e) : PopulationExact post := by
  have drop : ∀ measure : QueueEntry → Bool, measure (queue.queueBuf q) = true →
      measure (post.queueBuf q) = false →
      u32Pred (queue.countOf measure) = post.countOf measure := by
    intro measure counted lost
    have moved := count_update (fun entry => measure entry = true) queue.queueBuf queued
      (post.queueBuf q)
    rw [← Function.eq_update_iff.2 ⟨rfl, others⟩, counted, lost] at moved
    have fewer : post.countOf measure + 1 = queue.countOf measure := by
      rw [Queue.countOf, items]
      exact moved
    have back := @u32Pred_add_one (queue.countOf measure) (by omega)
    omega
  constructor
  · rw [active, exactly.active]
    apply drop
    · unfold QueueEntry.active
      rw [enabled]
      rfl
    · unfold QueueEntry.active
      rw [left]
      rfl
  · rw [pending, exactly.pending]
    apply drop
    · unfold QueueEntry.toFuzz
      rw [enabled, unfuzzed]
      rfl
    · unfold QueueEntry.toFuzz
      rw [left]
      rfl

end

def Queue.NoneFuzzed (queue : Queue) : Prop :=
  ∀ q, q < queue.queuedItems → (queue.queueBuf q).disabled = false →
    (queue.queueBuf q).wasFuzzed = false

structure Unfuzzed (queue : Queue) : Prop where
  population : PopulationExact queue
  none : queue.NoneFuzzed

variable (unfuzzed : Unfuzzed queue)

include unfuzzed

theorem Unfuzzed.disableDuplicate (queued : q < queue.queuedItems)
    (enabled : (queue.queueBuf q).disabled = false) :
    Unfuzzed (disableDuplicate q queue) := by
  have rest := (disableDuplicate_frame q queue).rest
  have items : (AflPlusPlus.disableDuplicate q queue).queuedItems = queue.queuedItems := by
    rw [rest]
  have fresh := unfuzzed.none q queued enabled
  constructor
  · refine unfuzzed.population.leave queued enabled fresh items ?_ ?_
      (disableDuplicate_self q _) (fun e other => disableDuplicate_of_ne other _)
    · unfold AflPlusPlus.disableDuplicate
      rw [fresh]
      rfl
    · unfold AflPlusPlus.disableDuplicate
      rw [fresh]
      rfl
  · intro e inside still
    rw [items] at inside
    by_cases same : e = q
    · rw [same, disableDuplicate_self] at still
      cases still
    · rw [disableDuplicate_of_ne same] at still ⊢
      exact unfuzzed.none e inside still

theorem Unfuzzed.removeDuplicatesOf {others : List Nat}
    (queued : q < queue.queuedItems) (enabled : (queue.queueBuf q).disabled = false)
    (ne : ∀ p ∈ others, p ≠ q ∧ p < queue.queuedItems) :
    Unfuzzed (removeDuplicatesOf q others queue) := by
  induction others generalizing queue with
  | nil => exact unfuzzed
  | cons p rest ih =>
    have first := ne p List.mem_cons_self
    have later : ∀ r ∈ rest, r ≠ q ∧ r < queue.queuedItems :=
      fun r mem => ne r (List.mem_cons_of_mem p mem)
    unfold AflPlusPlus.removeDuplicatesOf
    split
    · rename_i same
      have comparable := (Bool.and_eq_true_iff.1 same).1
      split
      · have removed := unfuzzed.disableDuplicate first.2
          (QueueEntry.enabled_of_comparable comparable)
        have items : (AflPlusPlus.disableDuplicate p queue).queuedItems = queue.queuedItems := by
          rw [(disableDuplicate_frame p _).rest]
        refine ih removed (by rw [items]; exact queued) ?_ (by rw [items]; exact later)
        rw [disableDuplicate_of_ne (Ne.symm first.1)]
        exact enabled
      · exact unfuzzed.disableDuplicate queued enabled
    · exact ih unfuzzed queued enabled later

theorem Unfuzzed.removeDuplicates :
    Unfuzzed (removeDuplicates queue) := by
  refine (forUpto_preserves _ _ (fun cur => Unfuzzed cur ∧
    cur.queuedItems = queue.queuedItems) _ ⟨unfuzzed, rfl⟩ ?_).1
  intro idx pre cur ongoing
  split
  · rename_i comparable
    refine ⟨ongoing.1.removeDuplicatesOf (by omega)
      (QueueEntry.enabled_of_comparable comparable) ?_, ?_⟩
    · intro p mem
      have range := List.mem_range'_1.1 mem
      omega
    · rw [(removeDuplicatesOf_frame _ _ _).rest]
      exact ongoing.2
  · exact ongoing

omit unfuzzed

theorem PopulationExact.drop (exactly : PopulationExact queue) (queued : q < queue.queuedItems)
    (enabled : (queue.queueBuf q).disabled = false)
    (unfuzzed : (queue.queueBuf q).wasFuzzed = false) :
    PopulationExact ((queue.retire q).modify q QueueEntry.disable) := by
  have retired : queue.retire q = { queue.modify q QueueEntry.noteFuzzed with
      reinitTable := true
      pendingNotFuzzed := u32Pred queue.pendingNotFuzzed
      activeItems := u32Pred queue.activeItems } := by
    unfold Queue.retire
    rw [unfuzzed]
    rfl
  rw [retired]
  refine exactly.leave queued enabled unfuzzed rfl rfl rfl ?_ ?_
  · rw [Queue.modify_self]
    rfl
  · intro e other
    rw [Queue.modify_of_ne other]
    exact Queue.modify_of_ne other

/-- A crashing seed that is to be saved has not been seen in `virgin_crash`. -/
def Afl.SeedCrashIsNew (size : WordSize) (cfg : DryRunSetup) (res : Fault) (afl : Afl) : Prop :=
  res = .crash → afl.crashMode = false → cfg.crashingSeedsAsNewCrash = true →
    afl.queue.nonInstrumentedMode = true ∨ (seedCrashNews size afl.coverage).1 ≠ 0

variable {size : WordSize}

theorem Afl.saveSeedCrash_of_new
    (news : afl.queue.nonInstrumentedMode = true ∨ (seedCrashNews size afl.coverage).1 ≠ 0) :
    (afl.saveSeedCrash size).1 = true := by
  unfold Afl.saveSeedCrash
  dsimp only
  split
  · rfl
  · rename_i instrumented
    rw [if_neg (news.resolve_left instrumented)]

private theorem settleSeed_population {cfg : DryRunSetup} {res : Fault}
    {s : DryRun} (exactly : PopulationExact s.afl.queue)
    (queued : q < s.afl.queue.queuedItems)
    (enabled : (s.afl.queue.queueBuf q).disabled = false)
    (unfuzzed : (s.afl.queue.queueBuf q).wasFuzzed = false)
    (news : s.afl.SeedCrashIsNew size cfg res) :
    Ensures (fun settled => PopulationExact settled.afl.queue) (settleSeed size cfg q res s) := by
  have dropped := exactly.drop queued enabled unfuzzed
  unfold settleSeed
  cases res with
  | ok =>
    dsimp only
    split
    · rfl
    · exact exactly
  | tmout =>
    dsimp only
    split
    · have marked : StandingFrame s.afl.queue (s.afl.queue.modify q QueueEntry.outOfChances) :=
        StandingFrame.modify s.afl.queue q QueueEntry.outOfChances rfl rfl
      exact (exactly.of_standing marked).drop queued
        ((marked.entries q queued).1.trans enabled) ((marked.entries q queued).2.trans unfuzzed)
    · split
      · rfl
      · exact dropped
  | crash =>
    dsimp only
    split
    · exact exactly
    · rename_i normal
      split
      · rfl
      · split
        · rename_i option
          have mode : (s.afl.queue.retire q).nonInstrumentedMode =
              s.afl.queue.nonInstrumentedMode := by
            unfold Queue.retire
            split <;> rfl
          have saved : ((s.afl.withQueue (s.afl.queue.retire q)).saveSeedCrash size).1 = true := by
            apply Afl.saveSeedCrash_of_new
            change (s.afl.queue.retire q).nonInstrumentedMode = true ∨ _
            rw [mode]
            exact news rfl (Bool.eq_false_of_not_eq_true normal) option
          rw [if_pos saved]
          change PopulationExact ((((s.afl.withQueue (s.afl.queue.retire q)).saveSeedCrash
            size).2.queue).modify q QueueEntry.disable)
          rw [Afl.saveSeedCrash_queue]
          exact dropped
        · exact dropped
  | error | noinst => rfl
  | nobits => exact exactly

/-- The queue's own steps, and the verdict on a seed in the dry run. -/
inductive PopulationStep where
  | queue (step : QueueStep)
  | settleSeed (cfg : DryRunSetup) (q : Nat) (res : Fault) (sayOnce : Bool)

def Afl.queueStep (trace : Nat → Buffer) (step : QueueStep) (afl : Afl) : Afl :=
  let next := AflPlusPlus.queueStep trace ⟨afl.coverage.fsrv, afl.queue⟩ step
  { afl with coverage := { afl.coverage with fsrv := next.fsrv }, queue := next.queue }

def PopulationStep.apply (size : WordSize) (trace : Nat → Buffer) :
    PopulationStep → Afl → Checked Afl
  | .queue step, afl => .ok (afl.queueStep trace step)
  | .settleSeed cfg q res sayOnce, afl => do
    let settled ← AflPlusPlus.settleSeed size cfg q res
      { DryRun.start cfg afl with sayOnce := sayOnce }
    return settled.afl

def populationStep (size : WordSize) (trace : Nat → Buffer) (s : Checked Afl)
    (step : PopulationStep) : Checked Afl :=
  s >>= step.apply size trace

/-- The condition on a step.  The dry run is over before anything is fuzzed, it
settles entries that are enabled, and a crash it saves is new.  No cull
disables an entry. -/
def PopulationStep.Keeps (size : WordSize) (afl : Afl) : PopulationStep → Prop
  | .queue .removeDuplicates => afl.queue.NoneFuzzed
  | .queue .cull => afl.queue.cullSkipped = false →
      afl.queue.CullDisablesNone afl.coverage.fsrv.mapSize
  | .queue (.abandon q _) => q < afl.queue.queuedItems
  | .queue _ => True
  | .settleSeed cfg q res _ => q < afl.queue.queuedItems ∧
      (afl.queue.queueBuf q).disabled = false ∧ (afl.queue.queueBuf q).wasFuzzed = false ∧
      afl.SeedCrashIsNew size cfg res

def populationGuard (size : WordSize) (s : Checked Afl) (step : PopulationStep) : Prop :=
  Yields (fun afl => step.Keeps size afl) s

variable (trace : Nat → Buffer)

theorem PopulationExact.queueStep (exactly : PopulationExact afl.queue) (step : QueueStep)
    (keeps : (PopulationStep.queue step).Keeps size afl) :
    PopulationExact (afl.queueStep trace step).queue := by
  cases step with
  | add len => exact exactly.addToQueue _
  | execute q => exact exactly
  | score q => exact exactly.of_standing (updateBitmapScore_frame _ q _ afl.queue).standing
  | rescore q index =>
    exact exactly.of_standing (updateBitmapRescore_frame _ q _ afl.queue).standing
  | recalculate =>
    exact exactly.of_standing (recalculateAllScores_frame _ ⟨afl.coverage.fsrv, afl.queue⟩).standing
  | removeDuplicates => exact (Unfuzzed.removeDuplicates ⟨exactly, keeps⟩).population
  | cull => exact exactly.of_standing (cullQueue_standing _ keeps)
  | abandon q stopSoon => exact exactly.abandonEntry _ q keeps
  | tighten q =>
    change PopulationExact (stampTightness q afl.queue)
    exact exactly.of_standing (StandingFrame.modify afl.queue q _ rfl rfl)
  | setScores q scores => exact exactly.of_standing (StandingFrame.modify afl.queue q _ rfl rfl)
  | setSchedule schedule fixedSeed nFuzz | nextCycle => exact ⟨exactly.active, exactly.pending⟩

theorem PopulationExact.apply
    (exactly : PopulationExact afl.queue) (step : PopulationStep) (keeps : step.Keeps size afl) :
    Ensures (fun post => PopulationExact post.queue) (step.apply size trace afl) := by
  cases step with
  | queue step => exact exactly.queueStep _ _ keeps
  | settleSeed cfg q res sayOnce =>
    obtain ⟨queued, enabled, unfuzzed, news⟩ := keeps
    exact (settleSeed_population exactly queued enabled unfuzzed news).bind
      (fun settled done => done)

theorem Queue.countOf_le (measure : QueueEntry → Bool) (queue : Queue) :
    queue.countOf measure ≤ queue.queuedItems := Nat.count_le _

/-- In every run whose steps meet the condition both counters are exact, and so
neither has wrapped around. -/
theorem population_counters_of_run (size : WordSize) (trace : Nat → Buffer) (start : Afl)
    (schedule : Schedule) (fixedSeed aflDisableRedundant : Bool)
    (empty : start.queue = Queue.empty schedule fixedSeed aflDisableRedundant)
    (steps : List PopulationStep)
    (admitted : Along (populationStep size trace) (populationGuard size) (.ok start) steps) :
    Ensures (fun afl =>
        afl.queue.activeItems = afl.queue.countOf QueueEntry.active ∧
        afl.queue.pendingNotFuzzed = afl.queue.countOf QueueEntry.toFuzz ∧
        afl.queue.activeItems ≤ afl.queue.queuedItems ∧
        afl.queue.pendingNotFuzzed ≤ afl.queue.queuedItems)
      (runFrom (populationStep size trace) (.ok start) steps) := by
  have initially : PopulationExact start.queue := by
    rw [empty]
    exact ⟨rfl, rfl⟩
  have exactly := runFrom_invariant (Ensures (fun afl : Afl => PopulationExact afl.queue)) (by
      intro s step exactly keeps
      cases s with
      | ok afl => exact PopulationExact.apply _ exactly _ keeps
      | error trap => exact exactly)
    (.ok _) initially _ admitted
  refine exactly.mono ?_
  intro afl exactly
  have active := exactly.active
  have pending := exactly.pending
  have most := afl.queue.countOf_le QueueEntry.active
  have mostPending := afl.queue.countOf_le QueueEntry.toFuzz
  exact ⟨active, pending, by omega, by omega⟩

/-- Two seeds; the first one times out in the dry run, the second one is
scored, culled and fuzzed. -/
theorem population_counters_of_run_two_seeds :
    freshCampaign.queue = Queue.empty .explore false false ∧ Ensures (fun afl =>
          afl.queue.activeItems = afl.queue.countOf QueueEntry.active ∧
          afl.queue.pendingNotFuzzed = afl.queue.countOf QueueEntry.toFuzz ∧
          afl.queue.activeItems ≤ afl.queue.queuedItems ∧
          afl.queue.pendingNotFuzzed ≤ afl.queue.queuedItems)
        (runFrom (populationStep .size64 sharedTrace) (.ok freshCampaign)
          [.queue (.add 4), .queue (.add 4), .settleSeed (timedSetup false) 0 .tmout false,
            .queue (.score 1), .queue .cull, .queue (.abandon 1 false)]) := by
  refine ⟨rfl, population_counters_of_run .size64 sharedTrace freshCampaign .explore false false
    rfl _ ?_⟩
  refine ⟨trivial, trivial, ⟨by decide, by decide, by decide, nofun⟩, trivial, ?_, ?_, trivial⟩
  · intro _ option
    exact absurd option (by decide +kernel)
  · change 1 < _
    decide +kernel

def pruningCampaign : Afl :=
  freshCampaign.withQueue (Queue.empty .explore false true)

def Afl.population (afl : Afl) : (Nat × Nat) × (Nat × Nat) :=
  ((afl.queue.activeItems, afl.queue.countOf QueueEntry.active),
    (afl.queue.pendingNotFuzzed, afl.queue.countOf QueueEntry.toFuzz))

/-- A cull disables the second seed as redundant without counting it off. -/
theorem population_counters_miss_redundant :
    (runFrom (populationStep .size64 sharedTrace) (.ok pruningCampaign)
      [.queue (.add 4), .queue (.add 4), .queue (.score 0), .queue .cull]).toOption.map
        Afl.population = some ((2, 1), (2, 1)) := by
  decide +kernel

end AflPlusPlus
