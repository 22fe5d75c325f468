/-
Which entries are allowed to win.

`fuzz_one` gives up an entry whose calibration fails, and then leaves `smallest_favored` as
it is.  Scoring follows a calibration that succeeded; `recalculate_all_scores` scores every
enabled entry.
-/

import AflPlusPlus.DryRun
import AflPlusPlus.QueueOwners
import AflPlusPlus.Trim

namespace AflPlusPlus

open Machine

/-- `we cannot mix non-AFLfast schedules with others` -/
def Schedule.next : Schedule → Schedule
  | .explore => .exploit
  | .exploit => .mmopt
  | .mmopt => .seek
  | .seek => .explore
  | .fast => .coe
  | .coe => .lin
  | .lin => .quad
  | .quad => .rare
  | .rare => .fast

def cycleSchedules (execute : Nat → Buffer) (afl : Afl) : Afl :=
  let s := recalculateAllScores execute
    ⟨afl.coverage.fsrv, { afl.queue with schedule := afl.queue.schedule.next }⟩
  { afl with coverage := { afl.coverage with fsrv := s.fsrv }, queue := s.queue }

variable (size : WordSize) (hash64 : Buffer → BitVec 64)

/-- The calibration of `queue_cur` in `fuzz_one`, which is tried again as long
as there are chances.  The flag tells a jump to `abandon_entry`; there is no
answer when the fuzzer exits. -/
def fuzzOneCalibrate (out : CalOutcome) (q : Nat) (afl : Afl) : Option (Bool × Afl) :=
  let calFailed := (afl.queue.queueBuf q).calFailed
  if calFailed = 0 then some (false, afl)
  else if calFailed < calChances then
    let call := calibrateCase size hash64 out q ((afl.queue.queueCycle - 1).setWidth 32)
      (afl.modifyEntry q (QueueEntry.withCksum 0))
    if call.1 = .error then none
    else some (call.2.stopSoon || call.1 != call.2.expected, call.2)
  else some (afl.stopSoon || .tmout != afl.expected, afl)

/-- `fuzz_one` up to the end of its calibration section, with `abandon_entry`
when it gives up there. -/
def fuzzOneStart (out : CalOutcome) (q : Nat) (afl : Afl) : Afl :=
  match fuzzOneCalibrate size hash64 out q afl with
  | none => afl
  | some (false, post) => post
  | some (true, post) => post.withQueue (abandonEntry post.stopSoon q post.queue)

/-- A round of the loop of `perform_dry_run` for the seed `q`.  A `FATAL` ends
the process, and nothing is made of the queue any more. -/
def calibrateSeed (cfg : DryRunSetup) (sayOnce : Bool) (out : CalOutcome) (q : Nat)
    (afl : Afl) : Afl :=
  let s := { DryRun.start cfg afl with sayOnce := sayOnce }
  match s.takeSeed size hash64 cfg out q with
  | .error _ => afl
  | .ok (.goto next) => next.afl
  | .ok (.exit ended) => ended.2.afl

/-- A new find gets its checksum before it is calibrated; a seed has none. -/
inductive FuzzStep where
  | add (len : BitVec 32) (cksum : BitVec 64)
  | calibrate (q : Nat) (out : CalOutcome) (handicap : BitVec 32)
  | calibrateSeed (q : Nat) (out : CalOutcome) (cfg : DryRunSetup) (sayOnce : Bool)
  | removeDuplicates
  | fuzzOne (q : Nat) (out : CalOutcome)
  | abandon (q : Nat)
  | trim (q : Nat) (runs : Nat → TargetRun)
  | cycleSchedules (execute : Nat → Buffer)
  | cull

def fuzzStep (afl : Afl) : FuzzStep → Afl
  | .add len cksum =>
    (afl.withQueue (addToQueue len afl.queue)).modifyEntry afl.queue.queuedItems
      (QueueEntry.withCksum cksum)
  | .calibrate q out handicap => (calibrateCase size hash64 out q handicap afl).2
  | .calibrateSeed q out cfg sayOnce =>
    AflPlusPlus.calibrateSeed size hash64 cfg sayOnce out q afl
  | .removeDuplicates => afl.withQueue (AflPlusPlus.removeDuplicates afl.queue)
  | .fuzzOne q out => fuzzOneStart size hash64 out q afl
  | .abandon q => afl.withQueue (abandonEntry afl.stopSoon q afl.queue)
  | .trim q runs => (trimCase size hash64 runs q afl).2
  | .cycleSchedules execute => AflPlusPlus.cycleSchedules execute afl
  | .cull => afl.withQueue (cullQueue afl.coverage.fsrv afl.queue)

/-- The condition on a step.  The callers of `calibrate_case` calibrate an
entry only until it has worked once.  An entry is trimmed after its
calibration, or without success; and when the schedules cycle, every entry
that is about to be scored anew has been calibrated. -/
def CalibrationGuard (afl : Afl) : FuzzStep → Prop
  | .calibrate q _ _ | .calibrateSeed q _ _ _ =>
    q < afl.queue.queuedItems ∧ ¬ (afl.queue.queueBuf q).Calibrated
  | .fuzzOne q _ | .abandon q => q < afl.queue.queuedItems
  | .trim q runs => q < afl.queue.queuedItems ∧
      ((afl.queue.queueBuf q).Calibrated ∨ ¬ TrimMatch size hash64 runs q afl)
  | .cycleSchedules _ => ∀ q, afl.queue.Unscored q → (afl.queue.queueBuf q).Calibrated
  | _ => True

def Queue.Proven (queue : Queue) (q : Nat) : Prop :=
  q < queue.queuedItems ∧ (queue.queueBuf q).Calibrated

structure OnlyCalibrated (queue : Queue) : Prop where
  owners : queue.OwnersIn (fun q _ => queue.Proven q)
  smallest : ∀ q : Nat, queue.smallestFavored = (q : Int) → queue.Proven q

variable {q : Nat} {afl : Afl}

section Invariant

variable {pre post : Queue} (only : OnlyCalibrated pre)

include only in
theorem OnlyCalibrated.of_kept (kept : ∀ q, pre.Proven q → post.Proven q)
    (slots : post.topRated = pre.topRated)
    (lists : post.topRatedCandidates = pre.topRatedCandidates)
    (named : ∀ q : Nat, post.smallestFavored = (q : Int) →
      pre.smallestFavored = (q : Int) ∨ ∃ i, pre.topRated i = some q) :
    OnlyCalibrated post where
  owners := (only.owners.mono (fun q _ proven => kept q proven)).of_same slots lists
  smallest := by
    intro q here
    apply kept q
    rcases named q here with old | ⟨i, held⟩
    · exact only.smallest q old
    · exact only.owners.winners i q held

theorem Queue.Proven.of_calibrated (proven : pre.Proven q)
    (items : post.queuedItems = pre.queuedItems)
    (calibrated : (pre.queueBuf q).Calibrated → (post.queueBuf q).Calibrated) :
    post.Proven q := by
  unfold Queue.Proven
  rw [items]
  exact ⟨proven.1, calibrated proven.2⟩

include only

theorem OnlyCalibrated.entry (frame : EntryFrame q pre post)
    (own : (pre.queueBuf q).Calibrated → (post.queueBuf q).Calibrated) :
    OnlyCalibrated post := by
  apply only.of_kept
  · intro e proven
    apply proven.of_calibrated
    · rw [frame.rest]
    · intro calibrated
      by_cases same : e = q
      · rw [same] at calibrated ⊢
        exact own calibrated
      · rw [frame.others e same]
        exact calibrated
  · rw [frame.rest]
  · rw [frame.rest]
  · intro e here
    rw [frame.rest] at here
    exact .inl here

theorem OnlyCalibrated.score (proven : pre.Proven q) (fsrv : Fsrv) (haveTrace : Bool) :
    OnlyCalibrated (updateBitmapScore fsrv q haveTrace pre) := by
  have frame := updateBitmapScore_frame fsrv q haveTrace pre
  have kept : ∀ e, pre.Proven e → (updateBitmapScore fsrv q haveTrace pre).Proven e := by
    intro e old
    apply old.of_calibrated
    · rw [frame.rest]
    · exact (updateBitmapScore_calibrated _ q _ _ e).2
  constructor
  · apply (only.owners.updateBitmapScore _ q _ (fun _ _ => proven)).mono
    intro e _ old
    exact kept e old
  · intro e here
    rw [frame.rest] at here
    exact kept e (only.smallest e here)

omit only

theorem OnlyCalibrated.calibrateCase (only : OnlyCalibrated afl.queue) (size : WordSize)
    (hash64 : Buffer → BitVec 64) (out : CalOutcome) (handicap : BitVec 32)
    (queued : q < afl.queue.queuedItems) (fresh : ¬ (afl.queue.queueBuf q).Calibrated) :
    OnlyCalibrated (calibrateCase size hash64 out q handicap afl).2.queue := by
  rcases calibrateCase_cases size hash64 out q handicap afl with aborted | ⟨scored, _⟩
  · exact only.entry aborted.queue (fun calibrated => absurd calibrated fresh)
  · obtain ⟨fsrv, measured, own, calibrated, last, post⟩ := scored
    have proven : measured.Proven q := by
      rw [own.rest]
      exact ⟨queued, calibrated⟩
    have winner := (only.entry own (fun _ => calibrated)).score proven fsrv true
    exact winner.entry last (fun _ => post)

include only in
theorem OnlyCalibrated.removeDuplicates : OnlyCalibrated (removeDuplicates pre) := by
  have frame := removeDuplicates_frame pre
  apply only.of_kept
  · intro e proven
    apply proven.of_calibrated
    · rw [frame.rest]
    · rw [frame.entries e]
      exact fun calibrated => calibrated
  · rw [frame.rest]
  · rw [frame.rest]
  · intro e here
    rw [frame.rest] at here
    exact .inl here

include only in
private theorem OnlyCalibrated.retire (q : Nat) : OnlyCalibrated (pre.retire q) := by
  unfold Queue.retire
  split
  · exact only
  · have marked := only.entry (EntryFrame.modify q pre QueueEntry.noteFuzzed) (by
      rw [Queue.modify_self]
      exact fun calibrated => calibrated)
    exact marked.of_kept (fun _ proven => proven) rfl rfl (fun _ here => .inl here)

include only in
private theorem OnlyCalibrated.disable (q : Nat) :
    OnlyCalibrated (pre.modify q QueueEntry.disable) := by
  apply only.entry (EntryFrame.modify q pre QueueEntry.disable)
  rw [Queue.modify_self]
  exact fun calibrated => calibrated

private theorem settleSeed_onlyCalibrated (size : WordSize) (cfg : DryRunSetup) {res : Fault}
    {s : DryRun} (only : OnlyCalibrated s.afl.queue)
    (late : res = .tmout → OnlyCalibrated (s.afl.queue.modify q QueueEntry.outOfChances)) :
    Ensures (fun settled => OnlyCalibrated settled.afl.queue) (settleSeed size cfg q res s) := by
  unfold settleSeed
  cases res with
  | ok =>
    dsimp only
    split
    · rfl
    · exact only
  | tmout =>
    dsimp only
    split
    · exact ((late rfl).retire q).disable q
    · split
      · rfl
      · exact (only.retire q).disable q
  | crash =>
    have retired := only.retire q
    have saved := Afl.saveSeedCrash_queue size (s.afl.withQueue (s.afl.queue.retire q))
    dsimp only
    split
    · exact only
    · split
      · rfl
      · split
        · have kept : OnlyCalibrated ((s.afl.withQueue
              (s.afl.queue.retire q)).saveSeedCrash size).2.queue := by
            rw [saved]
            exact retired
          split
          · exact kept.disable q
          · exact kept
        · exact retired.disable q
  | error | noinst => rfl
  | nobits => exact only

private theorem noteFuzzEntry_frame (q : Nat) (afl : Afl) :
    EntryFrame q afl.queue (afl.noteFuzzEntry q).queue ∧
      (((afl.noteFuzzEntry q).queue.queueBuf q).Calibrated ↔
        (afl.queue.queueBuf q).Calibrated) := by
  unfold Afl.noteFuzzEntry
  dsimp only
  split
  · refine ⟨EntryFrame.modify q afl.queue QueueEntry.noteFuzzEntry, ?_⟩
    change ((afl.queue.modify q QueueEntry.noteFuzzEntry).queueBuf q).Calibrated ↔ _
    rw [Queue.modify_self]
    rfl
  · exact ⟨EntryFrame.refl q _, Iff.rfl⟩

private theorem OnlyCalibrated.takeSeed {s : DryRun} (only : OnlyCalibrated s.afl.queue)
    (size : WordSize) (hash64 : Buffer → BitVec 64) (cfg : DryRunSetup) (out : CalOutcome)
    (queued : q < s.afl.queue.queuedItems)
    (fresh : ¬ (s.afl.queue.queueBuf q).Calibrated) :
    Ensures (fun jump => match jump with
      | .goto next => OnlyCalibrated next.afl.queue
      | .exit ended => OnlyCalibrated ended.2.afl.queue)
      (s.takeSeed size hash64 cfg out q) := by
  have note := noteFuzzEntry_frame q (AflPlusPlus.calibrateCase size hash64 out q 0 s.afl).2
  have called : OnlyCalibrated (s.calibrate size hash64 out q).2.afl.queue :=
    (only.calibrateCase size hash64 out 0 queued fresh).entry note.1 note.2.2
  have late : (s.calibrate size hash64 out q).1 = .tmout → OnlyCalibrated
      ((s.calibrate size hash64 out q).2.afl.queue.modify q QueueEntry.outOfChances) := by
    intro timeout
    rcases calibrateCase_cases size hash64 out q 0 s.afl with aborted | scored
    · -- a seed that timed out was not calibrated before either
      exact only.entry ((aborted.queue.trans note.1).trans (EntryFrame.modify q _ _))
        (fun old => absurd old fresh)
    · exact absurd timeout scored.2
  have settling := settleSeed_onlyCalibrated size cfg called late
  unfold DryRun.takeSeed
  dsimp only
  split
  · exact called
  · cases result : settleSeed size cfg q (s.calibrate size hash64 out q).1
        (s.calibrate size hash64 out q).2 with
    | error trap =>
      rw [result] at settling
      exact settling
    | ok settled =>
      rw [result] at settling
      change match settled.advance cfg with
        | .goto next => OnlyCalibrated next.afl.queue
        | .exit ended => OnlyCalibrated ended.2.afl.queue
      unfold DryRun.advance
      cases cfg.inPlaceResume with
      | true =>
        dsimp only
        split_ifs <;> exact settling
      | false =>
        dsimp only
        split_ifs <;> exact settling

private theorem OnlyCalibrated.calibrateSeed (only : OnlyCalibrated afl.queue) (size : WordSize)
    (hash64 : Buffer → BitVec 64) (cfg : DryRunSetup) (sayOnce : Bool) (out : CalOutcome)
    (queued : q < afl.queue.queuedItems) (fresh : ¬ (afl.queue.queueBuf q).Calibrated) :
    OnlyCalibrated (calibrateSeed size hash64 cfg sayOnce out q afl).queue := by
  have started : OnlyCalibrated
      { DryRun.start cfg afl with sayOnce := sayOnce : DryRun }.afl.queue := only
  have taken := started.takeSeed size hash64 cfg out queued fresh
  unfold AflPlusPlus.calibrateSeed
  dsimp only
  split
  · exact only
  · rename_i next jumps
    rw [jumps] at taken
    exact taken
  · rename_i ended exits
    rw [exits] at taken
    exact taken

include only in
theorem OnlyCalibrated.abandonEntry (stopSoon : Bool) (q : Nat) :
    OnlyCalibrated (abandonEntry stopSoon q pre) := by
  have rest := abandonEntry_rest stopSoon q pre
  apply only.of_kept
  · intro e proven
    apply proven.of_calibrated
    · rw [rest]
    · rw [abandonEntry_entries _ q _ e]
      exact fun calibrated => calibrated
  · rw [rest]
  · rw [rest]
  · intro e here
    rcases abandonEntry_smallest stopSoon q pre with same | cleared
    · rw [same] at here
      exact .inl here
    · rw [cleared] at here
      cases here

private theorem OnlyCalibrated.fuzzOneStart (only : OnlyCalibrated afl.queue) (size : WordSize)
    (hash64 : Buffer → BitVec 64) (out : CalOutcome) (queued : q < afl.queue.queuedItems) :
    OnlyCalibrated (fuzzOneStart size hash64 out q afl).queue := by
  have section_ : ∀ abandoned later,
      fuzzOneCalibrate size hash64 out q afl = some (abandoned, later) →
      OnlyCalibrated later.queue := by
    intro abandoned later answer
    unfold fuzzOneCalibrate at answer
    dsimp only at answer
    split at answer
    · cases answer
      exact only
    · rename_i failed
      have entry := Queue.modify_self afl.queue q (QueueEntry.withCksum 0)
      split at answer
      · split at answer
        · cases answer
        · cases answer
          refine OnlyCalibrated.calibrateCase ?_ _ _ _ _ queued ?_
          · exact only.entry (EntryFrame.modify q afl.queue (QueueEntry.withCksum 0)) (by
              intro calibrated
              exact absurd calibrated.1 failed)
          · change ¬ ((afl.queue.modify q (QueueEntry.withCksum 0)).queueBuf q).Calibrated
            rw [entry]
            intro calibrated
            exact failed calibrated.1
      · cases answer
        exact only
  unfold AflPlusPlus.fuzzOneStart
  split
  · exact only
  · rename_i later answer
    exact section_ _ _ answer
  · rename_i later answer
    exact (section_ _ _ answer).abandonEntry _ _

theorem OnlyCalibrated.trimCase (only : OnlyCalibrated afl.queue) (size : WordSize)
    (hash64 : Buffer → BitVec 64) (runs : Nat → TargetRun) (queued : q < afl.queue.queuedItems)
    (ready : (afl.queue.queueBuf q).Calibrated ∨ ¬ TrimMatch size hash64 runs q afl) :
    OnlyCalibrated (trimCase size hash64 runs q afl).2.queue := by
  have shortened : ∀ trimmed, TrimFrame q afl trimmed → OnlyCalibrated trimmed.queue ∧
      ((afl.queue.queueBuf q).Calibrated → trimmed.queue.Proven q) := by
    intro trimmed frame
    have own : (afl.queue.queueBuf q).Calibrated → (trimmed.queue.queueBuf q).Calibrated := by
      rw [frame.entry]
      exact fun calibrated => calibrated
    refine ⟨only.entry frame.queue own, ?_⟩
    intro calibrated
    rw [frame.queue.rest]
    exact ⟨queued, own calibrated⟩
  rcases trimCase_cases size hash64 runs q afl with unscored | ⟨matched, _, trimmed, frame, _, same⟩
  · exact (shortened _ unscored).1
  · rcases ready with calibrated | mismatch
    · rw [same]
      exact (shortened _ frame).1.score ((shortened _ frame).2 calibrated) _ _
    · exact absurd matched mismatch

include only

private theorem OnlyCalibrated.recalculate (fsrv : Fsrv)
    (execute : Nat → Buffer) (ready : ∀ q, pre.Unscored q → (pre.queueBuf q).Calibrated) :
    OnlyCalibrated (recalculateAllScores execute ⟨fsrv, pre⟩).queue := by
  have frame := recalculateAllScores_frame execute ⟨fsrv, pre⟩
  have kept : ∀ e, pre.Proven e → (recalculateAllScores execute ⟨fsrv, pre⟩).queue.Proven e := by
    intro e old
    apply old.of_calibrated
    · rw [frame.rest]
    · rw [frame.entries e]
      exact fun calibrated => calibrated
  constructor
  · refine Queue.OwnersIn.mono (Queue.OwnersIn.recalculate ⟨fsrv, pre⟩ only.owners ?_)
      (fun e _ old => kept e old)
    intro id _ unscored _
    exact ⟨unscored.2.1, ready id unscored⟩
  · intro e here
    rw [frame.rest] at here
    exact kept e (only.smallest e here)

theorem OnlyCalibrated.cull (fsrv : Fsrv) :
    OnlyCalibrated (cullQueue fsrv pre) := by
  apply only.of_kept
  · intro e proven
    apply proven.of_calibrated (cullQueue_queuedItems _ _)
    rw [cullQueue_entries _ _ e]
    exact fun calibrated => calibrated
  · exact cullQueue_topRated _ _
  · rw [(cullQueue_frame _ _).rest]
  · exact cullQueue_smallest _ _

omit only

theorem OnlyCalibrated.add (only : OnlyCalibrated pre) (len : BitVec 32) (cksum : BitVec 64) :
    OnlyCalibrated ((addToQueue len pre).modify pre.queuedItems (QueueEntry.withCksum cksum)) := by
  apply only.of_kept
  · intro e proven
    have old : e ≠ pre.queuedItems := Nat.ne_of_lt proven.1
    refine ⟨Nat.lt_succ_of_lt proven.1, ?_⟩
    rw [Queue.modify_of_ne old]
    change ((pre.modify pre.queuedItems (fun _ => QueueEntry.added len)).queueBuf e).Calibrated
    rw [Queue.modify_of_ne old]
    exact proven.2
  · rfl
  · rfl
  · exact fun e here => .inl here

end Invariant

private theorem fuzzStep_onlyCalibrated (afl : Afl) (step : FuzzStep)
    (only : OnlyCalibrated afl.queue)
    (guard : CalibrationGuard size hash64 afl step) :
    OnlyCalibrated (fuzzStep size hash64 afl step).queue := by
  cases step with
  | add len cksum => exact only.add _ _
  | calibrate q out handicap =>
    exact only.calibrateCase _ _ _ _ guard.1 guard.2
  | calibrateSeed q out cfg sayOnce =>
    exact only.calibrateSeed _ _ _ _ _ guard.1 guard.2
  | removeDuplicates => exact only.removeDuplicates
  | fuzzOne q out => exact only.fuzzOneStart _ _ _ guard
  | abandon q => exact only.abandonEntry afl.stopSoon q
  | trim q runs => exact only.trimCase _ _ _ guard.1 guard.2
  | cycleSchedules execute =>
    have scheduled : OnlyCalibrated { afl.queue with schedule := afl.queue.schedule.next } :=
      only.of_kept (fun _ proven => proven) rfl rfl (fun _ here => .inl here)
    exact scheduled.recalculate afl.coverage.fsrv _ guard
  | cull => exact only.cull afl.coverage.fsrv

private theorem cycleSchedules_admitted_of_single {size : WordSize} {hash64 : Buffer → BitVec 64}
    {afl : Afl} {out : CalOutcome} {handicap : BitVec 32} {execute : Nat → Buffer}
    (single : afl.queue.queuedItems = 1) (orderly : ∀ k, (out.runs k).Orderly afl) :
    CalibrationGuard size hash64 (fuzzStep size hash64 afl (.calibrate 0 out handicap))
      (.cycleSchedules execute) := by
  intro q unscored
  have below := unscored.2.1
  change q < (calibrateCase size hash64 out 0 handicap afl).2.queue.queuedItems at below
  rw [calibrateCase_rest, single, Nat.lt_one_iff] at below
  rw [below]
  exact calibrateCase_calibrated _ _ _ 0 _ _ orderly

def steadyOutcome : CalOutcome :=
  ⟨fun _ => ⟨.ok, fun i => if i = 0 then 1 else 0, false⟩, 500⟩

private theorem steadyOutcome_orderly (k : Nat) : (steadyOutcome.runs k).Orderly
    (fuzzStep .size64 (fun _ => 1) freshCampaign (.add 4 1)) := by
  refine ⟨rfl, rfl, .inr ?_⟩
  change countBytes ⟨fun _ => 0, 64, 64⟩ (fun i => if i = 0 then 1 else 0) ≠ 0
  decide

def steadyCampaign : List FuzzStep :=
  [.add 4 1, .calibrate 0 steadyOutcome 0,
    .cycleSchedules (fun _ i => if i = 0 then 1 else 0), .cull]

/-- In every run whose steps meet the condition, every winner has been
calibrated, and `fuzz_one` does not give up the entry that `smallest_favored`
names for a failed calibration. -/
theorem winners_calibrated_of_run (size : WordSize) (hash64 : Buffer → BitVec 64) (start : Afl)
    (schedule : Schedule) (fixedSeed aflDisableRedundant : Bool)
    (fresh : start.queue = Queue.empty schedule fixedSeed aflDisableRedundant)
    (steps : List FuzzStep)
    (admitted : Along (fuzzStep size hash64) (CalibrationGuard size hash64) start steps) :
    let post := runFrom (fuzzStep size hash64) start steps
    (∀ i winner, post.queue.topRated i = some winner →
      (post.queue.queueBuf winner).execUs ≠ 0 ∧ (post.queue.queueBuf winner).calFailed = 0) ∧
    ∀ q : Nat, post.queue.smallestFavored = (q : Int) → ∀ out,
      fuzzOneCalibrate size hash64 out q post = some (false, post) := by
  intro post
  have initially : OnlyCalibrated start.queue := by
    rw [fresh]
    constructor
    · constructor
      · intro i winner bad
        cases bad
      · intro i list bad
        cases bad
    · intro q bad
      cases bad
  have only : OnlyCalibrated post.queue :=
    runFrom_invariant (fun afl => OnlyCalibrated afl.queue) (fuzzStep_onlyCalibrated _ _)
      _ initially _ admitted
  constructor
  · intro i winner held
    have calibrated := (only.owners.winners i _ held).2
    exact ⟨calibrated.2, calibrated.1⟩
  · intro q named out
    unfold fuzzOneCalibrate
    rw [if_pos (only.smallest q named).2.1]

theorem winners_calibrated_of_run_one_find :
    Along (fuzzStep .size64 (fun _ => 1)) (CalibrationGuard .size64 (fun _ => 1)) freshCampaign
        steadyCampaign ∧
      let post := runFrom (fuzzStep .size64 (fun _ => 1)) freshCampaign steadyCampaign
      ∀ i winner, post.queue.topRated i = some winner →
        (post.queue.queueBuf winner).execUs ≠ 0 ∧ (post.queue.queueBuf winner).calFailed = 0 := by
  have admitted : Along (fuzzStep .size64 (fun _ => 1)) (CalibrationGuard .size64 (fun _ => 1))
      freshCampaign steadyCampaign := by
    refine ⟨trivial, ⟨?_, ?_⟩, ?_, trivial, trivial⟩
    · decide
    · intro calibrated
      exact calibrated.2 (by decide)
    · exact cycleSchedules_admitted_of_single rfl steadyOutcome_orderly
  exact ⟨admitted, (winners_calibrated_of_run .size64 (fun _ => 1) freshCampaign .explore false
    false rfl steadyCampaign admitted).1⟩

/-- The calibration of a find times out.  When the schedules cycle, the find
wins slot 0 with a speed of zero; the cull makes it `smallest_favored`, and
`fuzz_one` gives it up without naming another entry. -/
theorem winner_never_calibrated :
    let post := runFrom (fuzzStep .size64 (fun _ => 1)) freshCampaign
      [.add 4 1, .calibrate 0 timedOut 0,
        .cycleSchedules (fun _ i => if i = 0 then 1 else 0), .cull]
    post.queue.topRated 0 = some 0 ∧ (post.queue.queueBuf 0).execUs = 0 ∧
      (post.queue.queueBuf 0).calFailed = 1 ∧ post.queue.smallestFavored = 0 ∧
      (fuzzOneCalibrate .size64 (fun _ => 1) timedOut 0 post).map Prod.fst = some true ∧
      (fuzzOneStart .size64 (fun _ => 1) timedOut 0 post).queue.smallestFavored = 0 := by
  decide +kernel

end AflPlusPlus
