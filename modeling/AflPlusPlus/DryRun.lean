/-
The dry run over the initial queue.

The entry loop is a do-while loop whose index, a `u32`, moves at the bottom of the body,
or at its top when an old queue is resumed in place; a `continue` jumps past the bottom.
Every read of `queue_buf` is checked and put on record.  Messages, the list head and
the depth are left out: nothing here reads them.
-/

import AflPlusPlus.SaveIfInteresting

namespace AflPlusPlus

open Machine

structure DryRunSetup where
  inPlaceResume : Bool
  timeoutGiven : Bool
  exitOnSeedIssues : Bool
  ignoreSeedProblems : Bool
  crashingSeedsAsNewCrash : Bool

/-- The locals of `perform_dry_run`, and the indices it has read so far. -/
structure DryRun where
  afl : Afl
  idx : BitVec 32
  calFailures : Nat
  sayOnce : Bool
  uselessAtStart : Nat
  visited : List Nat

variable (size : WordSize) (hash64 : Buffer → BitVec 64) (cfg : DryRunSetup)
  (outs : Nat → CalOutcome)

def DryRun.start (afl : Afl) : DryRun where
  afl := afl
  idx := if cfg.inPlaceResume then BitVec.ofNat 32 afl.queue.queuedItems else 0
  calFailures := 0
  sayOnce := false
  uselessAtStart := 0
  visited := []

def Queue.retire (q : Nat) (queue : Queue) : Queue :=
  if (queue.queueBuf q).wasFuzzed then queue
  else { queue.modify q QueueEntry.noteFuzzed with
    reinitTable := true
    pendingNotFuzzed := u32Pred queue.pendingNotFuzzed
    activeItems := u32Pred queue.activeItems }

def QueueEntry.outOfChances (entry : QueueEntry) : QueueEntry :=
  { entry with calFailed := calChances }

def QueueEntry.disable (entry : QueueEntry) : QueueEntry := { entry with disabled := true }

def Afl.dropSeed (q : Nat) (afl : Afl) : Afl :=
  afl.withQueue ((afl.queue.retire q).modify q QueueEntry.disable)

def seedCrashNews (cov : Coverage) : Nat × Coverage :=
  let fsrv := classifyCounts size cov.fsrv
  hasNewBits size ({ cov with fsrv := fsrv }.withTrace
    (simplifyTrace size fsrv.mapSize fsrv.traceBits)) .crash

/-- A crashing seed that is saved as a new crash, and whether it was. -/
def Afl.saveSeedCrash (afl : Afl) : Bool × Afl :=
  let counted := { afl with totalCrashes := afl.totalCrashes + 1 }
  let saved := { counted with savedCrashes := counted.savedCrashes + 1 }
  if counted.queue.nonInstrumentedMode then (true, saved)
  else
    let news := seedCrashNews size counted.coverage
    if news.1 = 0 then (false, counted.withCoverage news.2) else (true, saved.withCoverage news.2)

def settleSeed (q : Nat) (res : Fault) (s : DryRun) : Checked DryRun :=
  match res with
  | .ok => if s.afl.crashMode then .error .aborted else .ok s
  | .tmout =>
    if cfg.timeoutGiven && !cfg.exitOnSeedIssues then
      .ok { s with
        calFailures := s.calFailures + 1
        afl := (s.afl.modifyEntry q QueueEntry.outOfChances).dropSeed q }
    else if !s.sayOnce && !cfg.ignoreSeedProblems then .error .aborted
    else .ok { s with sayOnce := true, afl := s.afl.dropSeed q }
  | .crash =>
    if s.afl.crashMode then .ok s
    else if cfg.exitOnSeedIssues then .error .aborted
    else
      let retired := s.afl.withQueue (s.afl.queue.retire q)
      if cfg.crashingSeedsAsNewCrash then
        let saved := retired.saveSeedCrash size
        if saved.1 then
          .ok { s with afl := saved.2.modifyEntry q QueueEntry.disable }
        -- `break` out of the switch before `q->disabled = 1`
        else .ok { s with afl := saved.2 }
      else .ok { s with afl := retired.modifyEntry q QueueEntry.disable }
  | .error => .error .aborted
  | .noinst => .error .aborted
  | .nobits => .ok { s with uselessAtStart := s.uselessAtStart + 1 }

def QueueEntry.skipped (entry : QueueEntry) : Bool := entry.disabled || entry.len == 0

def QueueEntry.noteFuzzEntry (entry : QueueEntry) : QueueEntry :=
  { entry with nFuzzEntry := entry.execCksum.toNat % nFuzzSize }

def Afl.noteFuzzEntry (q : Nat) (afl : Afl) : Afl :=
  let entry := afl.queue.queueBuf q
  if (afl.queue.schedule.skipsFuzzP2 || afl.queue.schedule == .rare) && entry.execCksum != 0 then
    afl.modifyEntry q QueueEntry.noteFuzzEntry
  else afl

def DryRun.advance (s : DryRun) : Jump DryRun (Bool × DryRun) :=
  if cfg.inPlaceResume then
    if s.idx = 0 then .exit (false, s) else .goto s
  else
    let moved := { s with idx := s.idx + 1 }
    if s.afl.queue.queuedItems ≤ moved.idx.toNat then .exit (false, moved) else .goto moved

def DryRun.reads (s : DryRun) : BitVec 32 :=
  if cfg.inPlaceResume then s.idx - 1 else s.idx

def DryRun.visit (s : DryRun) : DryRun :=
  { s with
    idx := s.reads cfg
    visited := s.visited ++ [(s.reads cfg).toNat] }

def DryRun.calibrate (out : CalOutcome) (q : Nat) (s : DryRun) : Fault × DryRun :=
  let call := calibrateCase size hash64 out q 0 s.afl
  (call.1, { s with afl := call.2.noteFuzzEntry q })

/-- The body for an entry that is not skipped.  The flag of a result tells a
`return` because of `stop_soon`. -/
def DryRun.takeSeed (out : CalOutcome) (q : Nat) (s : DryRun) :
    Checked (Jump DryRun (Bool × DryRun)) :=
  let called := s.calibrate size hash64 out q
  if called.2.afl.stopSoon then .ok (.exit (true, called.2))
  else
    match settleSeed size cfg q called.1 called.2 with
    | .error trap => .error trap
    | .ok settled => .ok (settled.advance cfg)

def dryRunStep (s : DryRun) : Checked (Jump DryRun (Bool × DryRun)) :=
  let q := (s.reads cfg).toNat
  if s.afl.queue.queuedItems ≤ q then .error .badAccess
  else if (s.afl.queue.queueBuf q).skipped then .ok (.goto (s.visit cfg))
  else (s.visit cfg).takeSeed size hash64 cfg (outs q) q

def dryRunLoop (fuel : Nat) (afl : Afl) : Checked (Bool × DryRun) :=
  runLabels (dryRunStep size hash64 cfg outs) fuel (DryRun.start cfg afl)

def performDryRun (fuel : Nat) (afl : Afl) : Checked Afl := do
  let looped ← dryRunLoop size hash64 cfg outs fuel afl
  if looped.1 then return looped.2.afl
  else if looped.2.calFailures ≠ 0 ∧
      looped.2.calFailures = looped.2.afl.queue.queuedItems then .error .aborted
  else return looped.2.afl.withQueue (removeDuplicates looped.2.afl.queue)

structure SeedFrame (q : Nat) (pre post : Queue) : Prop where
  items : post.queuedItems = pre.queuedItems
  others : ∀ e, e ≠ q → (post.queueBuf e).skipped = (pre.queueBuf e).skipped

theorem SeedFrame.refl (q : Nat) (queue : Queue) : SeedFrame q queue queue := ⟨rfl, fun _ _ => rfl⟩

variable {s : DryRun} {n k q : Nat}

theorem SeedFrame.trans {first second third : Queue} (left : SeedFrame q first second)
    (right : SeedFrame q second third) : SeedFrame q first third :=
  ⟨right.items.trans left.items, fun e other => (right.others e other).trans (left.others e other)⟩

theorem EntryFrame.seed {pre post : Queue} (frame : EntryFrame q pre post) :
    SeedFrame q pre post := by
  constructor
  · rw [frame.rest]
  · intro e other
    rw [frame.others e other]

theorem ContestFrame.seed {pre post : Queue} (frame : ContestFrame pre post) :
    SeedFrame q pre post := by
  constructor
  · rw [frame.rest]
  · intro e _
    rw [frame.entries e]
    rfl

theorem SeedFrame.modify (q : Nat) (queue : Queue) (change : QueueEntry → QueueEntry) :
    SeedFrame q queue (queue.modify q change) := (EntryFrame.modify q queue change).seed

variable (size : WordSize)

private theorem calibrateCase_seed (hash64 : Buffer → BitVec 64) (out : CalOutcome)
    (q : Nat) (handicap : BitVec 32) (afl : Afl) :
    SeedFrame q afl.queue (calibrateCase size hash64 out q handicap afl).2.queue := by
  rcases calibrateCase_cases size hash64 out q handicap afl with aborted | ⟨scored, _⟩
  · exact aborted.queue.seed
  · obtain ⟨_, _, own, _, last, _⟩ := scored
    exact (own.seed.trans (updateBitmapScore_frame _ q _ _).seed).trans last.seed

theorem Queue.retire_seed (q : Nat) (queue : Queue) : SeedFrame q queue (queue.retire q) := by
  unfold Queue.retire
  split
  · exact SeedFrame.refl q _
  · have marked := SeedFrame.modify q queue QueueEntry.noteFuzzed
    exact ⟨marked.items, marked.others⟩

private theorem Afl.dropSeed_seed (q : Nat) (afl : Afl) :
    SeedFrame q afl.queue (afl.dropSeed q).queue :=
  (Queue.retire_seed q afl.queue).trans (SeedFrame.modify q _ _)

private theorem Afl.noteFuzzEntry_seed (q : Nat) (afl : Afl) :
    SeedFrame q afl.queue (afl.noteFuzzEntry q).queue := by
  unfold Afl.noteFuzzEntry
  dsimp only
  split
  · exact SeedFrame.modify q afl.queue QueueEntry.noteFuzzEntry
  · exact SeedFrame.refl q afl.queue

theorem Afl.saveSeedCrash_queue (afl : Afl) :
    (afl.saveSeedCrash size).2.queue = afl.queue := by
  unfold Afl.saveSeedCrash
  dsimp only
  split
  · rfl
  · split <;> rfl

structure SettleFrame (q : Nat) (pre post : DryRun) : Prop where
  queue : SeedFrame q pre.afl.queue post.afl.queue
  idx : post.idx = pre.idx
  visited : post.visited = pre.visited

private theorem settleSeed_frame (cfg : DryRunSetup) (q : Nat) (res : Fault) (s : DryRun) :
    Ensures (SettleFrame q s) (settleSeed size cfg q res s) := by
  have kept : SeedFrame q s.afl.queue s.afl.queue := SeedFrame.refl q s.afl.queue
  unfold settleSeed
  cases res with
  | ok =>
    dsimp only
    split
    · rfl
    · exact ⟨kept, rfl, rfl⟩
  | tmout =>
    dsimp only
    split
    · have marked : SeedFrame q s.afl.queue (s.afl.modifyEntry q QueueEntry.outOfChances).queue :=
        SeedFrame.modify q s.afl.queue QueueEntry.outOfChances
      exact ⟨marked.trans (Afl.dropSeed_seed q _), rfl, rfl⟩
    · split
      · rfl
      · exact ⟨Afl.dropSeed_seed q s.afl, rfl, rfl⟩
  | crash =>
    have retired := Queue.retire_seed q s.afl.queue
    have saved := Afl.saveSeedCrash_queue size (s.afl.withQueue (s.afl.queue.retire q))
    dsimp only
    split
    · exact ⟨kept, rfl, rfl⟩
    · split
      · rfl
      · split
        · split
          · refine ⟨SeedFrame.trans ?_ (SeedFrame.modify q _ _), rfl, rfl⟩
            rw [saved]
            exact retired
          · refine ⟨?_, rfl, rfl⟩
            rw [saved]
            exact retired
        · exact ⟨retired.trans (SeedFrame.modify q _ _), rfl, rfl⟩
  | error | noinst => rfl
  | nobits => exact ⟨kept, rfl, rfl⟩

section Rounds

variable {size : WordSize} {hash64 : Buffer → BitVec 64} {cfg : DryRunSetup}
  {outs : Nat → CalOutcome}

/-- No `FATAL` ends the process and no `stop_soon` ends the loop. -/
def Undisturbed (size : WordSize) (hash64 : Buffer → BitVec 64) (cfg : DryRunSetup)
    (outs : Nat → CalOutcome) (s : DryRun) : Prop :=
  ∀ fuel, runLabels (dryRunStep size hash64 cfg outs) fuel s ≠ .error .aborted ∧
    ∀ ended, runLabels (dryRunStep size hash64 cfg outs) fuel s ≠ .ok (true, ended)

theorem Undisturbed.next {s next : DryRun} (undisturbed : Undisturbed size hash64 cfg outs s)
    (jumps : dryRunStep size hash64 cfg outs s = .ok (.goto next)) :
    Undisturbed size hash64 cfg outs next := by
  intro fuel
  have later := undisturbed (fuel + 1)
  unfold runLabels at later
  rw [jumps] at later
  exact later

theorem Undisturbed.once (undisturbed : Undisturbed size hash64 cfg outs s) :
    dryRunStep size hash64 cfg outs s ≠ .error .aborted ∧
      ∀ ended, dryRunStep size hash64 cfg outs s ≠ .ok (.exit (true, ended)) := by
  have first := undisturbed 1
  unfold runLabels at first
  constructor
  · intro aborted
    rw [aborted] at first
    exact first.1 rfl
  · intro ended stopped
    rw [stopped] at first
    exact first.2 _ rfl

private theorem dryRunStep_outside (outside : s.afl.queue.queuedItems ≤ (s.reads cfg).toNat) :
    dryRunStep size hash64 cfg outs s = .error .badAccess := if_pos outside

theorem dryRunStep_skips {s : DryRun} (inside : (s.reads cfg).toNat < s.afl.queue.queuedItems)
    (skipped : (s.afl.queue.queueBuf (s.reads cfg).toNat).skipped = true) :
    dryRunStep size hash64 cfg outs s = .ok (.goto (s.visit cfg)) :=
  (if_neg (Nat.not_le_of_lt inside)).trans (if_pos skipped)

theorem dryRunStep_settles (inside : (s.reads cfg).toNat < s.afl.queue.queuedItems)
    (taken : (s.afl.queue.queueBuf (s.reads cfg).toNat).skipped = false)
    (undisturbed : Undisturbed size hash64 cfg outs s) :
    ∃ settled : DryRun, SettleFrame (s.reads cfg).toNat (s.visit cfg) settled ∧
      dryRunStep size hash64 cfg outs s = .ok (settled.advance cfg) := by
  have once := undisturbed.once
  generalize read : (s.reads cfg).toNat = q at inside taken
  have taking : dryRunStep size hash64 cfg outs s =
      (s.visit cfg).takeSeed size hash64 cfg (outs q) q := by
    subst read
    exact (if_neg (Nat.not_le_of_lt inside)).trans
      (if_neg (by rw [taken]; exact Bool.false_ne_true))
  rw [taking] at once ⊢
  unfold DryRun.takeSeed at once ⊢
  dsimp only at once ⊢
  have calibrated : SeedFrame q (s.visit cfg).afl.queue
      ((s.visit cfg).calibrate size hash64 (outs q) q).2.afl.queue :=
    (calibrateCase_seed _ _ (outs q) q 0 s.afl).trans (Afl.noteFuzzEntry_seed q _)
  have settling := settleSeed_frame size cfg q ((s.visit cfg).calibrate size hash64 (outs q) q).1
    ((s.visit cfg).calibrate size hash64 (outs q) q).2
  split at once
  · exact absurd rfl (once.2 _)
  · rename_i goesOn
    rw [if_neg goesOn]
    cases result : settleSeed size cfg q ((s.visit cfg).calibrate size hash64 (outs q) q).1
        ((s.visit cfg).calibrate size hash64 (outs q) q).2 with
    | error trap =>
      rw [result] at once settling
      cases settling
      exact absurd rfl once.1
    | ok settled =>
      rw [result] at settling
      exact ⟨settled, ⟨calibrated.trans settling.queue, settling.idx, settling.visited⟩, rfl⟩

theorem dryRunStep_stuck (ascending : cfg.inPlaceResume = false)
    (inside : s.idx.toNat < s.afl.queue.queuedItems)
    (skipped : (s.afl.queue.queueBuf s.idx.toNat).skipped = true) (fuel : Nat) :
    runLabels (dryRunStep size hash64 cfg outs) fuel s = .error .outOfFuel := by
  have reads : ∀ cur : DryRun, cur.reads cfg = cur.idx := by
    intro cur
    unfold DryRun.reads
    rw [ascending]
    rfl
  apply @runLabels_diverges _ _ _ _ (fun cur => cur.afl = s.afl ∧ cur.idx = s.idx) ?_ ⟨rfl, rfl⟩
  rintro cur ⟨sameAfl, sameIdx⟩
  refine ⟨cur.visit _, ?_, sameAfl, (reads _).trans sameIdx⟩
  apply dryRunStep_skips
  · rw [reads, sameAfl, sameIdx]
    exact inside
  · rw [reads, sameAfl, sameIdx]
    exact skipped

/-- The loop has come to index `k` of `n`. -/
structure AscendsTo (n k : Nat) (s : DryRun) : Prop where
  items : s.afl.queue.queuedItems = n
  small : n < 2 ^ 32
  idx : s.idx.toNat = k
  visited : s.visited = List.range k

section

variable (ascending : cfg.inPlaceResume = false)

include ascending

theorem AscendsTo.step (here : AscendsTo n k s)
    (inside : k < n) (taken : (s.afl.queue.queueBuf k).skipped = false)
    (undisturbed : Undisturbed size hash64 cfg outs s) :
    ∃ next, AscendsTo n (k + 1) next ∧
      (∀ i, k < i → (next.afl.queue.queueBuf i).skipped = (s.afl.queue.queueBuf i).skipped) ∧
      dryRunStep size hash64 cfg outs s =
        .ok (if n ≤ k + 1 then .exit (false, next) else .goto next) := by
  have small := here.small
  have reads : (s.reads cfg).toNat = k := by
    unfold DryRun.reads
    rw [ascending, if_neg Bool.false_ne_true, here.idx]
  obtain ⟨settled, frame, settles⟩ := dryRunStep_settles
    (by rw [reads, here.items]; exact inside) (by rw [reads]; exact taken) undisturbed
  rw [reads] at frame
  have items : settled.afl.queue.queuedItems = n := frame.queue.items.trans here.items
  have moved : (settled.idx + 1).toNat = k + 1 := by
    have same : settled.idx = s.reads cfg := frame.idx
    rw [BitVec.toNat_add, same, reads]
    change (k + 1) % 2 ^ 32 = k + 1
    omega
  have logged : settled.visited = List.range (k + 1) := by
    rw [frame.visited]
    change s.visited ++ [(s.reads _).toNat] = _
    rw [here.visited, reads, List.range_succ]
  refine ⟨{ settled with idx := settled.idx + 1 }, ⟨items, small, moved, logged⟩, ?_, ?_⟩
  · intro i later
    exact frame.queue.others i (Nat.ne_of_gt later)
  · unfold DryRun.advance at settles
    rw [ascending] at settles
    dsimp only at settles
    rw [moved, items] at settles
    exact settles

private theorem AscendsTo.never_of_skipped (here : AscendsTo n k s) (inside : k < n)
    (skipped : (s.afl.queue.queueBuf k).skipped = true) :
    (∃ ended, Halts (dryRunStep size hash64 cfg outs) s (false, ended) ∧
        ended.visited = List.range n) ↔
      ∀ i, k ≤ i → i < n → (s.afl.queue.queueBuf i).skipped = false := by
  constructor
  · rintro ⟨ended, ⟨_, runs⟩, _⟩
    rw [dryRunStep_stuck ascending (by rw [here.idx, here.items]; exact inside)
      (by rw [here.idx]; exact skipped)] at runs
    cases runs
  · intro processed
    rw [processed k (Nat.le_refl k) inside] at skipped
    cases skipped

private theorem dryRun_ascends (remaining : Nat) (here : AscendsTo n k s)
    (rest : n = k + remaining + 1)
    (undisturbed : Undisturbed size hash64 cfg outs s) :
    (∃ ended, Halts (dryRunStep size hash64 cfg outs) s (false, ended) ∧
        ended.visited = List.range n) ↔
      ∀ i, k ≤ i → i < n → (s.afl.queue.queueBuf i).skipped = false := by
  induction remaining generalizing k s with
  | zero =>
    have inside : k < n := by omega
    cases skipped : (s.afl.queue.queueBuf k).skipped with
    | true => exact here.never_of_skipped ascending inside skipped
    | false =>
      obtain ⟨next, there, _, exits⟩ := here.step ascending inside skipped undisturbed
      rw [if_pos (by omega)] at exits
      have last : k + 1 = n := by omega
      refine ⟨fun _ => ?_, fun _ => ⟨next, Halts.of_exit exits, last ▸ there.visited⟩⟩
      intro i first pre
      rw [show i = k by omega]
      exact skipped
  | succ remaining ih =>
    have inside : k < n := by omega
    cases skipped : (s.afl.queue.queueBuf k).skipped with
    | true => exact here.never_of_skipped ascending inside skipped
    | false =>
      obtain ⟨next, there, flags, jumps⟩ := here.step ascending inside skipped undisturbed
      rw [if_neg (by omega)] at jumps
      have later := ih there (by omega) (undisturbed.next jumps)
      simp only [halts_goto_iff jumps]
      rw [later]
      constructor
      · intro processed i first pre
        by_cases same : i = k
        · rw [same]
          exact skipped
        · rw [← flags i (by omega)]
          exact processed i (by omega) pre
      · intro processed i first pre
        rw [flags i first]
        exact processed i (by omega) pre

end

structure DescendsTo (n k : Nat) (s : DryRun) : Prop where
  items : s.afl.queue.queuedItems = n
  small : n < 2 ^ 32
  inside : k < n
  idx : s.idx.toNat = k + 1
  visited : s.visited = (List.range' (k + 1) (n - (k + 1))).reverse

section

variable (descending : cfg.inPlaceResume = true)
include descending

variable (here : DescendsTo n k s)

include here

theorem DescendsTo.reads : (s.reads cfg).toNat = k := by
  have idx := here.idx
  unfold DryRun.reads
  rw [descending, if_pos rfl]
  change (2 ^ 32 - 1 + s.idx.toNat) % 2 ^ 32 = k
  omega

theorem DescendsTo.logged :
    (s.visit cfg).visited = (List.range' k (n - k)).reverse := by
  change s.visited ++ [(s.reads cfg).toNat] = _
  have inside := here.inside
  rw [here.reads descending, here.visited, show n - k = (n - (k + 1)) + 1 by omega,
    List.range'_succ, List.reverse_cons]

omit here

theorem DescendsTo.step (here : DescendsTo n (k + 1) s)
    (undisturbed : Undisturbed size hash64 cfg outs s) :
    ∃ next, DescendsTo n k next ∧ (∀ i, i ≠ k + 1 →
        (next.afl.queue.queueBuf i).skipped = (s.afl.queue.queueBuf i).skipped) ∧
      dryRunStep size hash64 cfg outs s = .ok (.goto next) := by
  have reads := here.reads descending
  have inside := here.inside
  have logged := here.logged descending
  have within : (s.reads cfg).toNat < s.afl.queue.queuedItems := by
    rw [reads, here.items]
    exact inside
  cases skipped : (s.afl.queue.queueBuf (k + 1)).skipped with
  | true =>
    refine ⟨s.visit _, ⟨here.items, here.small, by omega, reads, logged⟩, fun _ _ => rfl, ?_⟩
    exact dryRunStep_skips within (by rw [reads]; exact skipped)
  | false =>
    obtain ⟨settled, frame, settles⟩ := dryRunStep_settles within
      (by rw [reads]; exact skipped) undisturbed
    rw [reads] at frame
    have idx : settled.idx.toNat = k + 1 := by
      rw [frame.idx]
      exact reads
    refine ⟨settled, ⟨frame.queue.items.trans here.items, here.small, by omega, idx,
      frame.visited.trans logged⟩, frame.queue.others, ?_⟩
    unfold DryRun.advance at settles
    rw [descending, if_pos rfl, if_neg (by
      intro zero
      rw [zero] at idx
      cases idx)] at settles
    exact settles

include here in
private theorem dryRun_descends (undisturbed : Undisturbed size hash64 cfg outs s) :
    (∃ ended, Halts (dryRunStep size hash64 cfg outs) s (false, ended) ∧
        ended.visited = (List.range n).reverse) ↔
      (s.afl.queue.queueBuf 0).skipped = false := by
  induction k generalizing s with
  | zero =>
    have reads := here.reads descending
    have within : (s.reads cfg).toNat < s.afl.queue.queuedItems := by
      rw [reads, here.items]
      exact here.inside
    cases skipped : (s.afl.queue.queueBuf 0).skipped with
    | true =>
      -- the index wraps around below zero
      have jumps := @dryRunStep_skips size hash64 _ outs _ within (by rw [reads]; exact skipped)
      have outside : dryRunStep size hash64 cfg outs (s.visit cfg) = .error .badAccess := by
        apply dryRunStep_outside
        have small := here.small
        have zero : (s.visit cfg).idx.toNat = 0 := reads
        unfold DryRun.reads
        rw [descending, if_pos rfl, BitVec.toNat_sub, zero]
        change s.afl.queue.queuedItems ≤ (2 ^ 32 - 1 + 0) % 2 ^ 32
        rw [here.items]
        omega
      constructor
      · rintro ⟨ended, halts, _⟩
        obtain ⟨fuel, runs⟩ := (halts_goto_iff jumps).1 halts
        cases fuel with
        | zero => cases runs
        | succ fuel =>
          unfold runLabels at runs
          rw [outside] at runs
          cases runs
      · intro bad
        cases bad
    | false =>
      obtain ⟨settled, frame, settles⟩ := dryRunStep_settles within
        (by rw [reads]; exact skipped) undisturbed
      have zero : settled.idx = 0 := by
        apply BitVec.eq_of_toNat_eq
        rw [frame.idx]
        exact reads
      unfold DryRun.advance at settles
      rw [descending, if_pos zero] at settles
      refine ⟨fun _ => rfl, fun _ => ⟨settled, Halts.of_exit settles, ?_⟩⟩
      rw [frame.visited, here.logged descending, List.range_eq_range']
      rfl
  | succ k ih =>
    obtain ⟨next, there, flags, jumps⟩ := here.step descending undisturbed
    have later := ih there (undisturbed.next jumps)
    simp only [halts_goto_iff jumps]
    rw [later, flags 0 (Nat.succ_ne_zero k).symm]

end

end Rounds

def dryRunOrder (n : Nat) : List Nat :=
  if cfg.inPlaceResume then (List.range n).reverse else List.range n

def DryRunSafe (queue : Queue) : Prop :=
  if cfg.inPlaceResume then (queue.queueBuf 0).skipped = false
  else ∀ i, i < queue.queuedItems → (queue.queueBuf i).skipped = false

/-- An undisturbed dry run reads every index of the queue once, in its order,
and then ends, exactly if no skipped entry is in its way. -/
theorem dry_run_visits_in_order_iff (size : WordSize) (hash64 : Buffer → BitVec 64)
    (cfg : DryRunSetup) (outs : Nat → CalOutcome) (afl : Afl)
    (some : 1 ≤ afl.queue.queuedItems) (small : afl.queue.queuedItems < 2 ^ 32)
    (undisturbed : Undisturbed size hash64 cfg outs (DryRun.start cfg afl)) :
    (∃ fuel ended, dryRunLoop size hash64 cfg outs fuel afl = .ok (false, ended) ∧
        ended.visited = dryRunOrder cfg afl.queue.queuedItems) ↔
      DryRunSafe cfg afl.queue := by
  have halting : (∃ fuel ended, dryRunLoop size hash64 cfg outs fuel afl =
        .ok (false, ended) ∧ ended.visited = dryRunOrder cfg afl.queue.queuedItems) ↔
      ∃ ended, Halts (dryRunStep size hash64 cfg outs) (DryRun.start cfg afl)
        (false, ended) ∧ ended.visited = dryRunOrder cfg afl.queue.queuedItems := by
    constructor
    · rintro ⟨fuel, ended, runs, visited⟩
      exact ⟨ended, ⟨fuel, runs⟩, visited⟩
    · rintro ⟨ended, ⟨fuel, runs⟩, visited⟩
      exact ⟨fuel, ended, runs, visited⟩
  rw [halting]
  unfold dryRunOrder DryRunSafe
  cases resumes : cfg.inPlaceResume with
  | false =>
    have start : AscendsTo afl.queue.queuedItems 0 (DryRun.start cfg afl) := by
      refine ⟨rfl, small, ?_, rfl⟩
      unfold DryRun.start
      rw [resumes]
      rfl
    have law := dryRun_ascends resumes (afl.queue.queuedItems - 1) start (by omega) undisturbed
    exact law.trans ⟨fun processed i pre => processed i (Nat.zero_le i) pre,
      fun processed i _ pre => processed i pre⟩
  | true =>
    have start : DescendsTo afl.queue.queuedItems (afl.queue.queuedItems - 1)
        (DryRun.start cfg afl) := by
      refine ⟨rfl, small, by omega, ?_, ?_⟩
      · unfold DryRun.start
        rw [resumes]
        change (BitVec.ofNat 32 afl.queue.queuedItems).toNat = _
        rw [BitVec.toNat_ofNat]
        omega
      · rw [Nat.sub_add_cancel some, Nat.sub_self]
        rfl
    exact dryRun_descends resumes start undisturbed

def freshCampaign : Afl :=
  Afl.initial (Coverage.initial 64 64) (Queue.empty .explore false false)
    ⟨false, false, false⟩ 1000 1000

def seedCampaign (lens : List (BitVec 32)) : Afl :=
  lens.foldl (fun afl len => afl.withQueue (addToQueue len afl.queue)) freshCampaign

def timedOut : CalOutcome := ⟨fun _ => ⟨.tmout, fun _ => 0, false⟩, 500⟩

def timedSetup (inPlaceResume : Bool) : DryRunSetup := ⟨inPlaceResume, true, false, false, false⟩

/-- Going down, the loop passes an empty seed that is not the first one. -/
theorem dry_run_visits_in_order_iff_three_seeds :
    DryRunSafe (timedSetup true) (seedCampaign [4, 0, 2]).queue ∧
      ∃ fuel ended, dryRunLoop .size64 (fun _ => 1) (timedSetup true) (fun _ => timedOut) fuel
        (seedCampaign [4, 0, 2]) = .ok (false, ended) ∧ ended.visited = [2, 1, 0] := by
  have ends : (dryRunLoop .size64 (fun _ => 1) (timedSetup true) (fun _ => timedOut) 3
      (seedCampaign [4, 0, 2]) matches .ok (false, _)) = true := by
    decide +kernel
  have undisturbed : Undisturbed .size64 (fun _ => 1) (timedSetup true) (fun _ => timedOut)
      (DryRun.start (timedSetup true) (seedCampaign [4, 0, 2])) := by
    intro fuel
    split at ends
    · rename_i ended runs
      rcases Halts.settled ⟨3, runs⟩ fuel with waits | done
      · rw [waits]
        exact ⟨fun bad => (nomatch bad), fun _ bad => nomatch bad⟩
      · rw [done]
        exact ⟨fun bad => (nomatch bad), fun _ bad => nomatch bad⟩
    · cases ends
  exact ⟨rfl, (dry_run_visits_in_order_iff .size64 (fun _ => 1) (timedSetup true)
    (fun _ => timedOut) (seedCampaign [4, 0, 2]) (by decide) (by decide) undisturbed).2 rfl⟩

/-- A seed of length 0: going up, the loop reads it forever; going down, the
index wraps around and `queue_buf` is read far outside. -/
theorem dry_run_caught_by_empty_seed :
    (∀ fuel, dryRunLoop .size64 (fun _ => 1) (timedSetup false) (fun _ => timedOut) fuel
        (seedCampaign [0]) = .error .outOfFuel) ∧
      (dryRunLoop .size64 (fun _ => 1) (timedSetup true) (fun _ => timedOut) 2
        (seedCampaign [0]) matches .error .badAccess) = true := by
  constructor
  · intro fuel
    exact dryRunStep_stuck rfl (by decide) (by decide) fuel
  · decide +kernel

end AflPlusPlus
