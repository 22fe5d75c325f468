/-
How often one call saves an input.

Away from the timeout case every block leads forward, so a call queues an input
at most once.  The timeout case may jump back to `save_to_queue` with the fault
still a timeout, and then comes by a second time.
-/

import AflPlusPlus.SaveBlocks

namespace AflPlusPlus

open Machine
open Machine.LaneWord

variable {timeouts : Nat} {point : SavePoint} {res : SaveResult}

section Calls

variable (v : SkimVariant) (hash64 : Buffer → BitVec 64) (hash32 : Buffer → BitVec 32)
variable (outs : SaveOutcomes)

section

variable (point : SavePoint)

theorem halts_keepAsCrash (here : point.label = .keepAsCrash) :
    ∃ res, Halts (saveStep v hash64 hash32 outs) point res ∧ Saved 0 0 point.afl res.afl := by
  obtain ⟨res, exits, saved⟩ := saveCrash_exits v point
  refine ⟨res, Halts.of_exit ?_, saved⟩
  unfold saveStep
  rw [here, ← exits]

theorem halts_maySaveFault (here : point.label = .maySaveFault) (other : point.fault ≠ .tmout) :
    ∃ res, Halts (saveStep v hash64 hash32 outs) point res ∧ Saved 0 0 point.afl res.afl := by
  have step : saveStep v hash64 hash32 outs point = .ok (maySaveFault v outs point) := by
    unfold saveStep
    rw [here]
  unfold maySaveFault at step
  cases fault : point.fault with
  | tmout => exact absurd fault other
  | crash =>
    rw [fault] at step
    obtain ⟨res, halts, saved⟩ := halts_keepAsCrash v hash64 hash32 outs
      { point with label := .keepAsCrash } rfl
    exact ⟨res, (halts_goto_iff step).2 halts, saved⟩
  | ok | error | noinst | nobits =>
    rw [fault] at step
    exact ⟨_, Halts.of_exit step, rfl, rfl⟩

private theorem halts_saveToQueue (here : point.label = .saveToQueue)
    (other : point.fault ≠ .tmout) (aligned : 64 ∣ point.afl.coverage.fsrv.mapSize) :
    ∃ res, Halts (saveStep v hash64 hash32 outs) point res ∧ Saved 1 0 point.afl res.afl := by
  have step := saveStep_saveToQueue v hash64 hash32 outs _ here
  obtain ⟨post, frame, items, ending⟩ := saveToQueue_cases v hash64 outs point aligned
  have queued : Saved 1 0 point.afl post := frame.saved items
  rcases ending with ⟨dies, _⟩ | ⟨next, jumps, label, fault, _, same⟩
  · exact ⟨_, Halts.of_exit (step.trans dies), queued⟩
  · obtain ⟨res, halts, saved⟩ := halts_maySaveFault v hash64 hash32 outs next label
      (by rw [fault]; exact other)
    rw [same] at saved
    exact ⟨res, (halts_goto_iff (step.trans jumps)).2 halts, queued.trans saved⟩

private theorem halts_hang (here : point.label = .maySaveFault)
    (times : point.fault = .tmout) (stays : ¬ HangJumps v outs point) :
    ∃ res, Halts (saveStep v hash64 hash32 outs) point res ∧ Saved 0 1 point.afl res.afl := by
  have step := saveStep_hang v hash64 hash32 outs _ here times
  rcases saveHang_of_not_jumps v outs point stays with
    ⟨res, exits, saved⟩ | ⟨next, jumps, label, saved⟩
  · rw [exits] at step
    exact ⟨res, Halts.of_exit step, saved⟩
  · rw [jumps] at step
    obtain ⟨res, halts, rest⟩ := halts_keepAsCrash v hash64 hash32 outs next label
    exact ⟨res, (halts_goto_iff step).2 halts, saved.trans rest⟩

def SavePoint.Late (timeouts : Nat) (point : SavePoint) : Prop :=
  timeouts ≤ point.afl.totalTmouts ∧
    (point.label = .keepAsCrash ∨ 64 ∣ point.afl.coverage.fsrv.mapSize)

def StaysLate (timeouts : Nat) : Jump SavePoint SaveResult → Prop
  | .goto next => next.Late timeouts
  | .exit res => timeouts ≤ res.afl.totalTmouts

theorem Saved.late {inputs counted : Nat} {pre post : Afl}
    (saved : Saved inputs counted pre post) (late : timeouts ≤ pre.totalTmouts) :
    timeouts ≤ post.totalTmouts := by
  rw [saved.tmouts]
  exact Nat.le_add_right_of_le late

theorem saveHang_late (aligned : 64 ∣ point.afl.coverage.fsrv.mapSize) :
    StaysLate (point.afl.totalTmouts + 1) (saveHang v outs point) := by
  by_cases jumps : HangJumps v outs point
  · obtain ⟨next, goes, _, _, _, frame⟩ := saveHang_of_jumps v outs point jumps
    rw [goes]
    constructor
    · rw [frame.totalTmouts]
      exact Nat.le_refl _
    · right
      rw [frame.mapSize]
      exact aligned
  · rcases saveHang_of_not_jumps v outs point jumps with
      ⟨_, exits, saved⟩ | ⟨next, goes, label, saved⟩
    · rw [exits]
      exact Nat.le_of_eq saved.tmouts.symm
    · rw [goes]
      exact ⟨Nat.le_of_eq saved.tmouts.symm, .inl label⟩

end

private theorem saveStep_late (timeouts : Nat) (point : SavePoint) (late : point.Late timeouts) :
    ∃ jump, saveStep v hash64 hash32 outs point = .ok jump ∧ StaysLate timeouts jump := by
  obtain ⟨counted, ready⟩ := late
  unfold saveStep
  cases label : point.label with
  | enter =>
    rw [label] at ready
    have aligned := ready.resolve_left nofun
    rcases saveEnter_cases v hash64 hash32 outs point aligned with
      ⟨res, exits, saved⟩ | ⟨next, goes, _, _, frame⟩ | ⟨_, _, _, goes⟩
    · exact ⟨_, exits, saved.late counted⟩
    · refine ⟨_, goes, frame.saved.late counted, .inr ?_⟩
      rw [frame.afl.mapSize]
      exact aligned
    · have frame := point.begin_frame v hash64
      refine ⟨_, goes, frame.saved.late counted, .inr ?_⟩
      rw [frame.afl.mapSize]
      exact aligned
  | saveToQueue =>
    rw [label] at ready
    have aligned := ready.resolve_left nofun
    obtain ⟨post, frame, items, ending⟩ := saveToQueue_cases v hash64 outs point aligned
    have queued : Saved 1 0 point.afl post := frame.saved items
    rcases ending with ⟨dies, _⟩ | ⟨next, goes, _, _, _, same⟩
    · exact ⟨_, dies, queued.late counted⟩
    · refine ⟨_, goes, ?_, .inr ?_⟩
      · rw [same]
        exact queued.late counted
      · rw [same, frame.mapSize]
        exact aligned
  | maySaveFault =>
    rw [label] at ready
    have aligned := ready.resolve_left nofun
    refine ⟨_, rfl, ?_⟩
    unfold maySaveFault
    split
    · have hang := saveHang_late v outs _ aligned
      cases goes : saveHang v outs point with
      | goto next =>
        rw [goes] at hang
        exact ⟨Nat.le_of_succ_le (Nat.le_trans (Nat.succ_le_succ counted) hang.1), hang.2⟩
      | exit res =>
        rw [goes] at hang
        exact Nat.le_of_succ_le (Nat.le_trans (Nat.succ_le_succ counted) hang)
    · exact ⟨counted, .inl rfl⟩
    all_goals exact counted
  | keepAsCrash =>
    obtain ⟨res, exits, saved⟩ := saveCrash_exits v point
    refine ⟨_, rfl, ?_⟩
    rw [exits]
    exact saved.late counted

variable (halts : Halts (saveStep v hash64 hash32 outs) point res)

include halts

private theorem halts_late (late : point.Late timeouts) : timeouts ≤ res.afl.totalTmouts := by
  apply halts.invariant _ _ late
  · intro cur following here goes
    obtain ⟨jump, step, stays⟩ := saveStep_late v hash64 hash32 outs timeouts cur here
    rw [step] at goes
    cases goes
    exact stays
  · intro cur last here exits
    obtain ⟨jump, step, stays⟩ := saveStep_late v hash64 hash32 outs timeouts cur here
    rw [step] at exits
    cases exits
    exact stays

private theorem halts_hang_counted (here : point.label = .maySaveFault)
    (times : point.fault = .tmout)
    (aligned : 64 ∣ point.afl.coverage.fsrv.mapSize) :
    point.afl.totalTmouts + 1 ≤ res.afl.totalTmouts := by
  have step := saveStep_hang v hash64 hash32 outs _ here times
  have hang := saveHang_late v outs _ aligned
  cases goes : saveHang v outs point with
  | goto next =>
    rw [goes] at hang step
    exact halts_late _ _ _ _ ((halts_goto_iff step).1 halts) hang
  | exit last =>
    rw [goes] at hang step
    obtain ⟨fuel, runs⟩ := halts
    cases fuel with
    | zero => cases runs
    | succ fuel =>
      unfold runLabels at runs
      rw [step] at runs
      cases runs
      exact hang

omit halts

def UnseenHang (size : WordSize) (cov : Coverage) : Prop :=
  ∃ i, i < size.bytes * size.realWords cov.fsrv.realMapSize ∧
    simplifyLookup (cov.fsrv.traceBits i) &&& cov.virginTmout i ≠ 0

variable (size : WordSize)

private theorem unseenHang_classify (afl : Afl) :
    UnseenHang size (afl.classify size).coverage ↔ UnseenHang size afl.coverage := by
  unfold UnseenHang
  change (∃ i, i < size.bytes * size.realWords (classifyCounts size afl.coverage.fsrv).realMapSize ∧
    simplifyLookup ((classifyCounts size afl.coverage.fsrv).traceBits i) &&&
      afl.coverage.virginTmout i ≠ 0) ↔ _
  simp [simplifyLookup_classifyCounts]

private theorem hangVerdict_ne_zero_iff (nonInstrumentedMode : Bool) (cov : Coverage)
    (aligned : 64 ∣ cov.fsrv.mapSize) (bounded : cov.fsrv.realMapSize ≤ cov.fsrv.mapSize) :
    (hangVerdict size nonInstrumentedMode cov).1 ≠ 0 ↔
      nonInstrumentedMode = true ∨ UnseenHang size cov := by
  unfold hangVerdict
  cases nonInstrumentedMode with
  | true => simp
  | false =>
    have eight : 8 ∣ cov.fsrv.mapSize := Nat.dvd_trans (by decide) aligned
    simp only [Bool.false_eq_true, if_false, false_or]
    exact hasNewBits_simplified_iff eight bounded .tmout cov.fsrv.traceBits

theorem SavePoint.updateFrequency_coverage (point : SavePoint) :
    (point.updateFrequency v hash64).afl.coverage = point.afl.coverage ∨
      (point.updateFrequency v hash64).afl.coverage = (point.afl.classify v.size).coverage := by
  unfold SavePoint.updateFrequency SavePoint.calculateCksumIfNecessary SavePoint.classifyIfNecessary
  split
  · split
    · exact .inl rfl
    · split
      · exact .inl rfl
      · exact .inr rfl
  · exact .inl rfl

/-- A timeout that is not ignored makes the call jump back to `save_to_queue`
when its first re-run ends like this. -/
structure RequeuesTimeout (size : WordSize) (hang : HangRun) (len : BitVec 32) (fault : Fault)
    (afl : Afl) : Prop where
  nonempty : len ≠ 0
  times : fault = .tmout
  noticed : afl.env.aflIgnoreTimeouts = false
  keeps : afl.env.aflKeepTimeouts = true
  room : afl.savedHangs < keepUniqueHang
  unseen : afl.queue.nonInstrumentedMode = true ∨ UnseenHang size afl.takeC11.coverage
  retried : afl.execTmout < afl.hangTmout
  harmless : hang.run.stopSoon = true ∨ hang.run.fault ≠ .tmout ∧ hang.run.fault ≠ .crash

variable (len : BitVec 32) (fault : Fault) (afl : Afl) (aligned : 64 ∣ afl.coverage.fsrv.mapSize)
  (bounded : afl.coverage.fsrv.realMapSize ≤ afl.coverage.fsrv.mapSize)

include bounded in
include aligned in
theorem hangJumps_begin_iff :
    (len ≠ 0 ∧ fault = .tmout ∧ afl.env.aflIgnoreTimeouts = false ∧
        HangJumps v outs ((SavePoint.start len fault afl).begin v hash64)) ↔
      RequeuesTimeout v.size (outs.rerun 0) len fault afl := by
  have frame := (SavePoint.start len fault afl).begin_frame v hash64
  have coverage := SavePoint.updateFrequency_coverage v hash64
    ((SavePoint.start len fault afl).withAfl afl.takeC11)
  have same : UnseenHang v.size ((SavePoint.start len fault afl).begin v hash64).afl.coverage ↔
      UnseenHang v.size afl.takeC11.coverage := by
    rcases coverage with kept | classified
    · exact iff_of_eq (congrArg (UnseenHang v.size) kept)
    · have moved := unseenHang_classify v.size afl.takeC11
      exact (iff_of_eq (congrArg (UnseenHang v.size) classified)).trans moved
  have verdict := hangVerdict_ne_zero_iff v.size afl.queue.nonInstrumentedMode
    ((SavePoint.start _ _ _).begin _ _).afl.coverage
    (by rw [frame.afl.mapSize]; exact aligned)
    (by rw [frame.afl.mapSize, frame.afl.realMapSize]; exact bounded)
  rw [same] at verdict
  constructor
  · rintro ⟨nonempty, times, noticed, jumps⟩
    obtain ⟨room, isNew, retried, harmless, keeps⟩ := jumps
    rw [frame.afl.savedHangs] at room
    rw [frame.afl.nonInstrumented] at isNew
    rw [frame.afl.execTmout, frame.afl.hangTmout] at retried
    rw [frame.reruns] at harmless
    rw [frame.afl.env] at keeps
    exact ⟨nonempty, times, noticed, keeps, room, verdict.1 isNew, retried, harmless⟩
  · rintro ⟨nonempty, times, noticed, keeps, room, unseen, retried, harmless⟩
    refine ⟨nonempty, times, noticed, ?_⟩
    constructor
    · rw [frame.afl.savedHangs]
      exact room
    · rw [frame.afl.nonInstrumented]
      exact verdict.2 unseen
    · rw [frame.afl.execTmout, frame.afl.hangTmout]
      exact retried
    · rw [frame.reruns]
      exact harmless
    · rw [frame.afl.env]
      exact keeps

def SavesOnce (len : BitVec 32) (fault : Fault) (afl : Afl) : Prop :=
  ∃ fuel res, saveIfInteresting v hash64 hash32 outs fuel len fault afl = .ok res ∧
    res.afl.queue.queuedItems ≤ afl.queue.queuedItems + 1 ∧
    res.afl.totalTmouts ≤ afl.totalTmouts + 1

private theorem savesOnce_of_halts {len : BitVec 32} {fault : Fault} {afl : Afl} {inputs : Nat}
    (halts : Halts (saveStep v hash64 hash32 outs) (SavePoint.start len fault afl) res)
    (saved : Saved inputs timeouts afl res.afl) (one : inputs ≤ 1) (once : timeouts ≤ 1) :
    SavesOnce v hash64 hash32 outs len fault afl := by
  obtain ⟨fuel, runs⟩ := halts
  refine ⟨fuel, res, runs, ?_, ?_⟩
  · rw [saved.items]
    exact Nat.add_le_add_left one _
  · rw [saved.tmouts]
    exact Nat.add_le_add_left once _

include bounded in
include aligned in
theorem savesOnce_of_not_requeues (stays : ¬ RequeuesTimeout v.size (outs.rerun 0) len fault afl) :
    SavesOnce v hash64 hash32 outs len fault afl := by
  have step : saveStep v hash64 hash32 outs (SavePoint.start len fault afl) =
      saveEnter v hash64 hash32 outs (SavePoint.start len fault afl) := rfl
  rcases saveEnter_cases v hash64 hash32 outs (SavePoint.start len fault afl) aligned with
    ⟨res, exits, saved⟩ | ⟨next, goes, label, other, frame⟩ | ⟨nonempty, times, noticed, goes⟩
  · exact savesOnce_of_halts _ _ _ _ (Halts.of_exit (step.trans exits)) saved
      (by decide) (by decide)
  · have begun : Saved 0 0 afl next.afl := frame.saved
    rcases label with queue | switch
    · obtain ⟨res, halts, saved⟩ := halts_saveToQueue v hash64 hash32 outs next queue
        other (by rw [frame.afl.mapSize]; exact aligned)
      exact savesOnce_of_halts _ _ _ _
        ((halts_goto_iff (step.trans goes)).2 halts) (begun.trans saved) (by decide) (by decide)
    · obtain ⟨res, halts, saved⟩ := halts_maySaveFault v hash64 hash32 outs next switch other
      exact savesOnce_of_halts _ _ _ _
        ((halts_goto_iff (step.trans goes)).2 halts) (begun.trans saved) (by decide) (by decide)
  · have frame := (SavePoint.start len fault afl).begin_frame v hash64
    have begun : Saved 0 0 afl ((SavePoint.start len fault afl).begin v hash64).afl := frame.saved
    have away : ¬ HangJumps v outs
        { (SavePoint.start len fault afl).begin v hash64 with label := .maySaveFault } := by
      intro jumps
      apply stays
      apply (hangJumps_begin_iff _ _ _ _ _ _ aligned bounded).1
      exact ⟨nonempty, times, noticed, jumps.room, jumps.isNew, jumps.retried, jumps.harmless,
        jumps.keeps⟩
    obtain ⟨res, halts, saved⟩ := halts_hang v hash64 hash32 outs
      { (SavePoint.start len fault afl).begin v hash64 with label := .maySaveFault } rfl
      (frame.fault.trans times) away
    exact savesOnce_of_halts _ _ _ _
      ((halts_goto_iff (step.trans goes)).2 halts) (begun.trans saved) (by decide) (by decide)

/-- The jump leads back to the switch with one input and one timeout more, when
the calibration of the input times out again. -/
theorem hang_round (point : SavePoint) (here : point.label = .maySaveFault)
    (times : point.fault = .tmout) (aligned : 64 ∣ point.afl.coverage.fsrv.mapSize)
    (jumps : HangJumps v outs point)
    (slow : ((outs.calibration (point.reruns + 1)).runs 0).fault = .tmout) :
    ∃ queueing again, saveStep v hash64 hash32 outs point = .ok (.goto queueing) ∧
      saveStep v hash64 hash32 outs queueing = .ok (.goto again) ∧
      again.label = .maySaveFault ∧ again.fault = .tmout ∧
      SaveFrame point.afl.countTmout again.afl := by
  obtain ⟨queueing, goes, label, fault, rerun, retried⟩ := saveHang_of_jumps v outs point jumps
  have inside : 64 ∣ queueing.afl.coverage.fsrv.mapSize := by
    rw [retried.mapSize]
    exact aligned
  obtain ⟨_, frame, _, ending⟩ := saveToQueue_cases v hash64 outs queueing inside
  rw [rerun] at ending
  rcases ending with ⟨_, other⟩ | ⟨again, back, atSwitch, sameFault, _, same⟩
  · exact absurd slow other
  · refine ⟨queueing, again, ?_, ?_, atSwitch, ?_, ?_⟩
    · rw [saveStep_hang _ _ _ _ _ here times, goes]
    · rw [saveStep_saveToQueue _ _ _ _ _ label, back]
    · rw [sameFault, fault, times]
    · rw [same]
      exact retried.trans frame

include aligned bounded

variable (requeues : RequeuesTimeout v.size (outs.rerun 0) len fault afl)

include requeues

theorem hangJumps_of_requeues :
    ∃ switch, saveStep v hash64 hash32 outs (SavePoint.start len fault afl) = .ok (.goto switch) ∧
      switch.label = .maySaveFault ∧ switch.fault = .tmout ∧ switch.reruns = 0 ∧
      SaveFrame afl switch.afl ∧ HangJumps v outs switch := by
  obtain ⟨nonempty, times, noticed, jumps⟩ :=
    (hangJumps_begin_iff v hash64 outs len fault afl aligned bounded).2 requeues
  have frame := (SavePoint.start len fault afl).begin_frame v hash64
  exact ⟨{ (SavePoint.start _ _ _).begin _ _ with label := .maySaveFault },
    saveEnter_of_tmout _ _ _ _ _ nonempty times noticed, rfl,
    frame.fault.trans times, frame.reruns, frame.afl,
    ⟨jumps.room, jumps.isNew, jumps.retried, jumps.harmless, jumps.keeps⟩⟩

private theorem counts_twice_of_requeues (slow : ((outs.calibration 1).runs 0).fault = .tmout)
    (halts : Halts (saveStep v hash64 hash32 outs) (SavePoint.start len fault afl) res) :
    afl.totalTmouts + 2 ≤ res.afl.totalTmouts := by
  obtain ⟨switch, enters, here, times, first, begun, jumps⟩ :=
    hangJumps_of_requeues v hash64 hash32 outs len fault afl aligned bounded requeues
  have inside : 64 ∣ switch.afl.coverage.fsrv.mapSize := by
    rw [begun.mapSize]
    exact aligned
  have again : ((outs.calibration (switch.reruns + 1)).runs 0).fault = .tmout := by
    rw [first]
    exact slow
  obtain ⟨_, again, goes, back, label, fault, frame⟩ :=
    hang_round v hash64 hash32 outs switch here times inside jumps again
  have later := (halts_goto_iff back).1 ((halts_goto_iff goes).1 ((halts_goto_iff enters).1 halts))
  have counted := halts_hang_counted _ _ _ _ later label fault (by
    rw [frame.mapSize]
    exact inside)
  rw [frame.totalTmouts] at counted
  change switch.afl.totalTmouts + 1 + 1 ≤ _ at counted
  rw [begun.totalTmouts] at counted
  exact counted

omit requeues bounded aligned

/-- What a call needs to jump back whenever it comes to the switch. -/
structure NeverEnds (point : SavePoint) : Prop where
  here : point.label = .maySaveFault
  times : point.fault = .tmout
  aligned : 64 ∣ point.afl.coverage.fsrv.mapSize
  room : point.afl.savedHangs < keepUniqueHang
  nonInstrumented : point.afl.queue.nonInstrumentedMode = true
  retried : point.afl.execTmout < point.afl.hangTmout
  keeps : point.afl.env.aflKeepTimeouts = true

theorem NeverEnds.round (never : NeverEnds point)
    (harmless : ∀ k, (outs.rerun k).run.stopSoon = true ∨
      (outs.rerun k).run.fault ≠ .tmout ∧ (outs.rerun k).run.fault ≠ .crash)
    (slow : ∀ k, ((outs.calibration k).runs 0).fault = .tmout) :
    ∃ queueing again, saveStep v hash64 hash32 outs point = .ok (.goto queueing) ∧
      saveStep v hash64 hash32 outs queueing = .ok (.goto again) ∧ NeverEnds again := by
  have isNew : (hangVerdict v.size point.afl.queue.nonInstrumentedMode
      point.afl.coverage).1 ≠ 0 := by
    rw [never.nonInstrumented]
    exact Nat.one_ne_zero
  obtain ⟨queueing, again, goes, back, label, fault, frame⟩ :=
    hang_round v hash64 hash32 outs point never.here never.times never.aligned
      ⟨never.room, isNew, never.retried, harmless _, never.keeps⟩ (slow _)
  refine ⟨queueing, again, goes, back, label, fault, ?_, ?_, ?_, ?_, ?_⟩
  · rw [frame.mapSize]
    exact never.aligned
  · rw [frame.savedHangs]
    exact never.room
  · rw [frame.nonInstrumented]
    exact never.nonInstrumented
  · rw [frame.execTmout, frame.hangTmout]
    exact never.retried
  · rw [frame.env]
    exact never.keeps

include requeues in
include bounded in
include aligned in
/-- In non-instrumented mode every hang counts as new, so the call goes round
for as long as the runs alternate between in time and too slow. -/
private theorem saveIfInteresting_diverges (nonInstrumented : afl.queue.nonInstrumentedMode = true)
    (harmless : ∀ k, (outs.rerun k).run.stopSoon = true ∨
      (outs.rerun k).run.fault ≠ .tmout ∧ (outs.rerun k).run.fault ≠ .crash)
    (slow : ∀ k, ((outs.calibration k).runs 0).fault = .tmout) (fuel : Nat) :
    saveIfInteresting v hash64 hash32 outs fuel len fault afl = .error .outOfFuel := by
  obtain ⟨switch, enters, here, times, _, begun, jumps⟩ :=
    hangJumps_of_requeues v hash64 hash32 outs len fault afl aligned bounded requeues
  have never : NeverEnds switch := by
    refine ⟨here, times, ?_, jumps.room, ?_, jumps.retried, jumps.keeps⟩
    · rw [begun.mapSize]
      exact aligned
    · rw [begun.nonInstrumented]
      exact nonInstrumented
  -- the call is at the switch, or one jump away from it
  let going : SavePoint → Prop := fun point => NeverEnds point ∨
    ∃ next, saveStep v hash64 hash32 outs point = .ok (.goto next) ∧ NeverEnds next
  refine @runLabels_diverges _ _ _ _ going ?_ (.inr ⟨switch, enters, never⟩) _
  intro cur here
  rcases here with atSwitch | ⟨next, goes, atSwitch⟩
  · obtain ⟨queueing, again, goes, back, next⟩ := atSwitch.round v hash64 hash32 outs harmless slow
    exact ⟨queueing, goes, .inr ⟨again, back, next⟩⟩
  · exact ⟨next, goes, .inl atSwitch⟩

end Calls

def slowOutcomes (hang : HangRun) : SaveOutcomes where
  sanitizer _ := .ok
  rerun _ := hang
  calibration _ := ⟨fun _ => ⟨.tmout, fun _ => 0, false⟩, 500⟩

/-- A call ends with at most one input and one timeout more, whatever follows
the first re-run of a hang, if and only if that re-run does not make it jump
back to `save_to_queue`. -/
theorem saves_once_iff (v : SkimVariant) (hash64 : Buffer → BitVec 64)
    (hash32 : Buffer → BitVec 32) (hang : HangRun) (len : BitVec 32) (fault : Fault) (afl : Afl)
    (aligned : 64 ∣ afl.coverage.fsrv.mapSize)
    (bounded : afl.coverage.fsrv.realMapSize ≤ afl.coverage.fsrv.mapSize) :
    (∀ outs : SaveOutcomes, outs.rerun 0 = hang → SavesOnce v hash64 hash32 outs len fault afl) ↔
      ¬ RequeuesTimeout v.size hang len fault afl := by
  constructor
  · intro saves requeues
    obtain ⟨fuel, _, runs, _, _⟩ := saves (slowOutcomes hang) rfl
    have twice := counts_twice_of_requeues _ _ _ (slowOutcomes _) _ _ _
      aligned bounded requeues rfl ⟨fuel, runs⟩
    omega
  · intro stays outs first
    rw [← first] at stays
    exact savesOnce_of_not_requeues _ _ _ _ _ _ _ aligned bounded stays

def keepingCampaign (nonInstrumentedMode : Bool) : Afl :=
  Afl.initial (Coverage.initial 64 64)
    { Queue.empty .explore false false with nonInstrumentedMode := nonInstrumentedMode }
    ⟨false, true, false⟩ 20 1000

theorem saves_once_iff_real_hang :
    64 ∣ (keepingCampaign false).coverage.fsrv.mapSize ∧
      ∀ outs : SaveOutcomes, outs.rerun 0 = ⟨⟨.tmout, fun _ => 0, false⟩, 4⟩ →
        SavesOnce .avx2 (fun _ => 0) (fun _ => 0) outs 4 .tmout (keepingCampaign false) := by
  have aligned : 64 ∣ (keepingCampaign false).coverage.fsrv.mapSize := by decide
  refine ⟨aligned, (saves_once_iff .avx2 (fun _ => 0) (fun _ => 0)
    ⟨⟨.tmout, fun _ => 0, false⟩, 4⟩ 4 .tmout (keepingCampaign false) aligned (by decide)).2 ?_⟩
  rintro ⟨_, _, _, _, _, _, _, stops | ⟨again, _⟩⟩
  · cases stops
  · exact again rfl

/-- The first calibration hits index 0 before it times out; all other traces
are empty. -/
def alternatingOutcomes : SaveOutcomes where
  sanitizer _ := .ok
  rerun _ := ⟨⟨.ok, fun _ => 0, false⟩, 4⟩
  calibration k := ⟨fun _ => ⟨.tmout, fun i => if k = 1 ∧ i = 0 then 1 else 0, false⟩, 500⟩

/-- One call with a timeout never ends in non-instrumented mode, and queues two
inputs and counts three timeouts in instrumented mode. -/
theorem timeout_saved_again :
    (∀ fuel, saveIfInteresting .avx2 (fun _ => 0) (fun _ => 0) alternatingOutcomes fuel 4 .tmout
        (keepingCampaign true) = .error .outOfFuel) ∧
      (saveIfInteresting .avx2 (fun _ => 0) (fun _ => 0) alternatingOutcomes 6 4 .tmout
        (keepingCampaign false)).toOption.map (fun res =>
          (res.ending, res.afl.queue.queuedItems, res.afl.totalTmouts)) =
        some (.returned true, 2, 3) := by
  constructor
  · intro fuel
    apply saveIfInteresting_diverges
    · decide
    · decide
    · exact ⟨by decide, rfl, rfl, rfl, by decide, .inl rfl, by decide, .inr (by decide)⟩
    · rfl
    · intro k
      right
      constructor <;> (intro bad; cases bad)
    · intro k
      rfl
  · decide +kernel

end AflPlusPlus
