/-
What each block of `save_if_interesting` does.

A block keeps the settings of the campaign, queues one input or none, and counts
one timeout or none.  Only the timeout case can lead back.
-/

import AflPlusPlus.SaveIfInteresting

namespace AflPlusPlus

open Machine
open Machine.LaneWord

/-- The settings, the timeout counter and the number of hangs stay. -/
structure SaveFrame (pre post : Afl) : Prop where
  rest : post = { pre with
    coverage := post.coverage
    queue := post.queue
    stopSoon := post.stopSoon
    varBytes := post.varBytes
    firstTrace := post.firstTrace
    varByteCount := post.varByteCount
    queuedWithCov := post.queuedWithCov
    queuedVariable := post.queuedVariable
    totalCalUs := post.totalCalUs
    totalCalCycles := post.totalCalCycles
    totalBitmapSize := post.totalBitmapSize
    totalBitmapEntries := post.totalBitmapEntries
    slowestExecMs := post.slowestExecMs
    c11 := post.c11
    fuzzMode := post.fuzzMode
    savedTmouts := post.savedTmouts
    totalCrashes := post.totalCrashes
    savedCrashes := post.savedCrashes
    simplifiedNFuzz := post.simplifiedNFuzz
    nFuzzDup := post.nFuzzDup }
  nonInstrumented : post.queue.nonInstrumentedMode = pre.queue.nonInstrumentedMode
  mapSize : post.coverage.fsrv.mapSize = pre.coverage.fsrv.mapSize
  realMapSize : post.coverage.fsrv.realMapSize = pre.coverage.fsrv.realMapSize

variable (afl : Afl)

theorem SaveFrame.refl : SaveFrame afl afl := ⟨rfl, rfl, rfl, rfl⟩

section Settings

variable {pre post : Afl} (frame : SaveFrame pre post)

include frame

theorem SaveFrame.env : post.env = pre.env := by rw [frame.rest]

theorem SaveFrame.execTmout : post.execTmout = pre.execTmout := by rw [frame.rest]

theorem SaveFrame.hangTmout : post.hangTmout = pre.hangTmout := by rw [frame.rest]

theorem SaveFrame.savedHangs : post.savedHangs = pre.savedHangs := by rw [frame.rest]

theorem SaveFrame.totalTmouts : post.totalTmouts = pre.totalTmouts := by rw [frame.rest]

end Settings

variable {inputs : Nat} {pre first second third : Afl}

theorem SaveFrame.trans (left : SaveFrame first second) (right : SaveFrame second third) :
    SaveFrame first third where
  rest := by rw [right.rest, left.rest]
  nonInstrumented := right.nonInstrumented.trans left.nonInstrumented
  mapSize := right.mapSize.trans left.mapSize
  realMapSize := right.realMapSize.trans left.realMapSize

theorem SaveFrame.of_coverage (coverage : Coverage)
    (mapSize : coverage.fsrv.mapSize = afl.coverage.fsrv.mapSize)
    (realMapSize : coverage.fsrv.realMapSize = afl.coverage.fsrv.realMapSize) :
    SaveFrame afl (afl.withCoverage coverage) := ⟨rfl, rfl, mapSize, realMapSize⟩

variable {post : Afl}

theorem CalFrame.save (frame : CalFrame pre post)
    (nonInstrumented : post.queue.nonInstrumentedMode = pre.queue.nonInstrumentedMode) :
    SaveFrame pre post where
  rest := by rw [frame.rest]
  nonInstrumented := nonInstrumented
  mapSize := frame.mapSize
  realMapSize := frame.realMapSize

/-- No input is queued and no timeout counted; the locals that steer the jumps
stay. -/
structure PointFrame (pre post : SavePoint) : Prop where
  fault : post.fault = pre.fault
  keeping : post.keeping = pre.keeping
  reruns : post.reruns = pre.reruns
  len : post.len = pre.len
  afl : SaveFrame pre.afl post.afl
  items : post.afl.queue.queuedItems = pre.afl.queue.queuedItems

theorem PointFrame.refl (point : SavePoint) : PointFrame point point :=
  ⟨rfl, rfl, rfl, rfl, SaveFrame.refl point.afl, rfl⟩

theorem PointFrame.trans {first second third : SavePoint} (left : PointFrame first second)
    (right : PointFrame second third) : PointFrame first third where
  fault := right.fault.trans left.fault
  keeping := right.keeping.trans left.keeping
  reruns := right.reruns.trans left.reruns
  len := right.len.trans left.len
  afl := left.afl.trans right.afl
  items := right.items.trans left.items

variable (size : WordSize)

section Prelude

variable (v : SkimVariant) (hash64 : Buffer → BitVec 64) (hash32 : Buffer → BitVec 32)

theorem Afl.classify_save (afl : Afl) : SaveFrame afl (afl.classify size) :=
  SaveFrame.of_coverage afl _ (classifyCounts_mapSize size _) (classifyCounts_realMapSize size _)

variable (point : SavePoint)

theorem SavePoint.classifyIfNecessary_frame :
    PointFrame point (point.classifyIfNecessary v) := by
  unfold SavePoint.classifyIfNecessary
  split
  · exact PointFrame.refl _
  · exact ⟨rfl, rfl, rfl, rfl, Afl.classify_save v.size point.afl, rfl⟩

theorem SavePoint.calculateCksumIfNecessary_frame :
    PointFrame point (point.calculateCksumIfNecessary v hash64) := by
  unfold SavePoint.calculateCksumIfNecessary
  split
  · exact PointFrame.refl _
  · have traced := point.classifyIfNecessary_frame v
    exact ⟨traced.fault, traced.keeping, traced.reruns, traced.len, traced.afl, traced.items⟩

private theorem hasNewBitsUnclassified_answers (cov : Coverage) (map : VirginMap)
    (classified : Bool)
    (aligned : 64 ∣ cov.fsrv.mapSize) :
    ∃ verdict post flag, hasNewBitsUnclassified v cov map classified = some (verdict, post, flag) ∧
      post.fsrv.mapSize = cov.fsrv.mapSize ∧ post.fsrv.realMapSize = cov.fsrv.realMapSize := by
  obtain ⟨answer, skimmed, _⟩ := skim_spec v (cov.virgin map) cov.fsrv.traceBits
    cov.fsrv.mapSize aligned
  unfold hasNewBitsUnclassified
  rw [skimmed]
  cases answer with
  | false => exact ⟨0, cov, classified, rfl, rfl, rfl⟩
  | true =>
    refine ⟨_, _, _, rfl, ?_, ?_⟩
    all_goals
      rw [hasNewBits_fsrv]
      rfl

theorem SavePoint.calculateNewBitsIfNecessary_frame
    (aligned : 64 ∣ point.afl.coverage.fsrv.mapSize) :
    ∃ counted, point.calculateNewBitsIfNecessary v = .ok counted ∧
      PointFrame point counted := by
  unfold SavePoint.calculateNewBitsIfNecessary
  split
  · exact ⟨point, rfl, PointFrame.refl _⟩
  · split
    · have kept := hasNewBits_fsrv v.size point.afl.coverage .bits
      refine ⟨_, rfl, rfl, rfl, rfl, rfl, ?_, rfl⟩
      apply SaveFrame.of_coverage
      all_goals rw [kept]
    · obtain ⟨_, _, _, answer, mapSize, realMapSize⟩ :=
        hasNewBitsUnclassified_answers v point.afl.coverage .bits point.classified aligned
      rw [answer]
      exact ⟨_, rfl, rfl, rfl, rfl, rfl, SaveFrame.of_coverage point.afl _ mapSize realMapSize, rfl⟩

theorem Afl.takeC11_save (afl : Afl) :
    SaveFrame afl afl.takeC11 ∧ afl.takeC11.queue = afl.queue := by
  unfold Afl.takeC11
  dsimp only
  split
  · exact ⟨⟨rfl, rfl, rfl, rfl⟩, rfl⟩
  · exact ⟨SaveFrame.refl _, rfl⟩

theorem SavePoint.takeC11_frame : PointFrame point (point.withAfl point.afl.takeC11) := by
  obtain ⟨frame, queue⟩ := point.afl.takeC11_save
  refine ⟨rfl, rfl, rfl, rfl, frame, ?_⟩
  change point.afl.takeC11.queue.queuedItems = _
  rw [queue]

theorem Queue.countPath_rest (cksum : BitVec 64) (queue : Queue) :
    queue.countPath cksum = { queue with nFuzz := (queue.countPath cksum).nFuzz } := by
  unfold Queue.countPath
  dsimp only
  split <;> rfl

theorem SavePoint.updateFrequency_frame :
    PointFrame point (point.updateFrequency v hash64) := by
  unfold SavePoint.updateFrequency
  split
  · have hashed := point.calculateCksumIfNecessary_frame v hash64
    have rest := Queue.countPath_rest (point.calculateCksumIfNecessary v hash64).cksum
      (point.calculateCksumIfNecessary v hash64).afl.queue
    refine hashed.trans ⟨rfl, rfl, rfl, rfl, ⟨rfl, ?_, rfl, rfl⟩, ?_⟩
    · change (Queue.countPath _ _).nonInstrumentedMode = _
      rw [rest]
    · change (Queue.countPath _ _).queuedItems = _
      rw [rest]
  · exact PointFrame.refl _

theorem SavePoint.feedSan_frame (aligned : 64 ∣ point.afl.coverage.fsrv.mapSize) :
    ∃ feed fed, point.feedSan v hash32 = .ok (feed, fed) ∧ PointFrame point fed := by
  unfold SavePoint.feedSan
  dsimp only
  split
  · exact ⟨false, point, rfl, PointFrame.refl _⟩
  · -- one case for each abstraction
    split
    · split
      · exact ⟨false, point, rfl, PointFrame.refl _⟩
      · exact ⟨true, _, rfl, rfl, rfl, rfl, rfl, ⟨rfl, rfl, rfl, rfl⟩, rfl⟩
    · obtain ⟨counted, answer, frame⟩ := point.calculateNewBitsIfNecessary_frame v aligned
      rw [answer]
      exact ⟨counted.newBits != 0, counted, rfl, frame⟩
    · have traced := point.classifyIfNecessary_frame v
      split
      · exact ⟨false, _, rfl, traced⟩
      · exact ⟨true, _, rfl, traced.trans ⟨rfl, rfl, rfl, rfl, ⟨rfl, rfl, rfl, rfl⟩, rfl⟩⟩

end Prelude

structure Saved (inputs timeouts : Nat) (pre post : Afl) : Prop where
  items : post.queue.queuedItems = pre.queue.queuedItems + inputs
  tmouts : post.totalTmouts = pre.totalTmouts + timeouts

theorem Saved.trans {timeouts moreInputs moreTimeouts : Nat}
    (left : Saved inputs timeouts first second)
    (right : Saved moreInputs moreTimeouts second third) :
    Saved (inputs + moreInputs) (timeouts + moreTimeouts) first third where
  items := by rw [right.items, left.items, Nat.add_assoc]
  tmouts := by rw [right.tmouts, left.tmouts, Nat.add_assoc]

theorem SaveFrame.saved (frame : SaveFrame pre post)
    (items : post.queue.queuedItems = pre.queue.queuedItems + inputs) :
    Saved inputs 0 pre post where
  items := items
  tmouts := frame.totalTmouts

theorem PointFrame.saved {pre post : SavePoint} (frame : PointFrame pre post) :
    Saved 0 0 pre.afl post.afl := frame.afl.saved frame.items

section Blocks

variable (v : SkimVariant) (hash64 : Buffer → BitVec 64) (hash32 : Buffer → BitVec 32)
variable (outs : SaveOutcomes)
variable (point : SavePoint)

theorem saveCrash_exits :
    ∃ res, saveCrash v point = .exit res ∧ Saved 0 0 point.afl res.afl := by
  unfold saveCrash
  dsimp only
  split
  · exact ⟨_, rfl, rfl, rfl⟩
  · split
    all_goals split <;> exact ⟨_, rfl, rfl, rfl⟩

theorem Afl.creditFind_frame (top newBits : Nat) (afl : Afl) :
    SaveFrame afl (afl.creditFind top newBits) ∧
      (afl.creditFind top newBits).queue.queuedItems = afl.queue.queuedItems := by
  unfold Afl.creditFind
  split
  · exact ⟨⟨rfl, rfl, rfl, rfl⟩, rfl⟩
  · exact ⟨SaveFrame.refl _, rfl⟩

theorem Afl.startFrequency_frame (top : Nat) (cksum : BitVec 64) (afl : Afl) :
    SaveFrame afl (afl.startFrequency top cksum) ∧
      (afl.startFrequency top cksum).queue.queuedItems = afl.queue.queuedItems := by
  unfold Afl.startFrequency
  split
  · exact ⟨⟨rfl, rfl, rfl, rfl⟩, rfl⟩
  · exact ⟨SaveFrame.refl _, rfl⟩

theorem Afl.enqueue_frame (len : BitVec 32) (newBits : Nat) (cksum : BitVec 64) (afl : Afl) :
    SaveFrame afl (afl.enqueue len newBits cksum) ∧
      (afl.enqueue len newBits cksum).queue.queuedItems = afl.queue.queuedItems + 1 := by
  have hashed : SaveFrame afl ((afl.addFind len).modifyEntry afl.queue.queuedItems
      (QueueEntry.withCksum cksum)) := ⟨rfl, rfl, rfl, rfl⟩
  have credited := Afl.creditFind_frame afl.queue.queuedItems newBits
    ((afl.addFind len).modifyEntry afl.queue.queuedItems (QueueEntry.withCksum cksum))
  have started := Afl.startFrequency_frame afl.queue.queuedItems cksum
    (((afl.addFind len).modifyEntry afl.queue.queuedItems
      (QueueEntry.withCksum cksum)).creditFind afl.queue.queuedItems newBits)
  refine ⟨(hashed.trans credited.1).trans started.1, ?_⟩
  exact started.2.trans credited.2

theorem saveToQueue_cases (aligned : 64 ∣ point.afl.coverage.fsrv.mapSize) :
    ∃ post, SaveFrame point.afl post ∧ post.queue.queuedItems = point.afl.queue.queuedItems + 1 ∧
      (saveToQueue v hash64 outs point = .ok (.exit ⟨.fatal, post⟩) ∧
          ((outs.calibration point.reruns).runs 0).fault ≠ .tmout ∨
        ∃ next, saveToQueue v hash64 outs point = .ok (.goto next) ∧
          next.label = .maySaveFault ∧ next.fault = point.fault ∧ next.reruns = point.reruns ∧
          next.afl = post) := by
  have hashed := point.calculateCksumIfNecessary_frame v hash64
  obtain ⟨counted, answer, more⟩ := SavePoint.calculateNewBitsIfNecessary_frame v
    (point.calculateCksumIfNecessary v hash64) (by rw [hashed.afl.mapSize]; exact aligned)
  have frame := hashed.trans more
  obtain ⟨queued, items⟩ := counted.afl.enqueue_frame counted.len counted.newBits counted.cksum
  have rest := calibrateCase_rest v.size hash64 (outs.calibration counted.reruns)
    counted.afl.queue.queuedItems
    (((counted.afl.enqueue counted.len counted.newBits counted.cksum).queue.queueCycle -
      1).setWidth 32) (counted.afl.enqueue counted.len counted.newBits counted.cksum)
  have calibrated := calibrateCase_frame v.size hash64 (outs.calibration counted.reruns)
    counted.afl.queue.queuedItems
    (((counted.afl.enqueue counted.len counted.newBits counted.cksum).queue.queueCycle -
      1).setWidth 32) (counted.afl.enqueue counted.len counted.newBits counted.cksum)
  refine ⟨_, (frame.afl.trans queued).trans (calibrated.save (by rw [rest])), ?_, ?_⟩
  · rw [rest, items, frame.items]
  · unfold saveToQueue
    rw [answer]
    simp only [bind, Except.bind]
    split
    · rename_i failed
      refine .inl ⟨rfl, ?_⟩
      intro times
      rw [← frame.reruns] at times
      rw [calibrateCase_tmout _ _ _ _ _ _ times] at failed
      cases failed
    · exact .inr ⟨_, rfl, rfl, frame.fault, frame.reruns, rfl⟩

/-- The timeout case jumps back: a hang that counts as new, but does not hang
when it gets more time, is kept as an input. -/
structure HangJumps (point : SavePoint) : Prop where
  room : point.afl.savedHangs < keepUniqueHang
  isNew : (hangVerdict v.size point.afl.queue.nonInstrumentedMode point.afl.coverage).1 ≠ 0
  retried : point.afl.execTmout < point.afl.hangTmout
  harmless : (outs.rerun point.reruns).run.stopSoon = true ∨
    (outs.rerun point.reruns).run.fault ≠ .tmout ∧ (outs.rerun point.reruns).run.fault ≠ .crash
  keeps : point.afl.env.aflKeepTimeouts = true

def Afl.countTmout (afl : Afl) : Afl := { afl with totalTmouts := afl.totalTmouts + 1 }

private theorem hangVerdict_fsrv (nonInstrumentedMode : Bool) (cov : Coverage) :
    (hangVerdict size nonInstrumentedMode cov).2.fsrv.mapSize = cov.fsrv.mapSize ∧
      (hangVerdict size nonInstrumentedMode cov).2.fsrv.realMapSize = cov.fsrv.realMapSize := by
  unfold hangVerdict
  split
  · exact ⟨rfl, rfl⟩
  · unfold keepAsHang
    rw [hasNewBits_fsrv]
    exact ⟨rfl, rfl⟩

theorem saveHang_of_jumps (jumps : HangJumps v outs point) :
    ∃ next, saveHang v outs point = .goto next ∧ next.label = .saveToQueue ∧
      next.fault = point.fault ∧ next.reruns = point.reruns + 1 ∧
      SaveFrame point.afl.countTmout next.afl := by
  obtain ⟨mapSize, realMapSize⟩ := hangVerdict_fsrv v.size
    point.afl.queue.nonInstrumentedMode point.afl.coverage
  have notCrash : ¬ ((!(outs.rerun point.reruns).run.stopSoon) = true ∧
      (outs.rerun point.reruns).run.fault = .crash) := by
    rintro ⟨goes, crash⟩
    rcases jumps.harmless with stop | other
    · rw [stop] at goes
      cases goes
    · exact other.2 crash
  have notHang := jumps.harmless.imp (fun stop => stop) (fun other => other.1)
  unfold saveHang
  dsimp only [SavePoint.withAfl, SavePoint.rerunHang, fuzzRunTarget, Afl.withCoverage]
  rw [if_neg (Nat.not_le.2 jumps.room), if_neg jumps.isNew, if_pos jumps.retried, if_neg notCrash,
    if_pos notHang, if_pos jumps.keeps]
  exact ⟨_, rfl, rfl, rfl, rfl, rfl, rfl, mapSize, realMapSize⟩

/-- Otherwise the timeout case leaves the call, or goes on to `keep_as_crash`. -/
theorem saveHang_of_not_jumps (stays : ¬ HangJumps v outs point) :
    (∃ res, saveHang v outs point = .exit res ∧ Saved 0 1 point.afl res.afl) ∨
      ∃ next, saveHang v outs point = .goto next ∧ next.label = .keepAsCrash ∧
        Saved 0 1 point.afl next.afl := by
  unfold saveHang
  dsimp only [SavePoint.withAfl, SavePoint.rerunHang, fuzzRunTarget, Afl.withCoverage]
  split
  · exact .inl ⟨_, rfl, rfl, rfl⟩
  · rename_i room
    split
    · exact .inl ⟨_, rfl, rfl, rfl⟩
    · rename_i isNew
      split
      · rename_i retried
        split
        · exact .inr ⟨_, rfl, rfl, rfl, rfl⟩
        · rename_i notCrash
          split
          · rename_i notHang
            split
            · rename_i keeps
              refine absurd ⟨Nat.not_le.1 room, isNew, retried, ?_, keeps⟩ stays
              cases stop : (outs.rerun point.reruns).run.stopSoon with
              | true => exact .inl rfl
              | false =>
                right
                constructor
                · rcases notHang with bad | other
                  · rw [stop] at bad
                    cases bad
                  · exact other
                · intro crash
                  apply notCrash
                  rw [stop]
                  exact ⟨rfl, crash⟩
            · exact .inl ⟨_, rfl, rfl, rfl⟩
          · exact .inl ⟨_, rfl, rfl, rfl⟩
      · exact .inl ⟨_, rfl, rfl, rfl⟩

def SavePoint.begin (point : SavePoint) : SavePoint :=
  (point.withAfl point.afl.takeC11).updateFrequency v hash64

theorem SavePoint.begin_frame : PointFrame point (point.begin v hash64) :=
  point.takeC11_frame.trans (SavePoint.updateFrequency_frame v hash64 _)

private theorem sanFault_ne_tmout (afl : Afl) (feed : Bool) : sanFault outs afl feed ≠ .tmout := by
  unfold sanFault
  split <;> (intro bad; cases bad)

theorem saveEnter_cases (aligned : 64 ∣ point.afl.coverage.fsrv.mapSize) :
    (∃ res, saveEnter v hash64 hash32 outs point = .ok (.exit res) ∧ Saved 0 0 point.afl res.afl) ∨
      (∃ next, saveEnter v hash64 hash32 outs point = .ok (.goto next) ∧
        (next.label = .saveToQueue ∨ next.label = .maySaveFault) ∧ next.fault ≠ .tmout ∧
        PointFrame { point with fault := next.fault } next) ∨
      (point.len ≠ 0 ∧ point.fault = .tmout ∧ point.afl.env.aflIgnoreTimeouts = false ∧
        saveEnter v hash64 hash32 outs point =
          .ok ((point.begin v hash64).goto .maySaveFault)) := by
  have begun := point.begin_frame v hash64
  unfold saveEnter
  by_cases empty : point.len = 0
  · rw [if_pos empty]
    exact .inl ⟨_, rfl, rfl, rfl⟩
  · rw [if_neg empty]
    by_cases ignored : point.fault = .tmout ∧ point.afl.env.aflIgnoreTimeouts = true
    · rw [if_pos ignored]
      exact .inl ⟨_, rfl, (point.updateFrequency_frame _ _).saved⟩
    · rw [if_neg ignored]
      dsimp only
      split
      · obtain ⟨feed, fed, fedAnswer, fedFrame⟩ :=
          SavePoint.feedSan_frame v hash32 (point.begin v hash64)
            (by rw [begun.afl.mapSize]; exact aligned)
        obtain ⟨counted, answer, more⟩ := SavePoint.calculateNewBitsIfNecessary_frame v fed
          (by rw [fedFrame.afl.mapSize, begun.afl.mapSize]; exact aligned)
        have frame := (begun.trans fedFrame).trans more
        have fault := sanFault_ne_tmout outs counted.afl feed
        change SavePoint.feedSan v hash32
          ((point.withAfl point.afl.takeC11).updateFrequency v hash64) = _ at fedAnswer
        rw [fedAnswer]
        simp only [bind, Except.bind]
        rw [answer]
        dsimp only
        have going : ∀ label, PointFrame { point with fault := sanFault outs counted.afl feed }
            { counted with fault := sanFault outs counted.afl feed, label := label } := by
          intro label
          exact ⟨rfl, frame.keeping, frame.reruns, frame.len, frame.afl, frame.items⟩
        split
        · split
          · split
            · exact .inl ⟨_, rfl, frame.saved.items, frame.saved.tmouts⟩
            · exact .inl ⟨_, rfl, frame.saved⟩
          · exact .inr (.inl ⟨_, rfl, .inr rfl, fault, going _⟩)
        · exact .inr (.inl ⟨_, rfl, .inl rfl, fault, going _⟩)
      · by_cases times : point.fault = .tmout
        · refine .inr (.inr ⟨empty, times, ?_, rfl⟩)
          cases flag : point.afl.env.aflIgnoreTimeouts with
          | false => rfl
          | true => exact absurd ⟨times, flag⟩ ignored
        · refine .inr (.inl ⟨_, rfl, .inr rfl, ?_, ?_⟩)
          · change (point.begin v hash64).fault ≠ .tmout
            rw [begun.fault]
            exact times
          · exact ⟨rfl, begun.keeping, begun.reruns, begun.len, begun.afl, begun.items⟩

theorem saveEnter_of_tmout (nonempty : point.len ≠ 0) (times : point.fault = .tmout)
    (noticed : point.afl.env.aflIgnoreTimeouts = false) :
    saveEnter v hash64 hash32 outs point = .ok ((point.begin v hash64).goto .maySaveFault) := by
  have begun := point.begin_frame v hash64
  have unexpected : (point.begin v hash64).fault ≠ (point.begin v hash64).afl.expected := by
    rw [begun.fault, times]
    exact (Afl.expected_ne_tmout _).symm
  have heeded : ¬ (point.fault = .tmout ∧ point.afl.env.aflIgnoreTimeouts = true) := by
    rintro ⟨_, ignored⟩
    rw [noticed] at ignored
    cases ignored
  unfold saveEnter
  rw [if_neg nonempty, if_neg heeded]
  exact if_neg unexpected

theorem saveStep_hang (here : point.label = .maySaveFault) (times : point.fault = .tmout) :
    saveStep v hash64 hash32 outs point = .ok (saveHang v outs point) := by
  unfold saveStep maySaveFault
  rw [here, times]

theorem saveStep_saveToQueue (here : point.label = .saveToQueue) :
    saveStep v hash64 hash32 outs point = saveToQueue v hash64 outs point := by
  unfold saveStep
  rw [here]

end Blocks

end AflPlusPlus
