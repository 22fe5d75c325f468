/-
Explored coverage stays explored.

Comparing a trace with the virgin map only clears bits of it, and so does
calibration.  The input-to-state stage puts an older map back for one run; the
merge that follows takes away every bit that was cleared before.
-/

import AflPlusPlus.InputToState

namespace AflPlusPlus

open Machine
open Machine.LaneWord

def Contained (inner outer : Buffer) : Prop :=
  ∀ i bit, (inner i).getLsbD bit = true → (outer i).getLsbD bit = true

theorem Contained.refl (map : Buffer) : Contained map map := fun _ _ set => set

private theorem Contained.trans {first second third : Buffer} (left : Contained first second)
    (right : Contained second third) : Contained first third :=
  fun i bit set => right i bit (left i bit set)

theorem Contained.of_eq {inner outer : Buffer} (same : inner = outer) : Contained inner outer :=
  same ▸ Contained.refl inner

private theorem contained_and {byte mask : Byte} {bit : Nat}
    (set : (byte &&& mask).getLsbD bit = true) :
    byte.getLsbD bit = true := by
  rw [BitVec.getLsbD_and, Bool.and_eq_true] at set
  exact set.1

def Remembers (pre post : Afl) : Prop :=
  Contained post.coverage.virginBits pre.coverage.virginBits

variable (size : WordSize) (hash64 : Buffer → BitVec 64) (run : TargetRun) (q : Nat) (afl : Afl)

theorem Remembers.refl : Remembers afl afl := Contained.refl _

theorem Remembers.trans {first second third : Afl} (left : Remembers first second)
    (right : Remembers second third) : Remembers first third :=
  Contained.trans right left

theorem Remembers.of_eq {pre post : Afl}
    (same : post.coverage.virginBits = pre.coverage.virginBits) : Remembers pre post :=
  Contained.of_eq same

theorem hasNewBits_contained (cov : Coverage) (map : VirginMap) :
    Contained (hasNewBits size cov map).2.virginBits cov.virginBits := by
  by_cases same : map = .bits
  · subst same
    intro i bit set
    change ((hasNewBits size cov .bits).2.virgin .bits i).getLsbD bit = true at set
    rw [hasNewBits_virgin] at set
    split at set
    · exact contained_and set
    · exact set
  · exact Contained.of_eq (hasNewBits_virgin_of_ne _ _ _ .bits (Ne.symm same))

variable {v : SkimVariant}

theorem hasNewBitsUnclassified_contained {cov : Coverage}
    {map : VirginMap} {classified : Bool} {answer : Nat × Coverage × Bool}
    (answers : hasNewBitsUnclassified v cov map classified = some answer) :
    Contained answer.2.1.virginBits cov.virginBits := by
  unfold hasNewBitsUnclassified at answers
  split at answers
  · cases answers
  · cases answers
    exact Contained.refl _
  · cases answers
    exact hasNewBits_contained v.size { cov with fsrv := classifyCounts v.size cov.fsrv } _

variable (s : CalState)

theorem CalState.noteNewBits_remembers : Remembers s.afl (s.noteNewBits size).afl :=
  hasNewBits_contained size s.afl.coverage .bits

private theorem Afl.markVariableBytes_remembers : Remembers afl afl.markVariableBytes := by
  apply forUpto_preserves _ _ (Remembers _) _ (Remembers.refl _)
  intro i _ cur remembered
  split
  · refine remembered.trans ?_
    intro addr bit set
    change (Function.update cur.coverage.virginBits i 0 addr).getLsbD bit = true at set
    by_cases here : addr = i
    · subst here
      simp at set
    · rw [Function.update_of_ne here] at set
      exact set
  · exact remembered

private theorem CalState.compare_remembers : Remembers s.afl (s.compare size hash64 q).afl := by
  have noted := s.noteNewBits_remembers size
  unfold CalState.compare
  dsimp only
  split
  · exact Remembers.refl s.afl
  · split
    · exact noted.trans (Afl.markVariableBytes_remembers _)
    · exact noted

private theorem calibrateRun_remembers (earlySkip stageCur : Nat) (run : TargetRun) (s : CalState) :
    Remembers s.afl (calibrateRun size hash64 q earlySkip stageCur run s).state.afl := by
  have compared := CalState.compare_remembers size hash64 q
    { s with afl := (fuzzRunTarget run s.afl).classify size, fault := run.fault }
  unfold calibrateRun
  dsimp only
  split
  · exact Remembers.refl s.afl
  · split
    · exact Remembers.refl s.afl
    · split <;> exact compared

private theorem calibrateFrom_remembers (runs : Nat → TargetRun) (q earlySkip rounds stageCur : Nat)
    (s : CalState) :
    Remembers s.afl (calibrateFrom size hash64 runs q earlySkip rounds stageCur s).2.afl := by
  induction rounds generalizing stageCur s with
  | zero => exact Remembers.refl s.afl
  | succ rounds ih =>
    have body := calibrateRun_remembers size hash64 q earlySkip stageCur (runs stageCur) s
    unfold calibrateFrom
    split
    · cases next : calibrateRun size hash64 q earlySkip stageCur (runs stageCur) s with
      | abort stopped | leave left =>
        rw [next] at body
        exact body
      | again following =>
        rw [next] at body
        exact body.trans (ih (stageCur + 1) _)
    · exact Remembers.refl s.afl

private theorem calibrateStart_remembers : Remembers afl (calibrateStart size q afl).afl := by
  unfold calibrateStart
  dsimp only
  split
  · exact CalState.noteNewBits_remembers _ _
  · exact Remembers.refl _

private theorem calibrateEnd_remembers : Remembers s.afl (calibrateEnd q s) := by
  unfold calibrateEnd creditNewCov
  split
  all_goals split <;> exact Remembers.refl s.afl

theorem calibrateCase_remembers (out : CalOutcome) (q : Nat) (handicap : BitVec 32) (afl : Afl) :
    Remembers afl (calibrateCase size hash64 out q handicap afl).2 := by
  have start := calibrateStart_remembers size q afl
  have looped := calibrateFrom_remembers size hash64 out.runs q
    (calibrateStart size q afl).earlySkip calCyclesLong 0 (calibrateStart size q afl)
  unfold calibrateCase
  dsimp only
  split
  · rename_i stopped ended
    rw [ended] at looped
    exact (start.trans looped).trans (calibrateEnd_remembers q _)
  · rename_i stageCur ended loop
    rw [loop] at looped
    exact (start.trans looped).trans (calibrateEnd_remembers q _)

variable (size : WordSize)

section Save

variable (v : SkimVariant) (hash64 : Buffer → BitVec 64) (hash32 : Buffer → BitVec 32)
variable (outs : SaveOutcomes)
variable (point : SavePoint)

theorem SavePoint.classifyIfNecessary_remembers :
    Remembers point.afl (point.classifyIfNecessary v).afl := by
  unfold SavePoint.classifyIfNecessary
  split <;> exact Remembers.refl _

theorem SavePoint.calculateCksumIfNecessary_remembers :
    Remembers point.afl (point.calculateCksumIfNecessary v hash64).afl := by
  unfold SavePoint.calculateCksumIfNecessary
  split
  · exact Remembers.refl _
  · exact point.classifyIfNecessary_remembers _

theorem SavePoint.calculateNewBitsIfNecessary_remembers :
    Yields (fun post => Remembers point.afl post.afl) (point.calculateNewBitsIfNecessary v) := by
  unfold SavePoint.calculateNewBitsIfNecessary
  split
  · exact Remembers.refl _
  · split
    · exact hasNewBits_contained v.size point.afl.coverage .bits
    · split
      · trivial
      · rename_i answers
        exact hasNewBitsUnclassified_contained answers

private theorem Afl.takeC11_remembers (afl : Afl) : Remembers afl afl.takeC11 := by
  unfold Afl.takeC11
  dsimp only
  split <;> exact Remembers.refl _

private theorem SavePoint.updateFrequency_remembers :
    Remembers point.afl (point.updateFrequency v hash64).afl := by
  unfold SavePoint.updateFrequency
  split
  · exact point.calculateCksumIfNecessary_remembers _ _
  · exact Remembers.refl _

private theorem SavePoint.feedSan_remembers :
    Yields (fun fed => Remembers point.afl fed.2.afl) (point.feedSan v hash32) := by
  unfold SavePoint.feedSan
  dsimp only
  split
  · exact Remembers.refl _
  · -- one case for each abstraction
    split
    · split <;> exact Remembers.refl _
    · exact (point.calculateNewBitsIfNecessary_remembers _).bind (fun _ counted => counted)
    · split <;> exact point.classifyIfNecessary_remembers _

def jumpAfl : Jump SavePoint SaveResult → Afl
  | .goto next => next.afl
  | .exit res => res.afl

private theorem saveEnter_remembers :
    Yields (fun jump => Remembers point.afl (jumpAfl jump))
      (saveEnter v hash64 hash32 outs point) := by
  have begun := (Afl.takeC11_remembers point.afl).trans
    ((point.withAfl point.afl.takeC11).updateFrequency_remembers v hash64)
  unfold saveEnter
  dsimp only
  split
  · exact Remembers.refl _
  · split
    · exact point.updateFrequency_remembers _ _
    · split
      · refine (SavePoint.feedSan_remembers _ _ _).bind ?_
        intro fed feeds
        refine (fed.2.calculateNewBitsIfNecessary_remembers _).bind ?_
        intro counted counts
        have all := (begun.trans feeds).trans counts
        split
        · split
          · split <;> exact all
          · exact all
        · exact all
      · exact begun

private theorem Afl.enqueue_remembers (len : BitVec 32) (newBits : Nat) (cksum : BitVec 64)
    (afl : Afl) :
    Remembers afl (afl.enqueue len newBits cksum) := by
  apply Remembers.of_eq
  unfold Afl.enqueue Afl.startFrequency Afl.creditFind
  dsimp only
  split
  all_goals split <;> rfl

private theorem saveToQueue_remembers :
    Yields (fun jump => Remembers point.afl (jumpAfl jump)) (saveToQueue v hash64 outs point) := by
  have hashed := point.calculateCksumIfNecessary_remembers v hash64
  refine (SavePoint.calculateNewBitsIfNecessary_remembers _ _).bind ?_
  intro counted counts
  have queued := (hashed.trans counts).trans
    (counted.afl.enqueue_remembers counted.len counted.newBits counted.cksum)
  have called := fun handicap => queued.trans (calibrateCase_remembers v.size hash64
    (outs.calibration counted.reruns) counted.afl.queue.queuedItems handicap _)
  dsimp only
  split <;> exact called _

private theorem hangVerdict_virginBits (nonInstrumentedMode : Bool) (cov : Coverage) :
    (hangVerdict size nonInstrumentedMode cov).2.virginBits = cov.virginBits := by
  unfold hangVerdict
  split
  · rfl
  · exact hasNewBits_virgin_of_ne _ _ .tmout .bits nofun

private theorem saveHang_remembers : Remembers point.afl (jumpAfl (saveHang v outs point)) := by
  have judged : Remembers point.afl (point.afl.withCoverage (hangVerdict v.size
      point.afl.queue.nonInstrumentedMode point.afl.coverage).2) :=
    Remembers.of_eq (hangVerdict_virginBits ..)
  unfold saveHang
  dsimp only
  split
  · exact Remembers.refl _
  · split
    · exact judged
    · split
      · split
        · exact judged
        · split
          · split <;> exact judged
          · exact judged
      · exact judged

private theorem saveCrash_remembers : Remembers point.afl (jumpAfl (saveCrash v point)) := by
  unfold saveCrash
  dsimp only
  split
  · exact Remembers.refl _
  · split
    · split <;> exact Remembers.refl _
    · have judged := hasNewBits_virgin_of_ne v.size
        (point.afl.coverage.withTrace (simplifyTrace v.size point.afl.coverage.fsrv.mapSize
          point.afl.coverage.fsrv.traceBits)) .crash .bits nofun
      split <;> exact Remembers.of_eq judged

private theorem saveStep_remembers :
    Yields (fun jump => Remembers point.afl (jumpAfl jump))
      (saveStep v hash64 hash32 outs point) := by
  unfold saveStep
  split
  · exact saveEnter_remembers _ _ _ _ _
  · exact saveToQueue_remembers _ _ _ _
  · unfold maySaveFault
    split
    · exact saveHang_remembers _ _ _
    all_goals exact Remembers.refl _
  · exact saveCrash_remembers _ _

private theorem saveIfInteresting_remembers (fuel : Nat) (len : BitVec 32) (fault : Fault)
    (afl : Afl) :
    Yields (fun res => Remembers afl res.afl)
      (saveIfInteresting v hash64 hash32 outs fuel len fault afl) := by
  have stepped := saveStep_remembers v hash64 hash32 outs
  cases run : saveIfInteresting v hash64 hash32 outs fuel len fault afl with
  | error trap => trivial
  | ok res =>
    have halts : Halts (saveStep v hash64 hash32 outs) (SavePoint.start len fault afl)
      res := ⟨fuel, run⟩
    have goes : ∀ cur following, Remembers afl cur.afl →
        saveStep v hash64 hash32 outs cur = .ok (.goto following) →
        Remembers afl following.afl := by
      intro cur following remembered jumps
      have kept := stepped cur
      rw [jumps] at kept
      exact remembered.trans kept
    have ends : ∀ cur (last : SaveResult), Remembers afl cur.afl →
        saveStep v hash64 hash32 outs cur = .ok (.exit last) →
        Remembers afl last.afl := by
      intro cur last remembered exits
      have kept := stepped cur
      rw [exits] at kept
      exact remembered.trans kept
    exact @Halts.invariant _ _ _ _ _ (fun point => Remembers afl point.afl)
      (fun last => Remembers afl last.afl) goes ends halts (Remembers.refl afl)

end Save

structure ItsFrame (pre post : ItsState) : Prop where
  remembers : Remembers pre.afl post.afl
  shm : post.shm = pre.shm
  effBuf : post.effBuf = pre.effBuf

variable (s : ItsState)

theorem ItsFrame.refl : ItsFrame s s := ⟨Remembers.refl _, rfl, rfl⟩

theorem ItsFrame.trans {first second third : ItsState} (left : ItsFrame first second)
    (right : ItsFrame second third) : ItsFrame first third where
  remembers := left.remembers.trans right.remembers
  shm := right.shm.trans left.shm
  effBuf := right.effBuf.trans left.effBuf

theorem ItsState.judgeRun_frame (fault : Fault) (skipRequested : Bool) (s : ItsState) :
    ItsFrame s (s.judgeRun fault skipRequested).2 := by
  unfold ItsState.judgeRun
  split
  · exact ItsFrame.refl _
  · split
    · exact ⟨Remembers.refl _, rfl, rfl⟩
    · dsimp only
      split <;> exact ⟨Remembers.refl _, rfl, rfl⟩

theorem runTarget_frame :
    ItsFrame s { s with afl := fuzzRunTarget run s.afl } :=
  ⟨Remembers.refl _, rfl, rfl⟩

private theorem commonFuzzCmplogStuff_frame (skipRequested : Bool) (s : ItsState) :
    ItsFrame s (commonFuzzCmplogStuff run skipRequested s).2 :=
  (runTarget_frame run s).trans (ItsState.judgeRun_frame _ _ _)

section Stage

variable (v : SkimVariant) (hash64 : Buffer → BitVec 64) (hash32 : Buffer → BitVec 32)
variable (fuel : Nat) (io : FuzzIo)

section

variable (s : ItsState)

private theorem saveFinds_frame :
    Yields (ItsFrame s) (saveFinds v hash64 hash32 fuel io s) := by
  refine (saveIfInteresting_remembers _ _ _ io.saving _ io.len io.run.fault s.afl).bind ?_
  intro saved remembers
  split
  · trivial
  · exact ⟨remembers, rfl, rfl⟩

theorem commonFuzzStuff_frame :
    Yields (fun res => ItsFrame s res.2) (commonFuzzStuff v hash64 hash32 fuel io s) := by
  have judged := (runTarget_frame io.run s).trans
    (ItsState.judgeRun_frame io.run.fault io.skipRequested _)
  unfold commonFuzzStuff
  split
  · exact ItsFrame.refl _
  · dsimp only
    split
    · exact judged
    · exact (saveFinds_frame _ _ _ _ io _).bind (fun _ saved => judged.trans saved)

theorem itsFuzz_frame (status : Nat) (s : ItsState) :
    Yields (fun res => ItsFrame s res.2.2) (itsFuzz v hash64 hash32 fuel io status s) := by
  refine (commonFuzzStuff_frame _ _ _ _ io _).bind ?_
  rintro ⟨stop, _⟩ framed
  cases stop with
  | true | false => exact framed

theorem getExecChecksum_frame :
    Yields (fun res => ItsFrame s res.2) (getExecChecksum v hash64 hash32 fuel io s) := by
  refine (commonFuzzStuff_frame _ _ _ _ io _).bind ?_
  rintro ⟨stop, _⟩ framed
  cases stop with
  | true | false => exact framed

end

private theorem colorizeFrom_frame (io : ColorIo) (execCksum : BitVec 64) (stageMax remaining : Nat)
    (ranges : List ColorRange) (s : ItsState) :
    Yields (fun res => ItsFrame s res.2)
      (colorizeFrom v hash64 hash32 fuel io execCksum stageMax remaining ranges s) := by
  induction remaining generalizing ranges s with
  | zero => exact ItsFrame.refl _
  | succ remaining ih =>
    unfold colorizeFrom
    split
    · exact ItsFrame.refl _
    · refine (getExecChecksum_frame _ _ _ _ _ _).bind ?_
      rintro ⟨cksum, _⟩ framed
      cases cksum with
      | none => exact framed
      | some cksum => exact (ih _ _).mono (fun _ later => framed.trans later)

variable (io : StageIo) (len : Nat)

private theorem ItsState.acceptTaint_frame (ranges : List ColorRange) (s : ItsState) :
    ItsFrame s (s.acceptTaint len ranges).2 := by
  unfold ItsState.acceptTaint
  dsimp only
  split
  · exact ItsFrame.refl _
  · split
    · exact ItsFrame.refl _
    · exact ⟨Remembers.refl _, rfl, rfl⟩

private theorem colorization_frame (io : ColorIo) (len : Nat) (s : ItsState) :
    Yields (fun res => ItsFrame s res.2) (colorization v hash64 hash32 fuel io len s) := by
  refine (getExecChecksum_frame _ _ _ _ _ _).bind ?_
  rintro ⟨cksum, _⟩ framed
  cases cksum with
  | none => exact framed
  | some execCksum =>
    refine (colorizeFrom_frame _ _ _ _ io _ _ _ _ _).bind ?_
    rintro ⟨ranges, colored⟩ later
    cases ranges with
    | none => exact framed.trans later
    | some ranges => exact (framed.trans later).trans (colored.acceptTaint_frame _ _)

private theorem fuzzAttempts_frame (attempts : List FuzzIo) (status : Nat) (s : ItsState) :
    Yields (fun res => ItsFrame s res.2) (fuzzAttempts v hash64 hash32 fuel attempts status s) := by
  induction attempts generalizing status s with
  | nil => exact ItsFrame.refl _
  | cons io rest ih =>
    refine (itsFuzz_frame _ _ _ _ io _ _).bind ?_
    rintro ⟨stop, status, _⟩ framed
    cases stop with
    | true => exact framed
    | false => exact (ih _ _).mono (fun _ later => framed.trans later)

private theorem fuzzLocations_frame (lvl1 lvl3 transform : Bool) (locations : List Nat)
    (s : ItsState) :
    Yields (fun res => ItsFrame s res.2)
      (fuzzLocations v hash64 hash32 fuel io lvl1 lvl3 transform locations s) := by
  induction locations generalizing s with
  | nil => exact ItsFrame.refl _
  | cons k rest ih =>
    unfold fuzzLocations
    split
    · refine (fuzzAttempts_frame _ _ _ _ (io.attempts k) 0 _).bind ?_
      rintro ⟨stop, _⟩ framed
      cases stop with
      | true => exact framed
      | false => exact (ih _).mono (fun _ later => framed.trans later)
    · exact ih _

private theorem mergeWords_apply (mapSize : Nat) (save virgin : Buffer) (addr : Nat) :
    mergeWords size mapSize save virgin addr =
      if addr < size.bytes * size.words mapSize then virgin addr &&& save addr
      else virgin addr := by
  apply forUpto_blocks size.bytes _ _ (fun addr byte => byte &&& save _)
  intro idx _ mem addr
  by_cases inside : size.bytes * idx ≤ addr ∧ addr < size.bytes * idx + size.bytes
  · obtain ⟨offset, rfl⟩ : ∃ offset, addr = size.bytes * idx + offset :=
      ⟨addr - size.bytes * idx, by omega⟩
    have within : offset < size.bytes := by omega
    rw [if_pos inside, store_inside within, laneAt_and, laneAt_load _ _ _ _ within,
      laneAt_load _ _ _ _ within]
  · rw [if_neg inside, store_outside (by omega)]

/-- The merged map has lost every bit that the saved map has lost: inside the
shared map by the merge, and outside because the rollback does not reach it. -/
private theorem combineFinds_remembers (origHitCnt : Nat) (s : ItsState) :
    Yields (fun post => Remembers s.afl post.afl)
      (combineFinds v hash64 hash32 fuel io origHitCnt s) := by
  unfold combineFinds
  split
  · refine (itsFuzz_frame _ _ _ _ io.combined 0 s.rollBack).bind ?_
    rintro ⟨_, _, ran⟩ framed
    intro i bit set
    change (mergeWords v.size ran.shm.mapSize ran.effBuf ran.virginBits i).getLsbD bit = true at set
    have whole := v.size.bytes_mul_words s.shm.mapSize (Nat.dvd_trans ⟨8, rfl⟩ s.shm.aligned)
    rw [mergeWords_apply, framed.shm, framed.effBuf] at set
    change (if i < v.size.bytes * v.size.words s.shm.mapSize then
      ran.virginBits i &&& copyMap s.shm.mapSize s.effBuf s.virginBits i
      else ran.virginBits i).getLsbD bit = true at set
    rw [whole] at set
    by_cases inside : i < s.shm.mapSize
    · rw [if_pos inside, BitVec.getLsbD_and, Bool.and_eq_true, copyMap, if_pos inside] at set
      exact set.2
    · rw [if_neg inside] at set
      have rolled := framed.remembers i _ set
      change (copyMap s.shm.mapSize s.virginBits s.exBuf i).getLsbD bit = true at rolled
      rw [copyMap, if_neg inside] at rolled
      exact rolled
  · exact Remembers.refl _

variable (s : ItsState)

private theorem insertionLoop_remembers :
    Yields (fun res => Remembers s.afl res.2.afl) (insertionLoop v hash64 hash32 fuel io s) := by
  refine (fuzzLocations_frame _ _ _ _ io _ _ _ (List.range _) _).bind ?_
  rintro ⟨_, _⟩ framed
  refine (combineFinds_remembers _ _ _ _ io _ _).bind ?_
  intro combined merged
  exact framed.remembers.trans merged

private theorem logComparisons_remembers :
    Yields (fun res => Remembers s.afl res.2.afl) (logComparisons v hash64 hash32 fuel io s) := by
  have orig := commonFuzzCmplogStuff_frame io.origRun io.origSkip s
  have new := commonFuzzCmplogStuff_frame io.newRun io.newSkip
    (commonFuzzCmplogStuff io.origRun io.origSkip s).2
  unfold logComparisons
  dsimp only
  split
  · exact orig.remembers
  · split
    · exact (orig.trans new).remembers
    · exact (insertionLoop_remembers _ _ _ _ io _).mono
        (fun _ later => (orig.trans new).remembers.trans later)

private theorem inputToStateStage_remembers :
    Yields (fun res => Remembers s.afl res.2.afl)
      (inputToStateStage v hash64 hash32 fuel io len s) := by
  unfold inputToStateStage
  split
  · exact logComparisons_remembers _ _ _ _ io _
  · refine (colorization_frame _ _ _ _ io.color _ _).bind ?_
    rintro ⟨taint, _⟩ framed
    match taint with
    | none | some false => exact framed.remembers
    | some true =>
      exact (logComparisons_remembers _ _ _ _ io _).mono
        (fun _ later => framed.remembers.trans later)

end Stage

/-- The calls that write `virgin_bits` once fuzzing has started.  The first two
are preceded by a run that leaves the trace. -/
inductive CoverageCall where
  | hasNewBits (trace : Buffer) (map : VirginMap)
  | hasNewBitsUnclassified (trace : Buffer) (map : VirginMap)
  | calibrateCase (out : CalOutcome) (q : Nat) (handicap : BitVec 32)
  | inputToStateStage (fuel : Nat) (io : StageIo) (len : Nat)

section Run

variable (v : SkimVariant) (hash64 : Buffer → BitVec 64) (hash32 : Buffer → BitVec 32)

def coverageStep (s : Checked ItsState) (call : CoverageCall) : Checked ItsState := do
  let s ← s
  match call with
  | .hasNewBits trace map =>
    let traced := s.afl.coverage.withTrace trace
    return { s with afl := s.afl.withCoverage (hasNewBits v.size traced map).2 }
  | .hasNewBitsUnclassified trace map =>
    match hasNewBitsUnclassified v (s.afl.coverage.withTrace trace) map false with
    | none => .error .badAccess
    | some (_, coverage, _) => return { s with afl := s.afl.withCoverage coverage }
  | .calibrateCase out q handicap =>
    return { s with
      afl := (calibrateCase v.size hash64 out q handicap s.afl).2 }
  | .inputToStateStage fuel io len =>
    let (_, post) ← inputToStateStage v hash64 hash32 fuel io len s
    return post

private theorem coverageStep_remembers (call : CoverageCall) (s : ItsState) :
    Yields (fun post => Remembers s.afl post.afl) (coverageStep v hash64 hash32 (.ok s) call) := by
  cases call with
  | hasNewBits trace map =>
    exact hasNewBits_contained v.size (s.afl.coverage.withTrace _) _
  | hasNewBitsUnclassified trace map =>
    unfold coverageStep
    dsimp only [checked_ok_bind]
    split
    · trivial
    · rename_i answers
      exact hasNewBitsUnclassified_contained answers
  | calibrateCase out q handicap =>
    exact calibrateCase_remembers v.size _ _ q _ s.afl
  | inputToStateStage fuel io len =>
    exact (inputToStateStage_remembers _ _ _ _ io _ _).bind (fun _ kept => kept)

/-- Across any sequence of these calls the virgin map only loses bits. -/
theorem virgin_bits_contained_of_run (start : ItsState) (calls : List CoverageCall) :
    Yields (fun final => Contained final.virginBits start.virginBits)
      (runFrom (coverageStep v hash64 hash32) (.ok start) calls) := by
  have stepKept : ∀ s call, Yields (fun post => Remembers start.afl post.afl) s →
      Yields (fun post => Remembers start.afl post.afl) (coverageStep v hash64 hash32 s call) := by
    intro s call kept
    cases s with
    | error trap => trivial
    | ok s =>
      exact (coverageStep_remembers _ _ _ _ _).mono (fun _ later => Remembers.trans kept later)
  exact runFrom_preserves _ stepKept (.ok _) (Remembers.refl start.afl) _

end Run

def crashingRun : FuzzIo :=
  ⟨4, ⟨.crash, fun _ => 0, false⟩, false, ⟨fun _ => .ok, fun _ => ⟨⟨.ok, fun _ => 0, false⟩, 4⟩,
      fun _ => ⟨fun _ => ⟨.ok, fun _ => 0, false⟩, 0⟩⟩⟩

def crashingStart : ItsState where
  afl := Afl.initial (Coverage.initial 64 64)
    { Queue.empty .explore false false with nonInstrumentedMode := true } ⟨false, false, false⟩
    20 1000
  shm := ⟨64, ⟨1, rfl⟩⟩
  exBuf _ := 0
  effBuf _ := 0
  subseqTmouts := 0
  curSkippedItems := 0
  queuedDiscovered := 0
  colorizeSuccess := 0
  cmplogLvl := 2
  cmplogEnableTransform := false
  colorized := 0
  taint := true
  cmplogColorinput := true

def crashingStage : StageIo where
  color := ⟨fun _ => crashingRun, fun _ => false⟩
  origRun := ⟨.ok, fun _ => 0, false⟩
  origSkip := false
  newRun := ⟨.ok, fun _ => 0, false⟩
  newSkip := false
  headers k := ⟨if k = 0 then 1 else 0, .ins⟩
  passStats _ := ⟨0, 0⟩
  attempts _ := [crashingRun, crashingRun, { crashingRun with skipRequested := true }]
  combined := crashingRun

/-- Two replacements crash and the third one is skipped, which leaves the loop.  The
combined run starts from the map as it was before and crashes as well. -/
theorem virgin_bits_contained_of_run_combined :
    let post := runFrom (coverageStep .plain64 (fun _ => 0) (fun _ => 0)) (.ok crashingStart)
      [.inputToStateStage 4 crashingStage 4]
    post.toOption.map (fun final => final.afl.savedCrashes) = some 3 ∧
      Yields (fun final => Contained final.virginBits crashingStart.virginBits) post :=
  ⟨by decide +kernel, virgin_bits_contained_of_run .plain64 (fun _ => 0) (fun _ => 0) crashingStart
    [.inputToStateStage 4 crashingStage 4]⟩

end AflPlusPlus
