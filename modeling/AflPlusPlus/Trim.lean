/-
Trimming of a queue entry.

The default trimmer removes chunks of an input as long as the classified trace
keeps its checksum.  Lengths stay below `MAX_FILE`, so the `u32` arithmetic of
the chunk positions does not wrap and is written over `Nat`.
-/

import AflPlusPlus.Calibration

namespace AflPlusPlus

open Machine

def trimMinBytes : Nat := 4

def trimStartSteps : Nat := 16

def trimEndSteps : Nat := 1024

structure TrimState where
  afl : Afl
  fault : Fault
  needsWrite : Bool
  lenP2 : Nat
  trimExec : Nat

def QueueEntry.shorten (avail : Nat) (entry : QueueEntry) : QueueEntry :=
  { entry with len := entry.len - BitVec.ofNat 32 avail }

/-- The deletion had no impact on the trace and is made permanent. -/
def TrimState.remove (q avail : Nat) (s : TrimState) : TrimState :=
  let shorter := s.afl.modifyEntry q (QueueEntry.shorten avail)
  let fsrv := shorter.coverage.fsrv
  { s with
    afl :=
      if s.needsWrite then shorter
      else { shorter with
        cleanTrace := copyMap fsrv.mapSize shorter.cleanTrace fsrv.traceBits }
    needsWrite := true
    lenP2 := (nextPow2 ((shorter.queue.queueBuf q).len.setWidth 64)).toNat }

/-- The inner loop for one chunk length.  Every round either removes a byte or
moves on, so as many rounds as the entry has bytes are enough.  The flag tells
a jump to `abort_trimming`. -/
def trimChunks (size : WordSize) (hash64 : Buffer → BitVec 64) (runs : Nat → TargetRun)
    (q removeLen : Nat) : Nat → Nat → TrimState → Bool × TrimState
  | 0, _, s => (false, s)
  | rounds + 1, removePos, s =>
    let len := (s.afl.queue.queueBuf q).len.toNat
    if removePos < len then
      let run := runs s.trimExec
      let ran := fuzzRunTarget run s.afl
      if ran.stopSoon ∨ run.fault = .error then
        (true, { s with afl := ran, fault := run.fault })
      else
        let traced :=
          { s with
            afl := ran.classify size
            fault := run.fault
            trimExec := s.trimExec + 1 }
        if hash64 traced.afl.coverage.fsrv.traceBits = (traced.afl.queue.queueBuf q).execCksum then
          trimChunks size hash64 runs q removeLen rounds removePos
            (traced.remove q (min removeLen (len - removePos)))
        else trimChunks size hash64 runs q removeLen rounds (removePos + removeLen) traced
    else (false, s)

/-- The outer loop: `remove_len` is a `u32` that is halved every time. -/
def trimPasses (size : WordSize) (hash64 : Buffer → BitVec 64) (runs : Nat → TargetRun)
    (q : Nat) : Nat → Nat → TrimState → Bool × TrimState
  | 0, _, s => (false, s)
  | rounds + 1, removeLen, s =>
    if max (s.lenP2 / trimEndSteps) trimMinBytes ≤ removeLen then
      match trimChunks size hash64 runs q removeLen (s.afl.queue.queueBuf q).len.toNat
          removeLen s with
      | (true, stopped) => (true, stopped)
      | (false, passed) => trimPasses size hash64 runs q rounds (removeLen >>> 1) passed
    else (false, s)

def Afl.scoreTrimmed (q : Nat) (afl : Afl) : Afl :=
  let restored := afl.withCoverage (afl.coverage.withTrace
    (copyMap afl.coverage.fsrv.mapSize afl.coverage.fsrv.traceBits afl.cleanTrace))
  restored.withQueue (updateBitmapScore restored.coverage.fsrv q true restored.queue)

def trimLoops (size : WordSize) (hash64 : Buffer → BitVec 64) (runs : Nat → TargetRun) (q : Nat)
    (afl : Afl) : Bool × TrimState :=
  let lenP2 := (nextPow2 ((afl.queue.queueBuf q).len.setWidth 64)).toNat
  trimPasses size hash64 runs q 32 (max (lenP2 / trimStartSteps) trimMinBytes)
    { afl := afl, fault := .ok, needsWrite := false, lenP2 := lenP2, trimExec := 0 }

def trimCase (size : WordSize) (hash64 : Buffer → BitVec 64) (runs : Nat → TargetRun) (q : Nat)
    (afl : Afl) : Fault × Afl :=
  if (afl.queue.queueBuf q).len.toNat < 5 then (.ok, afl)
  else
    match trimLoops size hash64 runs q afl with
    | (true, stopped) => (stopped.fault, stopped.afl)
    | (false, ended) =>
      (ended.fault, if ended.needsWrite then ended.afl.scoreTrimmed q else ended.afl)

variable (size : WordSize) (hash64 : Buffer → BitVec 64) (runs : Nat → TargetRun) {q : Nat}
  {afl : Afl}

private theorem trimCase_of_short (short : (afl.queue.queueBuf q).len.toNat < 5) :
    trimCase size hash64 runs q afl = (.ok, afl) := by
  exact if_pos short

private theorem trimCase_of_long (long : ¬(afl.queue.queueBuf q).len.toNat < 5) :
    trimCase size hash64 runs q afl = ((trimLoops size hash64 runs q afl).2.fault,
        if (trimLoops size hash64 runs q afl).1 = false ∧
            (trimLoops size hash64 runs q afl).2.needsWrite = true then
          (trimLoops size hash64 runs q afl).2.afl.scoreTrimmed q
        else (trimLoops size hash64 runs q afl).2.afl) := by
  unfold trimCase
  rw [if_neg long]
  rcases trimLoops size hash64 runs q afl with ⟨aborted, ended⟩
  cases aborted with
  | true | false => simp

structure TrimFrame (q : Nat) (pre post : Afl) : Prop where
  rest : post = { pre with
    coverage := post.coverage
    queue := post.queue
    stopSoon := post.stopSoon
    cleanTrace := post.cleanTrace }
  mapSize : post.coverage.fsrv.mapSize = pre.coverage.fsrv.mapSize
  realMapSize : post.coverage.fsrv.realMapSize = pre.coverage.fsrv.realMapSize
  queue : EntryFrame q pre.queue post.queue
  entry : post.queue.queueBuf q = { pre.queue.queueBuf q with
    len := (post.queue.queueBuf q).len }

theorem TrimFrame.refl (q : Nat) (afl : Afl) : TrimFrame q afl afl :=
  ⟨rfl, rfl, rfl, EntryFrame.refl q afl.queue, rfl⟩

theorem TrimFrame.trans {first second third : Afl} (left : TrimFrame q first second)
    (right : TrimFrame q second third) : TrimFrame q first third where
  rest := by rw [right.rest, left.rest]
  mapSize := right.mapSize.trans left.mapSize
  realMapSize := right.realMapSize.trans left.realMapSize
  queue := left.queue.trans right.queue
  entry := by rw [right.entry, left.entry]

def classifiedTrace (size : WordSize) (fsrv : Fsrv) (run : TargetRun) : Buffer :=
  (classifyCounts size { fsrv with traceBits := run.trace }).traceBits

variable (run : TargetRun)

theorem TrimFrame.classifiedTrace {pre post : Afl} (frame : TrimFrame q pre post)
    (size : WordSize) :
    classifiedTrace size post.coverage.fsrv run = classifiedTrace size pre.coverage.fsrv run := by
  unfold AflPlusPlus.classifiedTrace
  rw [frame.mapSize, frame.realMapSize]

section Progress

variable (size : WordSize) (hash64 : Buffer → BitVec 64) (runs : Nat → TargetRun) (q : Nat)

/-- Some run leaves a trace with the checksum that the entry has on record. -/
def TrimMatch (afl : Afl) : Prop :=
  ∃ k, hash64 (classifiedTrace size afl.coverage.fsrv (runs k)) = (afl.queue.queueBuf q).execCksum

/-- What is known at any point of a trimming that began in `start`. -/
structure TrimProgress (start : Afl) (s : TrimState) : Prop where
  frame : TrimFrame q start s.afl
  matched : s.needsWrite = true → TrimMatch size hash64 runs q start

variable {size hash64 runs q} {start : Afl}

theorem fuzzRunTarget_trim (afl : Afl) :
    TrimFrame q afl (fuzzRunTarget run afl) :=
  ⟨rfl, rfl, rfl, EntryFrame.refl q afl.queue, rfl⟩

theorem Afl.classify_trim (size : WordSize) (afl : Afl) : TrimFrame q afl (afl.classify size) :=
  ⟨rfl, classifyCounts_mapSize size _, classifyCounts_realMapSize size _,
    EntryFrame.refl q afl.queue, rfl⟩

theorem TrimState.remove_trim (avail : Nat) (s : TrimState) :
    TrimFrame q s.afl (s.remove q avail).afl := by
  have shortened : ∀ afl : Afl, afl.queue = s.afl.queue.modify q (QueueEntry.shorten avail) →
      EntryFrame q s.afl.queue afl.queue ∧
        afl.queue.queueBuf q = { s.afl.queue.queueBuf q with
          len := (afl.queue.queueBuf q).len } := by
    intro afl queue
    rw [queue, Queue.modify_self]
    exact ⟨EntryFrame.modify q _ _, rfl⟩
  unfold TrimState.remove
  split <;> exact ⟨rfl, rfl, rfl, (shortened _ rfl).1, (shortened _ rfl).2⟩

def TrimState.traced (size : WordSize) (runs : Nat → TargetRun) (s : TrimState) : TrimState :=
  { s with
    afl := (fuzzRunTarget (runs s.trimExec) s.afl).classify size
    fault := (runs s.trimExec).fault
    trimExec := s.trimExec + 1 }

structure TrimKeeps (size : WordSize) (hash64 : Buffer → BitVec 64) (runs : Nat → TargetRun)
    (q : Nat) (holds : TrimState → Prop) : Prop where
  stopped : ∀ s, holds s → holds { s with
    afl := fuzzRunTarget (runs s.trimExec) s.afl
    fault := (runs s.trimExec).fault }
  traced : ∀ s, holds s → holds (s.traced size runs)
  removed : ∀ s avail, holds s → avail ≤ (s.afl.queue.queueBuf q).len.toNat →
    hash64 (s.traced size runs).afl.coverage.fsrv.traceBits = (s.afl.queue.queueBuf q).execCksum →
    holds ((s.traced size runs).remove q avail)

section

variable {holds : TrimState → Prop} (keeps : TrimKeeps size hash64 runs q holds)

include keeps

theorem TrimKeeps.chunks (removeLen rounds removePos : Nat) (s : TrimState) (start : holds s) :
    holds (trimChunks size hash64 runs q removeLen rounds removePos s).2 := by
  induction rounds generalizing removePos s with
  | zero => exact start
  | succ rounds ih =>
    unfold trimChunks
    dsimp only
    split
    · split
      · exact keeps.stopped _ start
      · split
        · rename_i same
          have avail : min removeLen ((s.afl.queue.queueBuf q).len.toNat - removePos) ≤
              (s.afl.queue.queueBuf q).len.toNat :=
            (Nat.min_le_right _ _).trans (Nat.sub_le _ _)
          exact ih _ _ (keeps.removed _ _ start avail same)
        · exact ih _ _ (keeps.traced _ start)
    · exact start

theorem TrimKeeps.passes (rounds removeLen : Nat) (s : TrimState)
    (start : holds s) : holds (trimPasses size hash64 runs q rounds removeLen s).2 := by
  induction rounds generalizing removeLen s with
  | zero => exact start
  | succ rounds ih =>
    have chunk := keeps.chunks removeLen (s.afl.queue.queueBuf q).len.toNat removeLen _ start
    unfold trimPasses
    split
    · split
      · rename_i stopped aborted
        rw [aborted] at chunk
        exact chunk
      · rename_i passed finished
        rw [finished] at chunk
        exact ih _ _ chunk
    · exact start

end

theorem TrimState.traced_trim (s : TrimState) :
    TrimFrame q s.afl (s.traced size runs).afl :=
  (fuzzRunTarget_trim (runs s.trimExec) s.afl).trans (Afl.classify_trim size _)

theorem TrimProgress.keeps (start : Afl) :
    TrimKeeps size hash64 runs q (TrimProgress size hash64 runs q start) where
  stopped := by
    intro s progress
    exact ⟨progress.frame.trans (fuzzRunTarget_trim (runs s.trimExec) s.afl), progress.matched⟩
  traced := by
    intro s progress
    exact ⟨progress.frame.trans s.traced_trim, progress.matched⟩
  removed := by
    intro s avail progress _ same
    constructor
    · exact (progress.frame.trans s.traced_trim).trans (TrimState.remove_trim _ _)
    · intro _
      refine ⟨s.trimExec, ?_⟩
      rw [progress.frame.entry] at same
      rw [← progress.frame.classifiedTrace _]
      exact same

end Progress

theorem TrimKeeps.loops {size : WordSize} {hash64 : Buffer → BitVec 64} {runs : Nat → TargetRun}
    {q : Nat} {holds : TrimState → Prop} (keeps : TrimKeeps size hash64 runs q holds) (afl : Afl)
    (start : ∀ lenP2, holds
      { afl := afl, fault := .ok, needsWrite := false, lenP2 := lenP2, trimExec := 0 }) :
    holds (trimLoops size hash64 runs q afl).2 :=
  keeps.passes 32 _ _ (start _)

theorem TrimProgress.loops (q : Nat) (afl : Afl) :
    TrimProgress size hash64 runs q afl (trimLoops size hash64 runs q afl).2 := by
  apply (TrimProgress.keeps _).loops
  intro lenP2
  exact ⟨TrimFrame.refl q _, nofun⟩

/-- Trimming scores the entry only when it has removed something, and then some
run has left a trace with the recorded checksum. -/
theorem trimCase_cases (q : Nat) (afl : Afl) :
    TrimFrame q afl (trimCase size hash64 runs q afl).2 ∨
      TrimMatch size hash64 runs q afl ∧ ∃ fsrv trimmed, TrimFrame q afl trimmed ∧
        (trimCase size hash64 runs q afl).2.coverage.fsrv.mapSize = afl.coverage.fsrv.mapSize ∧
        (trimCase size hash64 runs q afl).2.queue =
          updateBitmapScore fsrv q true trimmed.queue := by
  by_cases short : (afl.queue.queueBuf q).len.toNat < 5
  · rw [trimCase_of_short _ _ _ short]
    exact .inl (TrimFrame.refl q _)
  · have progress := TrimProgress.loops size hash64 runs q afl
    rw [trimCase_of_long _ _ _ short]
    split
    · rename_i wrote
      exact .inr ⟨progress.matched wrote.2, _, _, progress.frame, progress.frame.mapSize, rfl⟩
    · exact .inl progress.frame

end AflPlusPlus
