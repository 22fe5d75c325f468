/-
What the target receives, and which input IJON credits a run to.

An input passes through the post-processors of the custom mutators and is fitted to the
length limits.  A post-processor may work in the memory it is given, set the result
pointer or leave it as it is.  Trimming delivers its inputs on another way, without a copy.
-/

import AflPlusPlus.Common
import AflPlusPlus.Machine.GuardedRun
import AflPlusPlus.Machine.RingBuffer

namespace AflPlusPlus.TestcaseDelivery

open Machine List

structure Setup where
  minLength : Nat
  maxLength : Nat
  useShmemFuzz : Bool

/-- What a post-processor is called with: the memory, `new_mem`, `new_size`, and what `new_buf`
holds before. -/
structure Call where
  memory : Buffer
  newMem : Nat
  newSize : Int
  newBuf : Option Nat

structure Answer where
  memory : Buffer
  outcome : PostOutcome Nat

abbrev Hook := Call → Answer

def Call.next (call : Call) (answer : Answer) : Call :=
  let cur := answer.outcome.follow (call.newMem, call.newSize)
  ⟨answer.memory, cur.1, cur.2, some cur.1⟩

/-- The buffer and the length of the caller after the call, and what the target got. -/
structure Delivered where
  memory : Buffer
  mem : Nat
  len : Nat
  testcase : List Byte

/-- An input and the scratch buffer for a copy. -/
structure Input where
  memory : Buffer
  mem : Nat
  len : Nat
  scratch : Nat

def Input.bytes (input : Input) : List Byte := block input.memory input.mem input.len

def Input.call (input : Input) : Call := ⟨input.memory, input.mem, input.len, none⟩

variable (cfg : Setup)

def fitted (fix : Bool) (size : Nat) : Nat :=
  if size < cfg.minLength ∧ ¬fix then cfg.minLength
  else if size > cfg.maxLength then cfg.maxLength
  else size

/-- The copy to the scratch buffer, with zeroes behind the valid bytes. -/
def copied (memory : Buffer) (start valid scratch size : Nat) : Buffer := fun addr =>
  if scratch ≤ addr ∧ addr < scratch + size then
    if addr < scratch + valid then memory (start + (addr - scratch)) else 0
  else memory addr

/-- The data is fitted, copied where it has moved or grown, and handed to the target. -/
def handOver (fix : Bool) (input : Input) (memory : Buffer) (newMem valid : Nat) : Delivered :=
  let size := fitted cfg fix valid
  let copies := (newMem ≠ input.mem ∨ valid < size) ∧ 0 < size
  let memory := if copies then copied memory newMem valid input.scratch size else memory
  let mem := if copies then input.scratch else input.mem
  ⟨memory, mem, size, aflFsrvWriteToTestcase cfg.useShmemFuzz (block memory mem size)⟩

/-- `write_to_testcase`; a custom mutator may be without a post-processor.  `none`: nothing is
delivered, and the length is 0. -/
def writeToTestcase (muts : List (Option Hook)) (fix : Bool) (input : Input) :
    Option Delivered :=
  if muts = [] then some (handOver cfg fix input input.memory input.mem input.len)
  else
    let final := (muts.filterMap id).foldl (fun call hook => call.next (hook call)) input.call
    if final.newSize = 0 then
      if fix then some (handOver cfg fix input final.memory final.newMem input.len) else none
    else some (handOver cfg fix input final.memory final.newMem final.newSize.toNat)

/-- What the hooks answer in a run of the chain. -/
def answers : List Hook → Call → List Answer
  | [], _ => []
  | hook :: rest, call => hook call :: answers rest (call.next (hook call))

/-- The target gets the bytes, and the caller's buffer and length describe them. -/
def Hands (res : Option Delivered) (bytes : List Byte) : Prop :=
  ∃ done, res = some done ∧ done.testcase = bytes ∧ block done.memory done.mem done.len = bytes

section Fitting

variable (cfg : Setup) (fix : Bool)

@[simp] theorem length_block (memory : Buffer) (start size : Nat) :
    (block memory start size).length = size := by
  simp [block]

theorem length_fitLength (bytes : List Byte) :
    (fitLength cfg.minLength cfg.maxLength fix bytes).length = fitted cfg fix bytes.length := by
  unfold fitLength fitted
  split
  · simp
    omega
  · split
    · rw [length_take]
      omega
    · rfl

private theorem getElem_fitLength (memory : Buffer) (start valid k : Nat) (within :
    k < (fitLength cfg.minLength cfg.maxLength fix (block memory start valid)).length) :
    (fitLength cfg.minLength cfg.maxLength fix (block memory start valid))[k] =
      if k < valid then memory (start + k) else 0 := by
  revert within
  unfold fitLength
  rw [length_block]
  split
  · intro _
    simp [getElem_append, block]
  · split
    · intro within
      rw [length_take, length_block] at within
      simp [block, show k < valid by omega]
    · intro within
      rw [length_block] at within
      simp [block, within]

private theorem block_handOver (input : Input) (memory : Buffer) (newMem valid : Nat) :
    block (handOver cfg fix input memory newMem valid).memory
        (handOver cfg fix input memory newMem valid).mem
        (handOver cfg fix input memory newMem valid).len =
      fitLength cfg.minLength cfg.maxLength fix (block memory newMem valid) := by
  refine ext_getElem ?_ fun k first second => ?_
  · rw [length_fitLength, length_block, length_block]
    rfl
  rw [getElem_fitLength]
  have below : k < fitted cfg fix valid := by rwa [length_block] at first
  simp only [block, getElem_map, getElem_range]
  unfold handOver
  dsimp only
  by_cases copies : (newMem ≠ input.mem ∨ valid < fitted cfg fix valid) ∧ 0 < fitted cfg fix valid
  · rw [if_pos copies, if_pos copies, copied, if_pos (by omega), Nat.add_sub_cancel_left]
    exact if_congr (by omega) rfl rfl
  · have same : newMem = input.mem ∧ fitted cfg fix valid ≤ valid := by omega
    rw [if_neg copies, if_neg copies, if_pos (by omega), same.1]

/-- The bytes arrive as they should unless shared memory cuts them. -/
theorem hands_iff (input : Input) (memory : Buffer) (newMem valid : Nat) (bytes : List Byte) :
    Hands (some (handOver cfg fix input memory newMem valid)) bytes ↔
      fitLength cfg.minLength cfg.maxLength fix (block memory newMem valid) = bytes ∧
        (cfg.useShmemFuzz = true → bytes.length ≤ maxFile) := by
  have given := block_handOver cfg fix input memory newMem valid
  have testcase : (handOver cfg fix input memory newMem valid).testcase =
      aflFsrvWriteToTestcase cfg.useShmemFuzz
        (fitLength cfg.minLength cfg.maxLength fix (block memory newMem valid)) := by
    rw [← given]
    rfl
  constructor
  · rintro ⟨_, ⟨⟩, got, described⟩
    rw [given] at described
    rw [testcase, described] at got
    refine ⟨described, fun shared => ?_⟩
    rw [aflFsrvWriteToTestcase, if_pos shared] at got
    have lengths := congrArg length got
    rw [length_take] at lengths
    omega
  · rintro ⟨described, short⟩
    refine ⟨_, rfl, ?_, given.trans described⟩
    rw [testcase, described]
    unfold aflFsrvWriteToTestcase
    split
    case isTrue shared => exact take_of_length_le (short shared)
    · rfl

end Fitting

section Writing

variable {cfg : Setup} {muts : List (Option Hook)} {fix : Bool} {input : Input}

end Writing

def refuse : Hook := fun call => ⟨call.memory, 0, none⟩

/-- A delivery, with the memory at that time. -/
inductive Delivery
  | write (fix : Bool) (input : Input)
  | gap (memory : Buffer) (mem len skipAt skipLen : Nat)

/-- The remembered input, and for every run what was handed on and what was delivered. -/
structure Ijon where
  curInput : Nat
  curInputLen : Nat
  credited : List (List Byte × List Byte)

def fuzzRunTarget (memory : Buffer) (testcase : List Byte) (ijon : Ijon) : Ijon :=
  if ijon.curInputLen = 0 then ijon
  else
    { ijon with
      credited := (block memory ijon.curInput ijon.curInputLen, testcase) :: ijon.credited }

/-- Trimming does not touch the remembered input. -/
def deliver (ijon : Ijon) : Delivery → Ijon
  | .write fix input =>
    match writeToTestcase cfg [] fix input with
    | none => ijon
    | some done => fuzzRunTarget done.memory done.testcase
        { ijon with curInput := done.mem, curInputLen := done.len }
  | .gap memory mem len skipAt skipLen =>
    fuzzRunTarget memory (block memory mem skipAt ++
      block memory (mem + skipAt + skipLen) (len - skipAt - skipLen)) ijon

def Ijon.start : Ijon := ⟨0, 0, []⟩

def Ijon.Fair (ijon : Ijon) : Prop := ∀ run ∈ ijon.credited, run.1 = run.2

/-- Shared memory cuts nothing off, and no input is remembered when trimming starts. -/
def Creditable (ijon : Ijon) : Delivery → Prop
  | .write fix input => cfg.useShmemFuzz = true → fitted cfg fix input.len ≤ maxFile
  | .gap .. => ijon.curInputLen = 0

theorem Ijon.Fair.run {ijon : Ijon} (fair : ijon.Fair) {memory : Buffer} {testcase : List Byte}
    (same : ijon.curInputLen ≠ 0 → block memory ijon.curInput ijon.curInputLen = testcase) :
    (fuzzRunTarget memory testcase ijon).Fair := by
  unfold fuzzRunTarget
  split
  · exact fair
  case isFalse some =>
    intro run member
    rcases mem_cons.1 member with rfl | earlier
    · exact same some
    · exact fair _ earlier

/-- As long as inputs fit the shared memory and trimming comes before every other delivery, a
run is credited to the bytes that were delivered for it. -/
theorem runs_credited (cfg : Setup) (deliveries : List Delivery)
    (creditable : Along (deliver cfg) (Creditable cfg) Ijon.start deliveries) :
    (runFrom (deliver cfg) Ijon.start deliveries).Fair := by
  refine runFrom_invariant Ijon.Fair ?_ _ (fun _ member => absurd member not_mem_nil) _ creditable
  intro ijon delivery fair creditable
  cases delivery with
  | write fix input =>
    have arrives := (hands_iff cfg fix input input.memory input.mem input.len _).2
      ⟨rfl, fun shared => by rw [length_fitLength, length_block]; exact creditable shared⟩
    obtain ⟨_, ⟨⟩, testcase, given⟩ := arrives
    refine Ijon.Fair.run ?_ (fun _ => given.trans testcase.symm)
    exact fair
  | gap memory mem len skipAt skipLen => exact fair.run (fun some => absurd creditable some)

def digits : Buffer := fun addr => BitVec.ofNat 8 (48 + addr)

/-- Trimming, then an input that has to be padded and one that has to be cut. -/
def trimFirst : List Delivery :=
  [.gap digits 0 5 1 2, .write false ⟨digits, 0, 2, 100⟩, .write false ⟨digits, 0, 9, 100⟩]

theorem runs_credited_trim_first :
    Along (deliver ⟨4, 6, true⟩) (Creditable ⟨4, 6, true⟩) Ijon.start trimFirst ∧
      (runFrom (deliver ⟨4, 6, true⟩) Ijon.start trimFirst).Fair := by
  have creditable : Along (deliver ⟨4, 6, true⟩) (Creditable ⟨4, 6, true⟩) Ijon.start trimFirst :=
    ⟨rfl, fun _ => by decide, fun _ => by decide, trivial⟩
  exact ⟨creditable, runs_credited _ _ creditable⟩

/-- After a run of the bytes 01234 the run of 034 is credited to them. -/
theorem gap_credited_to_earlier :
    ¬(runFrom (deliver ⟨1, 1048576, true⟩) Ijon.start
      [.write false ⟨digits, 0, 5, 100⟩, .gap digits 0 5 1 2]).Fair := by
  unfold Ijon.Fair
  decide

end AflPlusPlus.TestcaseDelivery
