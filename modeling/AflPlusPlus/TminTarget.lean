/-
One run of the target in afl-tmin.

A candidate goes through the `post_process` hooks, and the outcome is handed over by a
`fuzz_send` hook or in the test case that the target reads.  The target then runs,
whatever happened.
-/

import AflPlusPlus.Calibration
import AflPlusPlus.Machine.RingBuffer
import AflPlusPlus.SyncFuzzers

namespace AflPlusPlus.Tmin

open Machine

/-- What a hook leaves in `*out_buf`.  A hook that works in place answers with the
buffer it was given. -/
inductive OutBuf where
  | untouched
  | null
  | input (content : Buffer)
  | own (content : Buffer)

structure HookReturn where
  outBuf : OutBuf
  newSize : Int

/-- The three hooks a custom mutator needs for trimming.  `post_trim` is told
whether the candidate was accepted and answers with the next step. -/
structure TrimHooks (Data : Type) where
  initTrim : Data → List Byte → Int × Data
  trim : Data → List Byte × Data
  postTrim : Data → Bool → Int × Data

structure CustomMutator (Data : Type) where
  data : Data
  trimHooks : Option (TrimHooks Data)
  postProcess : Option (Data → List Byte → HookReturn × Data)
  fuzzSend : Option (Data → List Byte → Data)

variable {Data : Type}

def hasSender (muts : List (CustomMutator Data)) : Bool :=
  muts.any (fun el => el.fuzzSend.isSome)

/-- A pointer, by what it points to and whether it is the candidate's `mem`. -/
structure Pointer where
  isMem : Bool
  content : Buffer

def Pointer.bytes (ptr : Pointer) (size : Nat) : List Byte :=
  block ptr.content 0 size

def Pointer.ofCandidate (mem : List Byte) : Pointer :=
  { isMem := true, content := fun i => mem.getD i 0 }

@[simp] theorem length_bytes (ptr : Pointer) (size : Nat) :
    (ptr.bytes size).length = size := by
  simp [Pointer.bytes, block]

theorem bytes_ofCandidate (mem : List Byte) :
    (Pointer.ofCandidate mem).bytes mem.length = mem := by
  apply List.ext_getElem
  · exact length_bytes _ _
  · intro i _ within
    simp [Pointer.bytes, Pointer.ofCandidate, block, within]

/-- `new_buf` after the call.  It is set to `NULL` before the first hook only. -/
def OutBuf.write (newMem : Pointer) (newBuf : Option Pointer) : OutBuf → Option Pointer
  | .untouched => newBuf
  | .null => none
  | .input content => some { newMem with content := content }
  | .own content => some { isMem := false, content := content }

/-- The hooks in turn.  No result: the function returns before anything is sent. -/
def postProcessAll : List (CustomMutator Data) → Pointer → Nat → Option Pointer →
    List (CustomMutator Data) × Option (Pointer × Nat)
  | [], newMem, newSize, _ => ([], some (newMem, newSize))
  | el :: rest, newMem, newSize, newBuf =>
    match el.postProcess with
    | none =>
      let (rest, processed) := postProcessAll rest newMem newSize newBuf
      (el :: rest, processed)
    | some hook =>
      let (answer, data) := hook el.data (newMem.bytes newSize)
      match PostOutcome.accepted ⟨answer.newSize, answer.outBuf.write newMem newBuf⟩ with
      | none => ({ el with data := data } :: rest, none)
      | some (newBuf, newSize) =>
        let (rest, processed) := postProcessAll rest newBuf newSize.toNat (some newBuf)
        ({ el with data := data } :: rest, processed)

def CustomMutator.aflCustomFuzzSend (el : CustomMutator Data) (mem : List Byte) :
    CustomMutator Data :=
  match el.fuzzSend with
  | none => el
  | some send => { el with data := send el.data mem }

def fuzzSendAll (muts : List (CustomMutator Data)) (mem : List Byte) :
    List (CustomMutator Data) :=
  muts.map (fun el => el.aflCustomFuzzSend mem)

structure Settings where
  hangMode : Bool
  exactMode : Bool
  edgesOnly : Bool
  useShmemFuzz : Bool
  mapSize : Nat
  maskBitmap : Option Buffer

structure TminState (Data : Type) where
  mutators : List (CustomMutator Data)
  /-- What the shared memory or the file holds. -/
  testcase : List Byte
  crashMode : Bool
  origCksum : BitVec 64

variable (cfg : Settings) (hash64 : Buffer → BitVec 64)

/-- The second component is what the `fuzz_send` hooks were given, if any was called.
A processed buffer of a hook's own is copied to `static u8 buf[MAX_FILE]`. -/
def preAflFsrvWriteToTestcase (s : TminState Data) (mem : List Byte) :
    Checked (TminState Data × Option (List Byte)) :=
  match postProcessAll s.mutators (.ofCandidate mem) mem.length none with
  | (muts, none) => .ok ({ s with mutators := muts }, none)
  | (muts, some (newMem, newSize)) =>
    if newMem.isMem = false ∧ maxFile < newSize then .error .badAccess
    else
      -- `u32 len`
      let mem := newMem.bytes (newSize % 2 ^ 32)
      if hasSender muts then
        .ok ({ s with mutators := fuzzSendAll muts mem }, some mem)
      else
        .ok ({ s with
          mutators := muts, testcase := aflFsrvWriteToTestcase cfg.useShmemFuzz mem }, none)

/-- `count_class_lookup` of `afl-tmin.c` -/
def countClassLookup (count : Byte) : Byte :=
  if count.toNat ≤ 2 then count
  else if count.toNat = 3 then 4
  else if count.toNat ≤ 7 then 8
  else if count.toNat ≤ 15 then 16
  else if count.toNat ≤ 31 then 32
  else if count.toNat ≤ 127 then 64
  else 128

def Settings.classifyCounts (cfg : Settings) (traceBits : Buffer) : Buffer := fun i =>
  if cfg.mapSize ≤ i then traceBits i
  else if cfg.edgesOnly then (if traceBits i = 0 then 0 else 1)
  else countClassLookup (traceBits i)

/-- `apply_mask`, in words of four cells. -/
def Settings.applyMask (cfg : Settings) (traceBits : Buffer) : Buffer :=
  match cfg.maskBitmap with
  | none => traceBits
  | some mask => fun i =>
    if i < cfg.mapSize / 4 * 4 then traceBits i &&& ~~~ (mask i) else traceBits i

structure Outcome where
  ret : Fault
  traceBits : Buffer
  stopSoon : Bool

def Settings.cksum (cfg : Settings) (hash64 : Buffer → BitVec 64) (out : Outcome) :
    BitVec 64 :=
  hash64 (cfg.applyMask (cfg.classifyCounts out.traceBits))

structure Judgement where
  kept : Bool
  crashMode : Bool
  origCksum : BitVec 64
  deriving DecidableEq

def compareCksum (out : Outcome) (firstRun crashMode : Bool) (origCksum : BitVec 64) :
    Checked Judgement :=
  if out.ret = .noinst then .error .aborted
  else
    let cksum := cfg.cksum hash64 out
    let origCksum := if firstRun then cksum else origCksum
    .ok { kept := decide (origCksum = cksum), crashMode := crashMode, origCksum := origCksum }

def judge (out : Outcome) (firstRun crashMode : Bool) (origCksum : BitVec 64) :
    Checked Judgement :=
  if out.ret = .error then .error .aborted
  else if out.stopSoon then .error .aborted
  else if cfg.hangMode then .ok ⟨decide (out.ret = .tmout), crashMode, origCksum⟩
  else if out.ret = .tmout then .ok ⟨false, crashMode, origCksum⟩
  else if out.ret = .crash then
    let crashMode := crashMode || firstRun
    if crashMode then
      if cfg.exactMode then
        compareCksum cfg hash64 out firstRun crashMode origCksum
      else .ok ⟨true, crashMode, origCksum⟩
    else .ok ⟨false, crashMode, origCksum⟩
  else if crashMode then .ok ⟨false, crashMode, origCksum⟩
  else compareCksum cfg hash64 out firstRun crashMode origCksum

structure Delivery where
  testcase : List Byte
  sent : Option (List Byte)

structure Call (Data : Type) where
  kept : Bool
  delivery : Delivery
  state : TminState Data

def tminRunTarget (target : Delivery → Outcome) (s : TminState Data) (mem : List Byte)
    (firstRun : Bool) : Checked (Call Data) := do
  let (s, sent) ← preAflFsrvWriteToTestcase cfg s mem
  let delivery : Delivery := { testcase := s.testcase, sent := sent }
  let judgement ← judge cfg hash64 (target delivery) firstRun s.crashMode s.origCksum
  return {
    kept := judgement.kept, delivery := delivery
    state := { s with
      crashMode := judgement.crashMode, origCksum := judgement.origCksum } }

/-- The bytes that this run brought to the target: what a `fuzz_send` hook sent where
there is one, and the test case otherwise. -/
def Call.delivered (call : Call Data) : Option (List Byte) :=
  if hasSender call.state.mutators then call.delivery.sent else some call.delivery.testcase

end AflPlusPlus.Tmin
