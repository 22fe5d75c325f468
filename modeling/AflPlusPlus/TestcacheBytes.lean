/-
The bytes behind the testcase cache.

The memory behind each `testcase_buf` is tracked beside the cache, and every copy into it is
checked.  Custom mutators are outside code: what they return is data of the call.
-/

import AflPlusPlus.Testcache
import AflPlusPlus.Trim

namespace AflPlusPlus

open Machine

/-- The fuzzer, its cache, and the allocated size of each `testcase_buf`. -/
structure CacheState where
  afl : Afl
  cache : Testcache
  bufSize : Nat → Nat

def CacheState.len (s : CacheState) (q : Nat) : BitVec 32 := (s.afl.queue.queueBuf q).len

def CacheState.withAfl (s : CacheState) (afl : Afl) : CacheState := { s with afl := afl }

def CacheState.calling (s : CacheState) (call : CacheCall) : CacheCall :=
  { call with len := s.len }

/-- An entry that has come into the cache owns a fresh buffer of its length. -/
def CacheState.withCache (q : Nat) (cache : Testcache) (s : CacheState) : CacheState :=
  { s with
    cache := cache
    bufSize :=
      if cache.testcaseBuf q && !s.cache.testcaseBuf q then
        Function.update s.bufSize q (s.len q).toNat
      else s.bufSize }

def CacheState.testcaseGet (call : CacheCall) (q : Nat) (s : CacheState) :
    Checked (Fetch × CacheState) := do
  let res ← queueTestcaseGet (s.calling call) q s.cache
  return (res.1, s.withCache q res.2)

def CacheState.testcaseStoreMem (call : CacheCall) (q : Nat) (s : CacheState) :
    Checked CacheState := do
  let cache ← queueTestcaseStoreMem (s.calling call) q s.cache
  return s.withCache q cache

def CacheState.copyInto (q : Nat) (len : BitVec 32) (s : CacheState) : Checked CacheState :=
  if len.toNat ≤ s.bufSize q then .ok s else .error .badAccess

def CacheState.resize (q : Nat) (len : BitVec 32) (cacheSize : BitVec 64) (s : CacheState) :
    CacheState :=
  { s with
    cache := { s.cache with cacheSize := cacheSize }
    bufSize := Function.update s.bufSize q len.toNat }

/-- `queue_testcase_retake`; without memory for the `realloc` the fuzzer ends. -/
def CacheState.testcaseRetake (granted : Bool) (q : Nat) (oldLen : BitVec 32)
    (s : CacheState) : Checked CacheState :=
  let len := s.len q
  if s.cache.testcaseBuf q then
    if oldLen < len ∨ len + 4096 < oldLen then
      let cacheSize :=
        if oldLen ≤ len then s.cache.cacheSize + (len - oldLen).setWidth 64
        else s.cache.cacheSize - (oldLen - len).setWidth 64
      if granted then (s.resize q len cacheSize).copyInto q len else .error .aborted
    else s.copyInto q len
  else .ok s

/-- `queue_testcase_retake_mem`; `inPlace` tells whether `in` is
`q->testcase_buf` itself. -/
def CacheState.testcaseRetakeMem (granted inPlace : Bool) (q : Nat) (len oldLen : BitVec 32)
    (s : CacheState) : Checked CacheState :=
  if s.cache.testcaseBuf q then
    if inPlace then .ok s
    else if len + 4096 < oldLen ∧ granted = true then
      (s.resize q len (s.cache.cacheSize - (oldLen - len).setWidth 64)).copyInto q len
    else s.copyInto q len
  else .ok s

inductive HookBuf where
  | inBuf
  | own
  deriving DecidableEq, Repr

/-- One round of a custom trimmer: the bytes `write_to_testcase` put down, none
if there was nothing to run, and the run. -/
structure CustomRound where
  retLen : Nat
  run : TargetRun

/-- The hooks of one custom mutator that trimming calls, as it answers them. -/
structure Mutator where
  customTrim : Option (List CustomRound)
  postProcess : Option (PostOutcome HookBuf)

structure TrimCall where
  runs : Nat → TargetRun
  mutators : List Mutator
  keepOriginal : Bool
  minLength : BitVec 32
  maxLength : BitVec 32
  granted : Bool

def postProcess : List Mutator → HookBuf × Int → HookBuf × Int
  | [], cur => cur
  | mutator :: rest, cur =>
    match mutator.postProcess with
    | none => postProcess rest cur
    | some outcome => postProcess rest (outcome.follow cur)

def TrimCall.clampLength (call : TrimCall) (size : Int) : Int :=
  if size < call.minLength.toNat then call.minLength.toNat
  else if call.maxLength.toNat < size then call.maxLength.toNat
  else size

/-- The post-processing of a trimmed entry: whose memory is written back, and
the new `q->len`. -/
def TrimCall.postProcessed (call : TrimCall) (len : BitVec 32) : HookBuf × BitVec 32 :=
  if call.mutators ≠ [] ∧ call.keepOriginal = false then
    let hooked := postProcess call.mutators (.inBuf, len.toNat)
    let kept := if hooked.2 = 0 then (.inBuf, (len.toNat : Int)) else hooked
    (kept.1, BitVec.ofInt 32 (call.clampLength kept.2))
  else (.inBuf, len)

structure CustomState where
  afl : Afl
  fault : Fault
  outLen : Option (BitVec 32)
  cleanTrace : Buffer

/-- The trace was the same: the data is kept, and the trace if it is the first. -/
def CustomState.accept (retLen : Nat) (s : CustomState) : CustomState :=
  let fsrv := s.afl.coverage.fsrv
  { s with
    outLen := some (BitVec.ofNat 32 retLen)
    cleanTrace :=
      if s.outLen.isSome then s.cleanTrace
      else copyMap fsrv.mapSize s.cleanTrace fsrv.traceBits }

/-- The loop of `trim_case_custom`, one element for each round the mutator asks
for.  The flag tells a jump to `abort_trimming`. -/
def customRounds (size : WordSize) (hash64 : Buffer → BitVec 64) (q : Nat) :
    List CustomRound → CustomState → Bool × CustomState
  | [], s => (false, s)
  | round :: rest, s =>
    if round.retLen = 0 then customRounds size hash64 q rest s
    else
      let ran := fuzzRunTarget round.run s.afl
      if ran.stopSoon ∨ round.run.fault = .error then
        (true, { s with afl := ran, fault := round.run.fault })
      else
        let traced := { s with afl := ran.classify size, fault := round.run.fault }
        if hash64 traced.afl.coverage.fsrv.traceBits = (traced.afl.queue.queueBuf q).execCksum then
          customRounds size hash64 q rest (traced.accept round.retLen)
        else customRounds size hash64 q rest traced

def QueueEntry.withLen (len : BitVec 32) (entry : QueueEntry) : QueueEntry :=
  { entry with len := len }

def Afl.scoreFrom (saved : Buffer) (q : Nat) (afl : Afl) : Afl :=
  let restored := afl.withCoverage (afl.coverage.withTrace
    (copyMap afl.coverage.fsrv.mapSize afl.coverage.fsrv.traceBits saved))
  restored.withQueue (updateBitmapScore restored.coverage.fsrv q true restored.queue)

variable (size : WordSize) (hash64 : Buffer → BitVec 64)

def trimCaseCustom (q : Nat) (rounds : List CustomRound) (afl : Afl) : Fault × Afl :=
  match customRounds size hash64 q rounds
      { afl := afl, fault := .ok, outLen := none, cleanTrace := fun _ => 0 } with
  | (true, stopped) => (stopped.fault, stopped.afl)
  | (false, ended) =>
    match ended.outLen with
    | none => (ended.fault, ended.afl)
    | some len => (ended.fault,
        (ended.afl.modifyEntry q (QueueEntry.withLen len)).scoreFrom ended.cleanTrace q)

/-- The custom trimmers one after the other, and the last one's fault if there
is any. -/
def customTrims (size : WordSize) (hash64 : Buffer → BitVec 64) (q : Nat) :
    List Mutator → Option Fault × Afl → Option Fault × Afl
  | [], cur => cur
  | mutator :: rest, cur =>
    match mutator.customTrim with
    | none => customTrims size hash64 q rest cur
    | some rounds =>
      let trimmed := trimCaseCustom size hash64 q rounds cur.2
      customTrims size hash64 q rest (some trimmed.1, trimmed.2)

/-- `if (needs_write)`: post-process, write back, take back into the cache and
score. -/
def CacheState.writeBack (call : TrimCall) (q : Nat) (origLen : BitVec 32) (s : CacheState) :
    Checked CacheState := do
  let written := call.postProcessed (s.len q)
  let resized := s.withAfl (s.afl.modifyEntry q (QueueEntry.withLen written.2))
  let taken ← resized.testcaseRetakeMem call.granted (written.1 == .inBuf) q written.2 origLen
  return taken.withAfl (taken.afl.scoreTrimmed q)

/-- The default trimmer on the buffer that `queue_testcase_get` returns, which
is `q->testcase_buf` exactly if the entry is cached. -/
def CacheState.trimDefault (call : TrimCall) (q : Nat) (origLen : BitVec 32) (s : CacheState) :
    Checked (Fault × CacheState) :=
  if (s.len q).toNat < 5 then return (.ok, s)
  else
    let trimmed := trimLoops size hash64 call.runs q s.afl
    let changed := s.withAfl trimmed.2.afl
    if trimmed.1 = false ∧ trimmed.2.needsWrite = true then do
      let written ← changed.writeBack call q origLen
      return (trimmed.2.fault, written)
    else return (trimmed.2.fault, changed)

def CacheState.retakeTrimmed (call : TrimCall) (customTrimmed : Bool) (q : Nat)
    (origLen : BitVec 32) (s : CacheState) : Checked CacheState :=
  if origLen ≠ s.len q ∨ customTrimmed = true then
    s.testcaseRetake call.granted q origLen
  else .ok s

def CacheState.trimCase (call : TrimCall) (q : Nat) (s : CacheState) :
    Checked (Fault × CacheState) := do
  let custom := customTrims size hash64 q call.mutators (none, s.afl)
  let taken ← (s.withAfl custom.2).retakeTrimmed call custom.1.isSome q (s.len q)
  match custom.1 with
  | some fault => return (fault, taken)
  | none => taken.trimDefault size hash64 call q (s.len q)

theorem Afl.scoreFrom_len (saved : Buffer) (q : Nat) (afl : Afl) (e : Nat) :
    ((afl.scoreFrom saved q).queue.queueBuf e).len = (afl.queue.queueBuf e).len := by
  unfold Afl.scoreFrom Afl.withQueue
  rw [(updateBitmapScore_frame _ q _ _).entries e]
  rfl

theorem Afl.scoreTrimmed_len (q : Nat) (afl : Afl) (e : Nat) :
    ((afl.scoreTrimmed q).queue.queueBuf e).len = (afl.queue.queueBuf e).len :=
  Afl.scoreFrom_len afl.cleanTrace q afl e

theorem Afl.withLen_len_self (q : Nat) (len : BitVec 32) (afl : Afl) :
    ((afl.modifyEntry q (QueueEntry.withLen len)).queue.queueBuf q).len = len := by
  unfold Afl.modifyEntry Afl.withQueue
  rw [Queue.modify_self]
  rfl

variable {q : Nat} {call : TrimCall}

theorem Afl.withLen_len_of_ne {e : Nat} (other : e ≠ q) (len : BitVec 32) (afl : Afl) :
    ((afl.modifyEntry q (QueueEntry.withLen len)).queue.queueBuf e).len =
      (afl.queue.queueBuf e).len := by
  unfold Afl.modifyEntry Afl.withQueue
  rw [Queue.modify_of_ne other]

structure TrimShrinks (q : Nat) (start : Afl) (s : TrimState) : Prop where
  shorter : (s.afl.queue.queueBuf q).len.toNat ≤ (start.queue.queueBuf q).len.toNat
  untouched : s.needsWrite = false → s.afl.queue = start.queue
  others : ∀ e, e ≠ q → s.afl.queue.queueBuf e = start.queue.queueBuf e

theorem TrimState.remove_entry (q avail : Nat) (s : TrimState) :
    (s.remove q avail).afl.queue = s.afl.queue.modify q (QueueEntry.shorten avail) := by
  unfold TrimState.remove
  split <;> rfl

variable (size : WordSize) (hash64 : Buffer → BitVec 64) (runs : Nat → TargetRun)

theorem TrimShrinks.keeps (q : Nat) (start : Afl) :
    TrimKeeps size hash64 runs q (TrimShrinks q start) where
  stopped := fun _ shrinks => ⟨shrinks.shorter, shrinks.untouched, shrinks.others⟩
  traced := fun _ shrinks => ⟨shrinks.shorter, shrinks.untouched, shrinks.others⟩
  removed := by
    intro s avail shrinks within _
    have queue : ((s.traced size runs).remove q avail).afl.queue =
        s.afl.queue.modify q (QueueEntry.shorten avail) := TrimState.remove_entry q _ _
    constructor
    · rw [queue, Queue.modify_self]
      have shorter := shrinks.shorter
      have cut : (QueueEntry.shorten avail (s.afl.queue.queueBuf q)).len.toNat =
          (s.afl.queue.queueBuf q).len.toNat - avail := by
        unfold QueueEntry.shorten
        rw [BitVec.toNat_sub, BitVec.toNat_ofNat]
        omega
      omega
    · intro unwritten
      cases unwritten
    · intro e other
      rw [queue, Queue.modify_of_ne other]
      exact shrinks.others e other

theorem trimLoops_shrinks (q : Nat) (afl : Afl) :
    TrimShrinks q afl (trimLoops size hash64 runs q afl).2 := by
  apply (TrimShrinks.keeps _ _ _ q _).loops
  intro lenP2
  exact ⟨Nat.le_refl _, fun _ => rfl, fun _ _ => rfl⟩

def OrderlyRuns (runs : Nat → TargetRun) : Prop :=
  ∀ k, (runs k).stopSoon = false ∧ (runs k).fault ≠ .error

variable {runs : Nat → TargetRun} (orderly : OrderlyRuns runs)

include orderly

private theorem trimChunks_orderly (q removeLen rounds removePos : Nat) (s : TrimState) :
    (trimChunks size hash64 runs q removeLen rounds removePos s).1 = false := by
  induction rounds generalizing removePos s with
  | zero => rfl
  | succ rounds ih =>
    have goesOn : ¬((fuzzRunTarget (runs s.trimExec) s.afl).stopSoon = true ∨
        (runs s.trimExec).fault = .error) := by
      rintro (stopped | failed)
      · rw [show (fuzzRunTarget (runs s.trimExec) s.afl).stopSoon =
          (runs s.trimExec).stopSoon from rfl, (orderly s.trimExec).1] at stopped
        cases stopped
      · exact (orderly s.trimExec).2 failed
    unfold trimChunks
    dsimp only
    split
    · split <;> exact ih _ _
    · rfl

theorem trimPasses_orderly (q rounds removeLen : Nat) (s : TrimState) :
    (trimPasses size hash64 runs q rounds removeLen s).1 = false := by
  induction rounds generalizing removeLen s with
  | zero => rfl
  | succ rounds ih =>
    have chunk := trimChunks_orderly size hash64 orderly q removeLen
      (s.afl.queue.queueBuf q).len.toNat removeLen s
    unfold trimPasses
    split
    · split
      · rename_i stopped aborted
        rw [aborted] at chunk
        cases chunk
      · exact ih _ _
    · rfl

omit orderly

def customTrimRounds (muts : List Mutator) : List CustomRound :=
  muts.flatMap (fun mutator => mutator.customTrim.getD [])

structure CustomShrinks (q : Nat) (rounds : List CustomRound) (pre post : Afl) : Prop where
  own : (post.queue.queueBuf q).len = (pre.queue.queueBuf q).len ∨
    ∃ round ∈ rounds, round.retLen ≠ 0 ∧ (post.queue.queueBuf q).len = BitVec.ofNat 32 round.retLen
  others : ∀ e, e ≠ q → (post.queue.queueBuf e).len = (pre.queue.queueBuf e).len

private theorem customRounds_queue (q : Nat) (rounds : List CustomRound) (s : CustomState) :
    (customRounds size hash64 q rounds s).2.afl.queue = s.afl.queue ∧
      ∀ len, (customRounds size hash64 q rounds s).2.outLen = some len → s.outLen = some len ∨
          ∃ round ∈ rounds, round.retLen ≠ 0 ∧ len = BitVec.ofNat 32 round.retLen := by
  induction rounds generalizing s with
  | nil => exact ⟨rfl, fun _ out => .inl out⟩
  | cons round rest ih =>
    have later : ∀ len, (∃ other ∈ rest, other.retLen ≠ 0 ∧ len = BitVec.ofNat 32 other.retLen) →
        ∃ other ∈ round :: rest, other.retLen ≠ 0 ∧ len = BitVec.ofNat 32 other.retLen :=
      fun _ found => found.imp fun _ facts => ⟨List.mem_cons_of_mem _ facts.1, facts.2⟩
    unfold customRounds
    dsimp only
    split
    · exact ⟨(ih _).1, fun len out => ((ih _).2 _ out).imp_right (later _)⟩
    · rename_i some
      split
      · exact ⟨rfl, fun _ out => .inl out⟩
      · split
        · refine ⟨(ih _).1, ?_⟩
          intro len out
          rcases (ih _).2 len out with here | found
          · exact .inr ⟨round, List.mem_cons_self, some, (Option.some.inj here).symm⟩
          · exact .inr (later _ found)
        · exact ⟨(ih _).1, fun len out => ((ih _).2 _ out).imp_right (later _)⟩

theorem CustomShrinks.of_queue_eq {rounds : List CustomRound} {pre post : Afl}
    (same : post.queue = pre.queue) : CustomShrinks q rounds pre post := by
  constructor
  · rw [same]
    exact .inl rfl
  · intro e _
    rw [same]

private theorem trimCaseCustom_shrinks (q : Nat) (rounds : List CustomRound) (afl : Afl) :
    CustomShrinks q rounds afl (trimCaseCustom size hash64 q rounds afl).2 := by
  have ran := customRounds_queue size hash64 q rounds
    { afl := afl, fault := .ok, outLen := none, cleanTrace := fun _ => 0 }
  unfold trimCaseCustom
  split
  · rename_i stopped aborted
    rw [aborted] at ran
    exact CustomShrinks.of_queue_eq ran.1
  · rename_i ended finished
    rw [finished] at ran
    split
    · exact CustomShrinks.of_queue_eq ran.1
    · rename_i len out
      constructor
      · rw [Afl.scoreFrom_len, Afl.withLen_len_self]
        exact .inr ((ran.2 _ out).resolve_left (nofun))
      · intro e other
        rw [Afl.scoreFrom_len, Afl.withLen_len_of_ne other, ran.1]

theorem CustomShrinks.trans {earlier later : List CustomRound} {first second third : Afl}
    (left : CustomShrinks q earlier first second) (right : CustomShrinks q later second third) :
    CustomShrinks q (earlier ++ later) first third where
  own := by
    rcases right.own with same | ⟨round, here, facts⟩
    · rcases left.own with pre | ⟨round, here, some, len⟩
      · exact .inl (same.trans pre)
      · exact .inr ⟨round, List.mem_append_left _ here, some, same.trans len⟩
    · exact .inr ⟨round, List.mem_append_right _ here, facts⟩
  others := fun e other => (right.others e other).trans (left.others e other)

theorem customTrims_shrinks (q : Nat) (muts : List Mutator) (cur : Option Fault × Afl) :
    CustomShrinks q (customTrimRounds muts) cur.2 (customTrims size hash64 q muts cur).2 := by
  induction muts generalizing cur with
  | nil => exact ⟨.inl rfl, fun _ _ => rfl⟩
  | cons mutator rest ih =>
    unfold customTrims customTrimRounds
    rw [List.flatMap_cons]
    cases mutator.customTrim with
    | none => exact ih _
    | some rounds =>
      have trimmed := trimCaseCustom_shrinks size hash64 q rounds cur.2
      exact trimmed.trans (ih (some (trimCaseCustom _ _ q _ cur.2).1, _))

private theorem customTrims_isSome (q : Nat) (muts : List Mutator) (fault : Fault) (afl : Afl) :
    (customTrims size hash64 q muts (some fault, afl)).1 ≠ none := by
  induction muts generalizing fault afl with
  | nil => exact nofun
  | cons mutator rest ih =>
    unfold customTrims
    cases mutator.customTrim with
    | none | some rounds => exact ih _ _

theorem customTrims_none (q : Nat) (muts : List Mutator) (afl : Afl)
    (absent : (customTrims size hash64 q muts (none, afl)).1 = none) :
    (customTrims size hash64 q muts (none, afl)).2 = afl ∧
      ∀ mutator ∈ muts, mutator.customTrim = none := by
  induction muts with
  | nil => exact ⟨rfl, nofun⟩
  | cons mutator rest ih =>
    unfold customTrims at absent ⊢
    cases hook : mutator.customTrim with
    | none =>
      rw [hook] at absent
      refine ⟨(ih absent).1, ?_⟩
      rintro other (_ | ⟨_, later⟩)
      · exact hook
      · exact (ih absent).2 _ later
    | some rounds =>
      rw [hook] at absent
      exact absurd absent (customTrims_isSome _ _ q _ _ _)

variable {hash64 : Buffer → BitVec 64} {s : CacheState} {size : WordSize}

theorem CacheState.trimCase_custom {fault : Fault}
    (trimmed : (customTrims size hash64 q call.mutators (none, s.afl)).1 = some fault) :
    s.trimCase size hash64 call q =
      (s.withAfl (customTrims size hash64 q call.mutators (none, s.afl)).2).testcaseRetake
        call.granted q (s.len q) >>= fun taken => .ok (fault, taken) := by
  unfold CacheState.trimCase CacheState.retakeTrimmed
  simp only [trimmed, Option.isSome_some, or_true, if_true]
  rfl

theorem CacheState.trimCase_default
    (untouched : (customTrims size hash64 q call.mutators (none, s.afl)).1 = none) :
    s.trimCase size hash64 call q = s.trimDefault size hash64 call q (s.len q) := by
  have kept : (s.withAfl s.afl).retakeTrimmed call false q (s.len q) = .ok s :=
    if_neg (fun changed => changed.elim (fun ne => ne rfl) (nomatch ·))
  unfold CacheState.trimCase
  simp only [untouched, (customTrims_none size hash64 q call.mutators s.afl untouched).1,
    Option.isSome_none, kept]
  rfl

variable {muts : List Mutator} {mem : HookBuf}

private theorem postProcess_of_sized (sized : (postProcess muts (mem, 0)).2 ≠ 0) (len : Int) :
    postProcess muts (mem, len) = postProcess muts (mem, 0) := by
  induction muts with
  | nil => exact absurd rfl sized
  | cons mutator rest ih =>
    unfold postProcess at sized ⊢
    cases hook : mutator.postProcess with
    | none =>
      rw [hook] at sized
      exact ih sized
    | some outcome => rfl

private theorem postProcess_of_unsized (unsized : (postProcess muts (mem, 0)).2 = 0) (len : Int) :
    (postProcess muts (mem, len)).2 = 0 ∨ postProcess muts (mem, len) = (mem, len) := by
  induction muts with
  | nil => exact .inr rfl
  | cons mutator rest ih =>
    unfold postProcess at unsized ⊢
    cases hook : mutator.postProcess with
    | none =>
      rw [hook] at unsized
      exact ih unsized
    | some outcome =>
      rw [hook] at unsized
      exact .inl unsized

variable (active : call.mutators ≠ [] ∧ call.keepOriginal = false)

include active

theorem TrimCall.postProcessed_of_unsized
    (unsized : (postProcess call.mutators (.inBuf, 0)).2 = 0) (len : BitVec 32) :
    call.postProcessed len = (.inBuf, BitVec.ofInt 32 (call.clampLength len.toNat)) := by
  unfold TrimCall.postProcessed
  rw [if_pos active]
  dsimp only
  rcases postProcess_of_unsized unsized (len.toNat : Int) with lost | kept
  · rw [if_pos lost]
  · rw [kept]
    simp

theorem TrimCall.postProcessed_of_sized
    (sized : (postProcess call.mutators (.inBuf, 0)).2 ≠ 0) (len : BitVec 32) :
    call.postProcessed len = ((postProcess call.mutators (.inBuf, 0)).1,
      BitVec.ofInt 32 (call.clampLength (postProcess call.mutators (.inBuf, 0)).2)) := by
  unfold TrimCall.postProcessed
  rw [if_pos active, postProcess_of_sized sized]
  dsimp only
  rw [if_neg sized]

omit active

/-- What happens to the cache and to the entries in it.  `elsewhere` is all
other work of the fuzzer. -/
inductive BytesStep where
  | get (call : CacheCall) (q : Nat)
  | storeMem (call : CacheCall) (q : Nat)
  | trim (call : TrimCall) (q : Nat)
  | elsewhere (afl : Afl)

def BytesStep.apply (size : WordSize) (hash64 : Buffer → BitVec 64) :
    BytesStep → CacheState → Checked CacheState
  | .get call q, s => do
    let res ← s.testcaseGet call q
    return res.2
  | .storeMem call q, s => s.testcaseStoreMem call q
  | .trim call q, s => do
    let res ← s.trimCase size hash64 call q
    return res.2
  | .elsewhere afl, s => return s.withAfl afl

/-- `queue_testcase_store_mem` is for entries that are not cached yet, and only
trimming changes the length of a cached entry. -/
def BytesStep.Admissible (s : CacheState) : BytesStep → Prop
  | .get _ _ => True
  | .storeMem _ q => s.cache.testcaseBuf q = false
  | .trim _ _ => True
  | .elsewhere afl => ∀ q, s.cache.testcaseBuf q = true → (afl.queue.queueBuf q).len = s.len q

def bytesStep (size : WordSize) (hash64 : Buffer → BitVec 64) (s : Checked CacheState)
    (step : BytesStep) : Checked CacheState :=
  s >>= step.apply size hash64

/-- A condition on the state in which a step is taken; past the end of the
process there is nothing to ask. -/
def stepGuard (cond : CacheState → BytesStep → Prop) (s : Checked CacheState)
    (step : BytesStep) : Prop :=
  Yields (fun reached => cond reached step) s

def CacheState.fresh (entries : Nat) (maxCacheSize : BitVec 64) (afl : Afl) : CacheState where
  afl := afl
  cache := Testcache.fresh entries maxCacheSize
  bufSize := fun _ => 0

theorem bytesStep_get_afl (s : CacheState) (call : CacheCall) (q : Nat) :
    Yields (fun reached => reached.afl = s.afl) (bytesStep size hash64 (.ok s) (.get call q)) := by
  have any : Yields (fun _ => True) (queueTestcaseGet (s.calling call) q s.cache) :=
    Yields.of_forall (fun _ => trivial) _
  have got : Yields (fun res => res.2.afl = s.afl) (s.testcaseGet call q) :=
    any.bind (fun _ _ => Eq.refl s.afl)
  exact got.bind (fun _ same => same)

def twoSeeds : Afl :=
  Afl.initial (Coverage.initial 64 64) (addToQueue 16 (addToQueue 16 (Queue.empty .explore false
    false))) ⟨false, false, false⟩ 1000 1000

def callFor (q : Nat) : CacheCall where
  queueCur := some q
  len := fun _ => 0
  light := fun _ => false
  draw := fun round tries => round + tries
  heap := fun _ => none

def quietTrim (muts : List Mutator) : TrimCall where
  runs := fun _ => ⟨.ok, fun _ => 0, false⟩
  mutators := muts
  keepOriginal := false
  minLength := 1
  maxLength := 1048576
  granted := true

end AflPlusPlus
