/-
The handshake of the fork server, version 1.

Each side is a program of its reads and writes.  All words are four bytes, written and read
in one go; the dictionary is sent and received in whatever parts the pipe makes of it.

The first word is taken to arrive in time.  A short read of a word that the fuzzer does
not check counts as a failure here.
-/

import AflPlusPlus.Common
import AflPlusPlus.Machine.Duplex
import AflPlusPlus.Machine.LaneWord

namespace AflPlusPlus.Handshake

open Machine Machine.LaneWord List

abbrev Word := BitVec 32

def wordBytes (word : Word) : List Byte := (List.range 4).map (laneAt 8 word)

def wordOf (data : List Byte) : Option Word :=
  if data.length = 4 then some (ofLanes 8 4 fun idx => data.getD idx 0) else none

variable {word : Word}

@[simp] theorem wordBytes_length : (wordBytes word).length = 4 := by
  simp [wordBytes]

theorem wordBytes_ne_nil (word : Word) : wordBytes word ≠ [] :=
  ne_nil_of_length_pos (by simp)

private theorem wordOf_wordBytes (word : Word) : wordOf (wordBytes word) = some word := by
  rw [wordOf, if_pos (wordBytes_length), Option.some.injEq]
  refine @eq_of_laneAt_eq 8 4 _ _ ?_
  intro idx below
  rw [laneAt_ofLanes _ _ _ _ below]
  simp [wordBytes, List.getD, below]

section Words

variable {Error : Type}

/-- `write(fd, &word, 4) != 4` is an error. -/
def sendWord (word : Word) (error : Error) : PipeProgram Byte Error Unit :=
  .write true (wordBytes word) fun taken => if taken ≠ 4 then .fail error else .done ()

def readWord (error : Error) : PipeProgram Byte Error Word :=
  .read true 4 fun data =>
    match wordOf data with
    | none => .fail error
    | some word => .done word

end Words

def optMapsize : Word := 0x00000001
def optShdmemFuzz : Word := 0x00000002
def optFutex : Word := 0x00000004
def optAllocsizeDerive : Word := 0x00000008
def optBugMap : Word := 0x00000010
def optAutodict : Word := 0x00000800
def optIjon : Word := 0x04000000
def optC11 : Word := 0x20000000

def newError : Word := 0xeffe0000

def helloBase : Word := 0x41464c00

/-- `FS_NEW_VERSION_MIN` and `FS_NEW_VERSION_MAX` -/
def versionMin : Word := 1
def versionMax : Word := 1

/-- `attached`: the shared map was given by the fuzzer and is attached.  `bugMap`: the
map of the bug pass is active and counted. -/
structure Target where
  mapSize : Word
  sharedmemFuzzing : Bool
  bugModeDerive : Bool
  ijonEnabled : Bool
  c11Enabled : Bool
  bugMap : Bool
  attached : Bool
  dictionary : Option (List Byte)
  deriving DecidableEq, Repr

inductive TargetError
  | noParent
  | noReply
  | wrongMessage
  | options
  | mapSize
  | dictionaryLength
  | dictionary
  | welcome
  deriving DecidableEq, Repr

def hello : Word := helloBase + versionMax

def Target.dictionaryToSend (target : Target) : Option (List Byte) :=
  target.dictionary.filter (fun bytes => bytes.length ≠ 0)

/-- `__afl_child_sync` after `__afl_map_shm` has read `AFL_CHILD_SYNC_SHM`, as an offset
into the map. -/
def Target.attachedSync (target : Target) (variable_ : Option Nat) : Option Nat :=
  variable_.filter (fun offset => offset ≠ 0 && target.attached)

def Target.childSync (target : Target) (variable_ : Option Nat) : Option Nat :=
  (target.attachedSync variable_).filter (fun offset => ¬ offset < target.mapSize.toNat)

def optionWord (sharedMemory futex sizeDerive autodict ijon c11 bugMap : Bool) : Word :=
  optMapsize ||| (if sharedMemory then optShdmemFuzz else 0) |||
    (if futex then optFutex else 0) ||| (if sizeDerive then optAllocsizeDerive else 0) |||
    (if autodict then optAutodict else 0) ||| (if ijon then optIjon else 0) |||
    (if c11 then optC11 else 0) ||| (if bugMap then optBugMap else 0)

def Target.options (target : Target) (sync : Option Nat) : Word :=
  optionWord target.sharedmemFuzzing sync.isSome target.bugModeDerive
    target.dictionaryToSend.isSome target.ijonEnabled target.c11Enabled target.bugMap

def sendBytes : Nat → List Byte → PipeProgram Byte TargetError Unit
  | 0, _ => .done ()
  | fuel + 1, rest =>
    if rest.length ≠ 0 then
      .write false rest fun taken =>
        if taken < 1 then .fail .dictionary else sendBytes fuel (rest.drop taken)
    else .done ()

def Target.sendDictionary (target : Target) : PipeProgram Byte TargetError Unit :=
  match target.dictionaryToSend with
  | none => .done ()
  | some bytes => do
    sendWord (BitVec.ofNat 32 bytes.length) .dictionaryLength
    sendBytes bytes.length bytes

/-- `__afl_start_forkserver` up to the end of the handshake.  The result is the sync word
that the target uses. -/
def Target.handshake (target : Target) (variable_ : Option Nat) :
    PipeProgram Byte TargetError (Option Nat) := do
  sendWord hello .noParent
  let reply ← readWord .noReply
  if hello ^^^ 0xffffffff ≠ reply then .fail .wrongMessage
  else
    let sync := target.childSync variable_
    sendWord (target.options sync) .options
    sendWord target.mapSize .mapSize
    target.sendDictionary
    sendWord hello .welcome
    return sync

/-- `traceBits`: `trace_bits` is a shared map.  `addExtra`: `add_extra_func` is set.
`extras`: what it was called with. -/
structure Fuzzer where
  mapSize : Word
  realMapSize : Word
  supportShmemFuzz : Bool
  useShmemFuzz : Bool
  cmplogSizeDeriveRequested : Bool
  supportsAllocsizeDerive : Bool
  persistentMode : Bool
  traceBits : Bool
  childSyncOffset : Nat
  useFutex : Bool
  childSync : Option Nat
  useIjon : Bool
  c11 : Bool
  useBugMap : Bool
  ignoreAutodict : Bool
  addExtra : Bool
  extras : List (List Byte)
  deriving DecidableEq, Repr

inductive FuzzerError
  | noHello
  | reported (code : Word)
  | oldProtocol
  | versionNotAssigned
  | versionNotSupported
  | reply
  | shortRead
  | mapTooLarge (size limit : Word)
  | noSharedMemory
  | noSizeDerive
  | dictionaryLength
  | dictionarySize (size : Word)
  | dictionary (offset remaining : Nat)
  | communication (expected status : Word)
  deriving DecidableEq, Repr

def Fuzzer.childSyncSetup (fuzzer : Fuzzer) : Fuzzer :=
  if !fuzzer.useFutex then { fuzzer with childSync := none }
  else if fuzzer.childSyncOffset ≠ 0 && fuzzer.traceBits then
    { fuzzer with childSync := some fuzzer.childSyncOffset }
  else { fuzzer with childSync := none, useFutex := false }

/-- `AFL_CHILD_SYNC_SHM` as the child gets it. -/
def Fuzzer.syncVariable (fuzzer : Fuzzer) : Option Nat :=
  if fuzzer.useFutex && fuzzer.childSync.isSome && fuzzer.persistentMode then
    some fuzzer.childSyncOffset
  else none

def replyTo (status : Word) : Except FuzzerError Word :=
  if status &&& newError = newError then .error (.reported (status &&& 0x0000ffff))
  else if helloBase ≤ status ∧ status ≤ 0x41464cff then
    let version := status - helloBase
    if version = 0 then .error .versionNotAssigned
    else if version < versionMin ∨ version > versionMax then .error .versionNotSupported
    else .ok (status ^^^ 0xffffffff)
  else .error .oldProtocol

def roundedSize (size : Word) : Word :=
  if size % 64 ≠ 0 then ((size + 63) >>> 6) <<< 6 else size

def Fuzzer.mapLimit (fuzzer : Fuzzer) : Word :=
  if fuzzer.mapSize = 0 then BitVec.ofNat 32 defaultMapSize else fuzzer.mapSize

def Fuzzer.takeMapSize (fuzzer : Fuzzer) (size : Word) : Except FuzzerError Fuzzer :=
  if roundedSize size > fuzzer.mapLimit then
    .error (.mapTooLarge (roundedSize size) fuzzer.mapLimit)
  else .ok { fuzzer with mapSize := roundedSize size, realMapSize := size }

def Fuzzer.receiveMapSize (fuzzer : Fuzzer) (status : Word) :
    PipeProgram Byte FuzzerError Fuzzer := do
  if status &&& optMapsize ≠ 0 then
    let size ← readWord .shortRead
    PipeProgram.ofExcept (fuzzer.takeMapSize size)
  else return { fuzzer with
    mapSize := BitVec.ofNat 32 defaultMapSize, realMapSize := BitVec.ofNat 32 defaultMapSize }

def Fuzzer.takeSharedMemory (fuzzer : Fuzzer) (status : Word) : Except FuzzerError Fuzzer :=
  if status &&& optShdmemFuzz ≠ 0 then
    if fuzzer.supportShmemFuzz then .ok { fuzzer with useShmemFuzz := true }
    else .error .noSharedMemory
  else .ok fuzzer

def Fuzzer.takeSizeDerive (fuzzer : Fuzzer) (status : Word) : Except FuzzerError Fuzzer :=
  let supported := decide (status &&& optAllocsizeDerive ≠ 0)
  if fuzzer.cmplogSizeDeriveRequested && !supported then .error .noSizeDerive
  else .ok { fuzzer with supportsAllocsizeDerive := supported }

def Fuzzer.takeSync (fuzzer : Fuzzer) (status : Word) : Fuzzer :=
  if fuzzer.useFutex && !decide (status &&& optFutex ≠ 0) then
    { fuzzer with useFutex := false, childSync := none }
  else fuzzer

def Fuzzer.takeFlags (fuzzer : Fuzzer) (status : Word) : Fuzzer :=
  { fuzzer with
    useIjon := fuzzer.useIjon || decide (status &&& optIjon ≠ 0)
    c11 := fuzzer.c11 || decide (status &&& optC11 ≠ 0)
    useBugMap := fuzzer.useBugMap || decide (status &&& optBugMap ≠ 0) }

def Fuzzer.takeOptions (fuzzer : Fuzzer) (status : Word) : Except FuzzerError Fuzzer := do
  let shared ← fuzzer.takeSharedMemory status
  let derived ← shared.takeSizeDerive status
  return (derived.takeSync status).takeFlags status

def readBytes (size : Nat) : Nat → List Byte → PipeProgram Byte FuzzerError (List Byte)
  | 0, dict => .done dict
  | fuel + 1, dict =>
    if dict.length < size then
      .read false (size - dict.length) fun data =>
        if data.length > 0 then readBytes size fuel (dict ++ data)
        else .fail (.dictionary dict.length (size - dict.length))
    else .done dict

def tokensFrom (dict : List Byte) : Nat → Nat → List (List Byte)
  | 0, _ => []
  | fuel + 1, offset =>
    match dict[offset]? with
    | none => []
    | some len =>
      if len.toNat + offset < dict.length then
        (dict.drop (offset + 1)).take len.toNat ::
          tokensFrom dict fuel (offset + (1 + len.toNat))
      else []

def Fuzzer.addExtras (fuzzer : Fuzzer) (dict : List Byte) : Fuzzer :=
  if !fuzzer.ignoreAutodict && fuzzer.addExtra then
    { fuzzer with extras := fuzzer.extras ++ tokensFrom dict dict.length 0 }
  else fuzzer

def Fuzzer.receiveDictionary (fuzzer : Fuzzer) (status : Word) :
    PipeProgram Byte FuzzerError Fuzzer := do
  if status &&& optAutodict ≠ 0 then
    let size ← readWord .dictionaryLength
    if size < 2 ∨ size > 0xffffff then .fail (.dictionarySize size)
    else
      let dict ← readBytes size.toNat size.toNat []
      return fuzzer.addExtras dict
  else return fuzzer

/-- The last word has to be the first one, up to the flag of IJON. -/
def Fuzzer.receiveWelcome (fuzzer : Fuzzer) (keep : Word) :
    PipeProgram Byte FuzzerError Fuzzer := do
  let status ← readWord .shortRead
  let expected := if fuzzer.useIjon then optIjon else 0
  if status &&& ~~~expected ≠ keep then .fail (.communication keep status)
  else return fuzzer

/-- `afl_fsrv_start` from the first word on. -/
def Fuzzer.handshake (fuzzer : Fuzzer) : PipeProgram Byte FuzzerError Fuzzer := do
  let keep ← readWord .noHello
  let reply ← PipeProgram.ofExcept (replyTo keep)
  sendWord reply .reply
  let status ← readWord .shortRead
  let sized ← fuzzer.receiveMapSize status
  let chosen ← PipeProgram.ofExcept (sized.takeOptions status)
  let loaded ← chosen.receiveDictionary status
  loaded.receiveWelcome keep

/-- Both sides at the start: the fuzzer sets up the sync word and passes its place on. -/
def connect (fuzzer : Fuzzer) (target : Target) :
    Duplex Byte TargetError (Option Nat) FuzzerError Fuzzer :=
  Duplex.start (target.handshake fuzzer.childSyncSetup.syncVariable) fuzzer.childSyncSetup.handshake

section Words

variable {Error Result : Type} {final : Result} {rest : List (PipeEvent Byte)}

theorem follows_sendWord {error : Error}
    {next : Unit → PipeProgram Byte Error Result} (later : (next ()).Follows rest final) :
    (sendWord word error >>= next).Follows (.sent (wordBytes word) :: rest) final := by
  refine ⟨wordBytes_ne_nil _, rest, rfl, ?_⟩
  exact later

theorem follows_readWord {error : Error}
    {next : Word → PipeProgram Byte Error Result} (later : (next word).Follows rest final) :
    (readWord error >>= next).Follows (.got (wordBytes word) :: rest) final := by
  refine ⟨wordBytes _, rest, rfl, wordBytes_ne_nil _, wordBytes_length, ?_⟩
  dsimp only
  rw [wordOf_wordBytes]
  exact later

end Words

def dictionaryEvents : Option (List Byte) → List (PipeEvent Byte)
  | none => []
  | some bytes =>
    .sent (wordBytes (BitVec.ofNat 32 bytes.length)) :: bytes.map PipeEvent.sentByte

def Target.conversation (target : Target) (sync : Option Nat) : List (PipeEvent Byte) :=
  .sent (wordBytes hello) :: .got (wordBytes (hello ^^^ 0xffffffff)) ::
    .sent (wordBytes (target.options sync)) :: .sent (wordBytes target.mapSize) ::
    (dictionaryEvents target.dictionaryToSend ++ [.sent (wordBytes hello)])

private theorem follows_sendBytes (fuel : Nat) (bytes : List Byte) (enough : bytes.length ≤ fuel) :
    (sendBytes fuel bytes).Follows (bytes.map PipeEvent.sentByte) () := by
  induction fuel generalizing bytes with
  | zero =>
    obtain rfl : bytes = [] := eq_nil_of_length_eq_zero (Nat.le_zero.1 enough)
    exact ⟨rfl, rfl⟩
  | succ fuel ih =>
    rw [sendBytes]
    by_cases empty : bytes = []
    · subst empty
      exact ⟨rfl, rfl⟩
    · have some := length_pos_of_ne_nil empty
      rw [if_pos (Nat.ne_of_gt some)]
      refine ⟨empty, [], (append_nil _).symm, ?_⟩
      intro taken pos bounded
      dsimp only
      rw [if_neg (by omega), append_nil]
      exact ih (bytes.drop _) (by rw [length_drop]; omega)

variable (target : Target)

private theorem Target.follows_sendDictionary :
    target.sendDictionary.Follows (dictionaryEvents target.dictionaryToSend) () := by
  unfold Target.sendDictionary dictionaryEvents
  cases target.dictionaryToSend with
  | none => exact ⟨rfl, rfl⟩
  | some bytes => exact follows_sendWord (follows_sendBytes bytes.length _ (Nat.le_refl _))

private theorem Target.follows_handshake (variable_ : Option Nat) :
    (target.handshake variable_).Follows (target.conversation (target.childSync variable_))
      (target.childSync variable_) := by
  refine follows_sendWord (follows_readWord ?_)
  refine follows_sendWord (follows_sendWord ?_)
  exact target.follows_sendDictionary.bind (follows_sendWord ⟨rfl, rfl⟩)

structure Dictionary where
  tokens : List (List Byte)
  short : ∀ tok ∈ tokens, tok.length < 256
  bytes : List Byte
  encodes : bytes = tokens.flatMap (fun tok => BitVec.ofNat 8 tok.length :: tok)
  atLeast : 2 ≤ bytes.length
  atMost : bytes.length ≤ 0xffffff

variable (toks : List (List Byte))

private theorem tokensFrom_spec (pre : List Byte) (fuel : Nat)
    (short : ∀ tok ∈ toks, tok.length < 256)
    (enough : (toks.flatMap (fun tok => BitVec.ofNat 8 tok.length :: tok)).length ≤ fuel) :
    tokensFrom (pre ++ toks.flatMap (fun tok => BitVec.ofNat 8 tok.length :: tok))
      fuel pre.length = toks := by
  induction toks generalizing pre fuel with
  | nil =>
    cases fuel with
    | zero => rfl
    | succ fuel => simp [tokensFrom]
  | cons tok rest ih =>
    rw [flatMap_cons] at enough ⊢
    rw [cons_append, length_cons, length_append] at enough
    cases fuel with
    | zero => omega
    | succ fuel =>
      have len : (BitVec.ofNat 8 tok.length).toNat = tok.length := by
        exact Nat.mod_eq_of_lt (short _ mem_cons_self)
      have regroup : pre ++ (BitVec.ofNat 8 tok.length :: tok ++
            rest.flatMap (fun tok => BitVec.ofNat 8 tok.length :: tok)) =
          (pre ++ BitVec.ofNat 8 tok.length :: tok) ++
            rest.flatMap (fun tok => BitVec.ofNat 8 tok.length :: tok) := by
        rw [append_assoc]
      have later := ih (pre ++ BitVec.ofNat 8 tok.length :: tok) fuel
        (fun other mem => short _ (mem_cons_of_mem _ mem)) (by omega)
      have next : (pre ++ BitVec.ofNat 8 tok.length :: tok).length =
          pre.length + (1 + tok.length) := by
        rw [length_append, length_cons]
        omega
      rw [next, ← regroup] at later
      rw [tokensFrom, List.getElem?_append_right (Nat.le_refl _), Nat.sub_self,
        cons_append, List.getElem?_cons_zero]
      dsimp only
      rw [len, if_pos (by simp only [length_append, length_cons]; omega)]
      rw [cons_append] at later
      rw [later]
      simp

private theorem follows_readBytes (size fuel : Nat) (dict rest : List Byte)
    (whole : dict.length + rest.length = size) (enough : rest.length ≤ fuel) :
    (readBytes size fuel dict).Follows (rest.map PipeEvent.gotByte) (dict ++ rest) := by
  induction fuel generalizing dict rest with
  | zero =>
    obtain rfl : rest = [] := eq_nil_of_length_eq_zero (Nat.le_zero.1 enough)
    exact ⟨rfl, (append_nil _).symm⟩
  | succ fuel ih =>
    rw [readBytes]
    by_cases empty : rest = []
    · subst empty
      rw [length_nil] at whole
      rw [if_neg (by omega)]
      exact ⟨rfl, (append_nil _).symm⟩
    · have some := length_pos_of_ne_nil empty
      rw [if_pos (by omega)]
      refine ⟨rest, [], (append_nil _).symm, empty, by omega, ?_⟩
      intro taken pos bounded
      have len : (rest.take taken).length = taken := length_take_of_le (by omega)
      dsimp only
      rw [if_pos (by omega), append_nil]
      have later := ih (dict ++ rest.take taken) (rest.drop taken)
        (by rw [length_append, length_drop]; omega)
        (by rw [length_drop]; omega)
      rwa [append_assoc, take_append_drop] at later

structure Target.Announces (target : Target) (sync : Option Nat) (status : Word) : Prop where
  mapSize : status &&& optMapsize ≠ 0
  sharedMemory : decide (status &&& optShdmemFuzz ≠ 0) = target.sharedmemFuzzing
  futex : decide (status &&& optFutex ≠ 0) = sync.isSome
  sizeDerive : decide (status &&& optAllocsizeDerive ≠ 0) = target.bugModeDerive
  autodict : decide (status &&& optAutodict ≠ 0) = target.dictionaryToSend.isSome
  ijon : decide (status &&& optIjon ≠ 0) = target.ijonEnabled
  c11 : decide (status &&& optC11 ≠ 0) = target.c11Enabled
  bugMap : decide (status &&& optBugMap ≠ 0) = target.bugMap

private theorem optionWord_tests (sharedMemory futex sizeDerive autodict ijon c11 bugMap : Bool) :
    let status := optionWord sharedMemory futex sizeDerive autodict ijon c11 bugMap
    status &&& optMapsize ≠ 0 ∧
      decide (status &&& optShdmemFuzz ≠ 0) = sharedMemory ∧
      decide (status &&& optFutex ≠ 0) = futex ∧
      decide (status &&& optAllocsizeDerive ≠ 0) = sizeDerive ∧
      decide (status &&& optAutodict ≠ 0) = autodict ∧
      decide (status &&& optIjon ≠ 0) = ijon ∧
      decide (status &&& optC11 ≠ 0) = c11 ∧
      decide (status &&& optBugMap ≠ 0) = bugMap := by
  revert sharedMemory futex sizeDerive autodict ijon c11 bugMap
  decide

private theorem Target.options_announces (sync : Option Nat) :
    target.Announces sync (target.options sync) := by
  obtain ⟨mapSize, sharedMemory, futex, sizeDerive, autodict, ijon, c11, bugMap⟩ :=
    optionWord_tests target.sharedmemFuzzing sync.isSome target.bugModeDerive
      target.dictionaryToSend.isSome target.ijonEnabled target.c11Enabled target.bugMap
  exact ⟨mapSize, sharedMemory, futex, sizeDerive, autodict, ijon, c11, bugMap⟩

structure Accepts (fuzzer : Fuzzer) (target : Target) : Prop where
  mapSize : (target.mapSize.toNat + 63) / 64 * 64 ≤ fuzzer.mapLimit.toNat
  sharedMemory : target.sharedmemFuzzing = true → fuzzer.supportShmemFuzz = true
  sizeDerive : fuzzer.cmplogSizeDeriveRequested = true → target.bugModeDerive = true

structure Fresh (fuzzer : Fuzzer) (target : Target) : Prop where
  sharedMemory : fuzzer.useShmemFuzz = true → target.sharedmemFuzzing = true
  ijon : fuzzer.useIjon = true → target.ijonEnabled = true
  c11 : fuzzer.c11 = true → target.c11Enabled = true
  bugMap : fuzzer.useBugMap = true → target.bugMap = true

private theorem roundedSize_toNat {size limit : Word}
    (fits : (size.toNat + 63) / 64 * 64 ≤ limit.toNat) :
    (roundedSize size).toNat = (size.toNat + 63) / 64 * 64 := by
  have remainder : (size % 64).toNat = size.toNat % 64 := BitVec.toNat_umod
  unfold roundedSize
  split
  case isTrue uneven =>
    have sum : (size + 63).toNat = size.toNat + 63 := by
      exact Nat.mod_eq_of_lt (by have : (63 : Word).toNat = 63 := rfl; omega)
    rw [BitVec.toNat_shiftLeft, BitVec.toNat_ushiftRight, sum, Nat.shiftRight_eq_div_pow,
      Nat.shiftLeft_eq]
    exact Nat.mod_eq_of_lt (by omega)
  case isFalse even =>
    rw [not_not] at even
    rw [even] at remainder
    have zero : (0 : Word).toNat = 0 := rfl
    omega

variable {target : Target} {fuzzer : Fuzzer} {status : Word} {sync : Option Nat}
variable {dictionary : Option Dictionary}

private theorem Fuzzer.takeMapSize_eq (accepts : Accepts fuzzer target) :
    fuzzer.takeMapSize target.mapSize =
      .ok { fuzzer with mapSize := roundedSize target.mapSize, realMapSize := target.mapSize } := by
  have small : ¬ roundedSize target.mapSize > fuzzer.mapLimit := by
    rw [gt_iff_lt, BitVec.lt_def, roundedSize_toNat accepts.mapSize]
    exact Nat.not_lt.2 accepts.mapSize
  rw [Fuzzer.takeMapSize, if_neg small]

def Fuzzer.withOptions (fuzzer : Fuzzer) (target : Target) (sync : Option Nat) : Fuzzer :=
  { fuzzer with
    useShmemFuzz := target.sharedmemFuzzing
    supportsAllocsizeDerive := target.bugModeDerive
    useFutex := sync.isSome
    childSync := sync
    useIjon := target.ijonEnabled
    c11 := target.c11Enabled
    useBugMap := target.bugMap }

/-- The sync word as the fuzzer has it: as in the target, or still to be dropped. -/
def SyncOffered (fuzzer : Fuzzer) (sync : Option Nat) : Prop :=
  match sync with
  | some _ => fuzzer.useFutex = true ∧ fuzzer.childSync = sync
  | none => fuzzer.useFutex = false → fuzzer.childSync = none

private theorem Fuzzer.takeSync_eq {fuzzer : Fuzzer} {sync : Option Nat} {status : Word}
    (offered : SyncOffered fuzzer sync)
    (futex : decide (status &&& optFutex ≠ 0) = sync.isSome) :
    fuzzer.takeSync status = { fuzzer with useFutex := sync.isSome, childSync := sync } := by
  unfold Fuzzer.takeSync
  rw [futex]
  cases sync with
  | some offset =>
    obtain ⟨used, same⟩ := offered
    rw [Option.isSome_some, Bool.not_true, Bool.and_false, if_neg Bool.false_ne_true, ← used,
      ← same]
  | none =>
    cases used : fuzzer.useFutex with
    | true => rfl
    | false =>
      have dropped : fuzzer.childSync = none := offered used
      rw [Bool.false_and, if_neg Bool.false_ne_true, Option.isSome_none, ← used, ← dropped]

private theorem Fuzzer.takeSharedMemory_eq
    (accepted : target.sharedmemFuzzing = true → fuzzer.supportShmemFuzz = true)
    (fresh : fuzzer.useShmemFuzz = true → target.sharedmemFuzzing = true)
    (announced : decide (status &&& optShdmemFuzz ≠ 0) = target.sharedmemFuzzing) :
    fuzzer.takeSharedMemory status =
      .ok { fuzzer with useShmemFuzz := target.sharedmemFuzzing } := by
  unfold Fuzzer.takeSharedMemory
  cases requested : target.sharedmemFuzzing with
  | true =>
    rw [requested, decide_eq_true_iff] at announced
    rw [if_pos announced, if_pos (accepted requested)]
  | false =>
    rw [requested, decide_eq_false_iff_not] at announced
    have unset : fuzzer.useShmemFuzz = false := by
      rw [← Bool.not_eq_true]
      intro used
      exact absurd (fresh used) (by rw [requested]; exact Bool.false_ne_true)
    rw [if_neg announced, ← unset]

private theorem or_eq_of_imp {old announced : Bool} (fresh : old = true → announced = true) :
    (old || announced) = announced := by
  cases old with
  | false => rfl
  | true => rw [fresh rfl, Bool.or_true]

private theorem Fuzzer.takeSizeDerive_eq {fuzzer : Fuzzer} {target : Target} {status : Word}
    (accepted : fuzzer.cmplogSizeDeriveRequested = true → target.bugModeDerive = true)
    (announced : decide (status &&& optAllocsizeDerive ≠ 0) = target.bugModeDerive) :
    fuzzer.takeSizeDerive status =
      .ok { fuzzer with supportsAllocsizeDerive := target.bugModeDerive } := by
  unfold Fuzzer.takeSizeDerive
  rw [announced]
  cases requested : fuzzer.cmplogSizeDeriveRequested with
  | false => rfl
  | true =>
    rw [accepted requested]
    rfl

private theorem Fuzzer.takeOptions_eq {fuzzer : Fuzzer} {target : Target} {sync : Option Nat}
    {status : Word} (sharedMemory : target.sharedmemFuzzing = true → fuzzer.supportShmemFuzz = true)
    (sizeDerive : fuzzer.cmplogSizeDeriveRequested = true → target.bugModeDerive = true)
    (fresh : Fresh fuzzer target) (offered : SyncOffered fuzzer sync)
    (announces : target.Announces sync status) :
    fuzzer.takeOptions status = .ok (fuzzer.withOptions target sync) := by
  have shared := Fuzzer.takeSharedMemory_eq sharedMemory fresh.sharedMemory announces.sharedMemory
  -- the checks that follow only look at fields that were not touched before
  have derived := @Fuzzer.takeSizeDerive_eq
    { fuzzer with useShmemFuzz := target.sharedmemFuzzing } _ _ sizeDerive
    announces.sizeDerive
  have synced := @Fuzzer.takeSync_eq { fuzzer with
      useShmemFuzz := target.sharedmemFuzzing
      supportsAllocsizeDerive := target.bugModeDerive } _ _ offered announces.futex
  unfold Fuzzer.takeOptions
  rw [shared]
  change Except.bind (Fuzzer.takeSizeDerive _ _) _ = _
  rw [derived]
  change Except.ok (Fuzzer.takeFlags (Fuzzer.takeSync _ _) _) = _
  rw [synced]
  unfold Fuzzer.takeFlags Fuzzer.withOptions
  rw [announces.ijon, announces.c11, announces.bugMap]
  rw [or_eq_of_imp fresh.ijon, or_eq_of_imp fresh.c11, or_eq_of_imp fresh.bugMap]

private theorem Fuzzer.follows_receiveMapSize (accepts : Accepts fuzzer target)
    (announces : target.Announces sync status) :
    (fuzzer.receiveMapSize status).Follows [.got (wordBytes target.mapSize)]
      { fuzzer with mapSize := roundedSize target.mapSize, realMapSize := target.mapSize } := by
  unfold Fuzzer.receiveMapSize
  rw [if_pos announces.mapSize]
  refine follows_readWord ?_
  rw [Fuzzer.takeMapSize_eq accepts]
  exact ⟨rfl, rfl⟩

def Fuzzer.withTokens (fuzzer : Fuzzer) (toks : List (List Byte)) : Fuzzer :=
  { fuzzer with
    extras := fuzzer.extras ++
      if !fuzzer.ignoreAutodict && fuzzer.addExtra then toks else [] }

private theorem Dictionary.tokensFrom_eq (dictionary : Dictionary) :
    tokensFrom dictionary.bytes dictionary.bytes.length 0 = dictionary.tokens := by
  have found := tokensFrom_spec dictionary.tokens [] dictionary.bytes.length dictionary.short
    (Nat.le_of_eq (congrArg List.length dictionary.encodes.symm))
  rwa [← dictionary.encodes] at found

private theorem Fuzzer.addExtras_eq (fuzzer : Fuzzer) (dictionary : Dictionary) :
    fuzzer.addExtras dictionary.bytes = fuzzer.withTokens dictionary.tokens := by
  unfold Fuzzer.addExtras Fuzzer.withTokens
  rw [dictionary.tokensFrom_eq]
  cases wanted : !fuzzer.ignoreAutodict && fuzzer.addExtra with
  | true => rfl
  | false => simp

variable (carries : target.dictionary = dictionary.map Dictionary.bytes)

include carries

theorem dictionaryToSend_eq :
    target.dictionaryToSend = dictionary.map Dictionary.bytes := by
  unfold Target.dictionaryToSend
  rw [carries]
  cases dictionary with
  | none => rfl
  | some words =>
    have some : words.bytes.length ≠ 0 := by
      have atLeast := words.atLeast
      omega
    exact Option.filter_some_pos (decide_eq_true some)

private theorem Fuzzer.follows_receiveDictionary (announces : target.Announces sync status) :
    (fuzzer.receiveDictionary status).Follows
      ((dictionaryEvents target.dictionaryToSend).map PipeEvent.flip)
      (fuzzer.withTokens ((dictionary.map Dictionary.tokens).getD [])) := by
  have autodict := announces.autodict
  unfold Fuzzer.receiveDictionary
  rw [dictionaryToSend_eq carries] at autodict ⊢
  cases dictionary with
  | none =>
    rw [Option.map_none, Option.isSome_none, decide_eq_false_iff_not] at autodict
    rw [if_neg autodict]
    exact ⟨rfl, by simp [Fuzzer.withTokens]⟩
  | some words =>
    rw [Option.map_some, Option.isSome_some, decide_eq_true_iff] at autodict
    have size : (BitVec.ofNat 32 words.bytes.length).toNat = words.bytes.length := by
      exact Nat.mod_eq_of_lt (Nat.lt_of_le_of_lt words.atMost (by decide))
    have legal : ¬ (BitVec.ofNat 32 words.bytes.length < 2 ∨
        BitVec.ofNat 32 words.bytes.length > 0xffffff) := by
      rw [gt_iff_lt, BitVec.lt_def, BitVec.lt_def, size]
      exact not_or.2 ⟨Nat.not_lt.2 words.atLeast, Nat.not_lt.2 words.atMost⟩
    rw [if_pos autodict]
    refine follows_readWord ?_
    rw [if_neg legal, size]
    have bytes : (words.bytes.map PipeEvent.sentByte).map PipeEvent.flip =
        words.bytes.map PipeEvent.gotByte ++ [] := by
      rw [map_map, append_nil]
      rfl
    rw [bytes]
    refine (follows_readBytes words.bytes.length words.bytes.length [] words.bytes (by simp)
      (Nat.le_refl _)).bind ⟨rfl, ?_⟩
    exact fuzzer.addExtras_eq _

omit carries

private theorem Fuzzer.follows_receiveWelcome (fuzzer : Fuzzer) :
    (fuzzer.receiveWelcome hello).Follows [.got (wordBytes hello)] fuzzer := by
  refine follows_readWord ?_
  have masked : hello &&& ~~~(if fuzzer.useIjon then optIjon else 0) = hello := by
    cases fuzzer.useIjon with
    | false | true => rfl
  rw [if_neg (not_not_intro masked)]
  exact ⟨rfl, rfl⟩

def Fuzzer.after (fuzzer : Fuzzer) (target : Target) (sync : Option Nat)
    (toks : List (List Byte)) : Fuzzer :=
  (Fuzzer.withOptions
    { fuzzer with mapSize := roundedSize target.mapSize, realMapSize := target.mapSize }
    target sync).withTokens toks

include carries in
private theorem Fuzzer.follows_handshake (accepts : Accepts fuzzer target)
    (fresh : Fresh fuzzer target)
    (offered : SyncOffered fuzzer sync) :
    fuzzer.handshake.Follows ((target.conversation sync).map PipeEvent.flip)
      (fuzzer.after target sync ((dictionary.map Dictionary.tokens).getD [])) := by
  have announces := target.options_announces sync
  have taken := @Fuzzer.takeOptions_eq
    { fuzzer with mapSize := roundedSize target.mapSize, realMapSize := target.mapSize } _
    _ _ accepts.sharedMemory accepts.sizeDerive
    ⟨fresh.sharedMemory, fresh.ijon, fresh.c11, fresh.bugMap⟩ offered announces
  have events : (target.conversation sync).map PipeEvent.flip =
      .got (wordBytes hello) :: .sent (wordBytes (hello ^^^ 0xffffffff)) ::
        .got (wordBytes (target.options sync)) :: ([.got (wordBytes target.mapSize)] ++
          ((dictionaryEvents target.dictionaryToSend).map PipeEvent.flip ++
            [.got (wordBytes hello)])) := by
    simp [Target.conversation, PipeEvent.flip]
  rw [events]
  refine follows_readWord ?_
  refine follows_sendWord (follows_readWord ?_)
  refine (Fuzzer.follows_receiveMapSize accepts announces).bind ?_
  rw [taken]
  exact (Fuzzer.follows_receiveDictionary carries announces).bind (Fuzzer.follows_receiveWelcome _)

section

variable (fuzzer : Fuzzer)

theorem Fuzzer.childSyncSetup_cases :
    fuzzer.childSyncSetup =
        { fuzzer with useFutex := true, childSync := some fuzzer.childSyncOffset } ∨
      fuzzer.childSyncSetup = { fuzzer with useFutex := false, childSync := none } := by
  unfold Fuzzer.childSyncSetup
  split
  case isTrue unused =>
    have unset : fuzzer.useFutex = false := by simpa using unused
    right
    rw [← unset]
  case isFalse used =>
    have set_ : fuzzer.useFutex = true := by simpa using used
    split
    · left
      rw [← set_]
    · exact .inr rfl

private theorem Target.childSync_eq_some {variable_ : Option Nat} {offset : Nat}
    (uses : target.childSync variable_ = some offset) : variable_ = some offset :=
  (Option.filter_eq_some_iff.1 (Option.filter_eq_some_iff.1 uses).1).1

variable (target : Target)

private theorem syncOffered_setup :
    SyncOffered fuzzer.childSyncSetup (target.childSync fuzzer.childSyncSetup.syncVariable) := by
  cases sync : target.childSync fuzzer.childSyncSetup.syncVariable with
  | some offset =>
    have given := Target.childSync_eq_some sync
    rcases fuzzer.childSyncSetup_cases with prepared | prepared
    · rw [prepared] at given ⊢
      rw [Fuzzer.syncVariable, Option.ite_none_right_eq_some] at given
      exact ⟨rfl, given.2⟩
    · rw [prepared] at given
      cases given
  | none =>
    intro unused
    rcases fuzzer.childSyncSetup_cases with prepared | prepared
    · rw [prepared] at unused
      cases unused
    · rw [prepared]

structure Agreed (fuzzer : Fuzzer) (target : Target) (toks : List (List Byte))
    (sync : Option Nat) (post : Fuzzer) : Prop where
  realMapSize : post.realMapSize = target.mapSize
  sharedMemory : post.useShmemFuzz = target.sharedmemFuzzing
  sizeDerive : post.supportsAllocsizeDerive = target.bugModeDerive
  ijon : post.useIjon = target.ijonEnabled
  c11 : post.c11 = target.c11Enabled
  bugMap : post.useBugMap = target.bugMap
  futex : post.useFutex = sync.isSome
  childSync : post.childSync = sync
  extras : post.extras =
    fuzzer.extras ++ if !fuzzer.ignoreAutodict && fuzzer.addExtra then toks else []

private theorem dictionaryEvents_length (bytes : Option (List Byte)) :
    (dictionaryEvents bytes).length ≤ 1 + (bytes.getD []).length := by
  cases bytes with
  | none => exact Nat.zero_le _
  | some bytes =>
    rw [dictionaryEvents, length_cons, length_map, Option.getD_some]
    omega

private theorem Target.conversation_atoms (sync : Option Nat) :
    ∀ event ∈ target.conversation sync, event.atom.length ≤ 4 := by
  have word (word : Word) : (wordBytes word).length ≤ 4 := Nat.le_of_eq (wordBytes_length)
  have dictionary : ∀ event ∈ dictionaryEvents target.dictionaryToSend, event.atom.length ≤ 4 := by
    intro event mem
    cases sends : target.dictionaryToSend with
    | none =>
      rw [sends] at mem
      cases mem
    | some bytes =>
      rw [sends] at mem
      rcases mem_cons.1 mem with rfl | later
      · exact word _
      · obtain ⟨_, -, rfl⟩ := mem_map.1 later
        exact (by decide : 1 ≤ 4)
  intro event mem
  unfold Target.conversation at mem
  simp only [mem_cons, mem_append, not_mem_nil, or_false] at mem
  rcases mem with rfl | rfl | rfl | rfl | inside | rfl
  · exact word _
  · exact word _
  · exact word _
  · exact word _
  · exact dictionary _ inside
  · exact word _

private theorem Fuzzer.after_agreed (sync : Option Nat) :
    Agreed fuzzer target toks sync (fuzzer.childSyncSetup.after target sync toks) := by
  rcases fuzzer.childSyncSetup_cases with prepared | prepared
  all_goals
    rw [prepared]
    exact ⟨rfl, rfl, rfl, rfl, rfl, rfl, rfl, rfl, rfl⟩

end

/-- For every order of the steps and every split of the dictionary the handshake comes to
an end, without an error, with nothing left in the pipes and both sides agreed. -/
theorem handshake_fits_together (fuzzer : Fuzzer) (target : Target) (dictionary : Option Dictionary)
    (carries : target.dictionary = dictionary.map Dictionary.bytes)
    (accepts : Accepts fuzzer target) (fresh : Fresh fuzzer target) (cap : Nat)
    (room : 4 ≤ cap) (turns : List Turn)
    (w : Duplex Byte TargetError (Option Nat) FuzzerError Fuzzer)
    (ran : (connect fuzzer target).run cap turns = some w) :
    turns.length ≤ 12 + 2 * ((dictionary.map Dictionary.bytes).getD []).length ∧
      (∀ error, w.left ≠ .fail error) ∧ (∀ error, w.right ≠ .fail error) ∧
      ((∀ turn, w.step cap turn = none) → ∃ sync post, w = ⟨.done sync, .done post, [], []⟩ ∧
          Agreed fuzzer target ((dictionary.map Dictionary.tokens).getD []) sync post) := by
  have prepared : Accepts fuzzer.childSyncSetup target ∧ Fresh fuzzer.childSyncSetup target := by
    rcases fuzzer.childSyncSetup_cases with same | same
    all_goals
      rw [same]
      exact ⟨⟨accepts.mapSize, accepts.sharedMemory, accepts.sizeDerive⟩,
        ⟨fresh.sharedMemory, fresh.ijon, fresh.c11, fresh.bugMap⟩⟩
  have len : (target.conversation (target.childSync fuzzer.childSyncSetup.syncVariable)).length ≤
        6 + ((dictionary.map Dictionary.bytes).getD []).length := by
    have bytes := dictionaryEvents_length target.dictionaryToSend
    rw [dictionaryToSend_eq carries] at bytes
    simp only [Target.conversation, dictionaryToSend_eq carries, length_cons,
      length_append, length_nil]
    omega
  obtain ⟨_, leftFine, rightFine, ends⟩ := Duplex.run_start
    (target.follows_handshake fuzzer.childSyncSetup.syncVariable)
    (Fuzzer.follows_handshake carries prepared.1 prepared.2 (syncOffered_setup fuzzer target))
    (fun event mem => Nat.le_trans (target.conversation_atoms _ event mem) room) turns ran
  refine ⟨by omega, leftFine, rightFine, ?_⟩
  intro stuck
  exact ⟨_, _, ends stuck, fuzzer.after_agreed _ _ _⟩

def twoTokens : Dictionary where
  tokens := [[7], [8, 9]]
  short := by decide
  bytes := [1, 7, 2, 8, 9]
  encodes := by decide
  atLeast := by decide
  atMost := by decide

def sampleTarget : Target :=
  { mapSize := 70, sharedmemFuzzing := true, bugModeDerive := false, ijonEnabled := true
    c11Enabled := false, bugMap := false, attached := true
    dictionary := some twoTokens.bytes }

def sampleFuzzer : Fuzzer :=
  { mapSize := 0, realMapSize := 0, supportShmemFuzz := true, useShmemFuzz := false
    cmplogSizeDeriveRequested := false, supportsAllocsizeDerive := false
    persistentMode := true, traceBits := true, childSyncOffset := 65544, useFutex := true
    childSync := none, useIjon := false, c11 := false, useBugMap := false
    ignoreAutodict := false, addExtra := true, extras := [] }

def sampleTurns : List Turn :=
  [.left 0, .right 0, .right 0, .left 0, .left 0, .left 0, .left 0, .left 2, .right 0,
    .right 0, .left 3, .right 0, .left 0, .right 3, .right 2, .right 0]

theorem handshake_fits_together_sample :
    (Accepts sampleFuzzer sampleTarget ∧ Fresh sampleFuzzer sampleTarget) ∧
      ∃ post, (connect sampleFuzzer sampleTarget).run 4096 sampleTurns =
        some ⟨.done (some 65544), .done post, [], []⟩ ∧
        Agreed sampleFuzzer sampleTarget [[7], [8, 9]] (some 65544) post := by
  have accepts : Accepts sampleFuzzer sampleTarget := ⟨by decide, fun _ => rfl, nofun⟩
  have fresh : Fresh sampleFuzzer sampleTarget := ⟨nofun, nofun, nofun, nofun⟩
  obtain ⟨post, ran⟩ : ∃ post, (connect sampleFuzzer sampleTarget).run 4096 sampleTurns =
      some ⟨.done (some 65544), .done post, [], []⟩ := ⟨_, rfl⟩
  obtain ⟨-, -, -, ends⟩ := handshake_fits_together sampleFuzzer sampleTarget (some twoTokens) rfl
    accepts fresh 4096 (by decide) sampleTurns _ ran
  obtain ⟨sync, final, same, agreed⟩ := ends (by rintro (amount | amount) <;> rfl)
  obtain ⟨rfl, rfl⟩ : some 65544 = sync ∧ post = final := by
    injection same with left right
    exact ⟨PipeProgram.done.inj left, PipeProgram.done.inj right⟩
  exact ⟨⟨accepts, fresh⟩, post, ran, agreed⟩

end AflPlusPlus.Handshake
