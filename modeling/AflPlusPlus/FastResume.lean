/-
Saving a campaign to `fastresume.bin` and resuming from it.

The file holds the virgin maps, the variable bytes and, for each entry, the raw memory from
`colorized` up to `mother` and the minimised trace if there is one.  The table of slot
winners is to be rebuilt by `update_bitmap_score`, which does nothing without a trace.
-/

import AflPlusPlus.Calibration
import AflPlusPlus.Machine.Checked
import AflPlusPlus.Machine.Format
import AflPlusPlus.QueueReferences

namespace AflPlusPlus

open Machine List

/-- The fields of the saved range that scheduling does not read.  The two
scores are doubles and are kept as their bits. -/
structure EntryMore where
  colorized : BitVec 8
  trimDone : Bool
  passedDet : Bool
  isAscii : Bool
  depth : BitVec 64
  custom : BitVec 64
  statsMutated : BitVec 64
  perfScore : BitVec 64
  weight : BitVec 64

/-- The memory of a `queue_entry` from `colorized` up to `mother`. -/
structure QueueData where
  colorized : BitVec 8
  calFailed : BitVec 8
  trimDone : Bool
  wasFuzzed : Bool
  passedDet : Bool
  hasNewCov : Bool
  varBehavior : Bool
  favored : Bool
  fsRedundant : Bool
  isAscii : Bool
  disabled : Bool
  tightnessNovel : Bool
  bitmapSize : BitVec 32
  fuzzLevel : BitVec 32
  nFuzzEntry : BitVec 32
  execUs : BitVec 64
  handicap : BitVec 64
  depth : BitVec 64
  execCksum : BitVec 64
  custom : BitVec 64
  statsMutated : BitVec 64
  tcRef : BitVec 32
  perfScore : BitVec 64
  weight : BitVec 64

def QueueEntry.data (more : EntryMore) (entry : QueueEntry) : QueueData where
  colorized := more.colorized
  calFailed := entry.calFailed
  trimDone := more.trimDone
  wasFuzzed := entry.wasFuzzed
  passedDet := more.passedDet
  hasNewCov := entry.hasNewCov
  varBehavior := entry.varBehavior
  favored := entry.favored
  fsRedundant := entry.fsRedundant
  isAscii := more.isAscii
  disabled := entry.disabled
  tightnessNovel := entry.tightnessNovel
  bitmapSize := BitVec.ofNat 32 entry.bitmapSize
  fuzzLevel := entry.fuzzLevel
  nFuzzEntry := BitVec.ofNat 32 entry.nFuzzEntry
  execUs := entry.execUs
  handicap := entry.handicap
  depth := more.depth
  execCksum := entry.execCksum
  custom := more.custom
  statsMutated := more.statsMutated
  tcRef := BitVec.ofNat 32 entry.tcRef
  perfScore := more.perfScore
  weight := more.weight

def QueueData.more (data : QueueData) : EntryMore where
  colorized := data.colorized
  trimDone := data.trimDone
  passedDet := data.passedDet
  isAscii := data.isAscii
  depth := data.depth
  custom := data.custom
  statsMutated := data.statsMutated
  perfScore := data.perfScore
  weight := data.weight

def QueueEntry.restore (data : QueueData) (entry : QueueEntry) : QueueEntry :=
  { entry with
    calFailed := data.calFailed
    wasFuzzed := data.wasFuzzed
    hasNewCov := data.hasNewCov
    varBehavior := data.varBehavior
    favored := data.favored
    fsRedundant := data.fsRedundant
    disabled := data.disabled
    tightnessNovel := data.tightnessNovel
    bitmapSize := data.bitmapSize.toNat
    fuzzLevel := data.fuzzLevel
    nFuzzEntry := data.nFuzzEntry.toNat
    execUs := data.execUs
    handicap := data.handicap
    execCksum := data.execCksum
    tcRef := data.tcRef.toNat }

/-- A record read over an entry; without a saved trace its own pointer stays. -/
def QueueEntry.takeRecord (data : QueueData) (mini : Option TraceMini) (entry : QueueEntry) :
    QueueEntry :=
  { entry.restore data with traceMini := mini.or entry.traceMini }

private theorem QueueEntry.data_takeRecord (data : QueueData) (mini : Option TraceMini)
    (entry : QueueEntry) : (entry.takeRecord data mini).data data.more = data := by
  simp [QueueEntry.takeRecord, QueueEntry.restore, QueueEntry.data, QueueData.more]

open Format in
/-- The layout of the range: two bytes, ten flags, then words at their natural
alignment, with a gap of four bytes before each run of 64-bit words. -/
def queueDataFormat : Format QueueData :=
  image ((word 1).pair <| (word 1).pair <|
      flag.pair <| flag.pair <| flag.pair <| flag.pair <| flag.pair <|
      flag.pair <| flag.pair <| flag.pair <| flag.pair <| flag.pair <|
      (word 4).pair <| (word 4).pair <| (word 4).pair <| (gap 4).pair <|
      (word 8).pair <| (word 8).pair <| (word 8).pair <|
      (word 8).pair <| (word 8).pair <| (word 8).pair <|
      (word 4).pair <| (gap 4).pair <| (word 8).pair <| word 8)
    (fun data => (data.colorized, data.calFailed, data.trimDone, data.wasFuzzed, data.passedDet,
      data.hasNewCov, data.varBehavior, data.favored, data.fsRedundant, data.isAscii,
      data.disabled, data.tightnessNovel, data.bitmapSize, data.fuzzLevel, data.nFuzzEntry, (),
      data.execUs, data.handicap, data.depth, data.execCksum, data.custom, data.statsMutated,
      data.tcRef, (), data.perfScore, data.weight))
    (fun (colorized, calFailed, trimDone, wasFuzzed, passedDet, hasNewCov, varBehavior, favored,
        fsRedundant, isAscii, disabled, tightnessNovel, bitmapSize, fuzzLevel, nFuzzEntry, _,
        execUs, handicap, depth, execCksum, custom, statsMutated, tcRef, _, perfScore, weight) =>
      ⟨colorized, calFailed, trimDone, wasFuzzed, passedDet, hasNewCov, varBehavior, favored,
        fsRedundant, isAscii, disabled, tightnessNovel, bitmapSize, fuzzLevel, nFuzzEntry,
        execUs, handicap, depth, execCksum, custom, statsMutated, tcRef, perfScore, weight⟩)
    (fun _ => rfl)

structure IjonState where
  ijonOffset : BitVec 32
  mapSize : BitVec 32
  realMapSize : BitVec 32
  targetMapSize : BitVec 32
  isInitialized : BitVec 8

open Format in
def ijonStateFormat : Format IjonState :=
  image ((word 4).pair <| (word 4).pair <| (word 4).pair <| (word 4).pair <| (word 1).pair <| gap 3)
    (fun ijon => (ijon.ijonOffset, ijon.mapSize, ijon.realMapSize, ijon.targetMapSize,
      ijon.isInitialized, ()))
    (fun (ijonOffset, mapSize, realMapSize, targetMapSize, isInitialized, _) =>
      ⟨ijonOffset, mapSize, realMapSize, targetMapSize, isInitialized⟩)
    (fun _ => rfl)

structure ResumeState where
  afl : Afl
  more : Nat → EntryMore
  useIjon : Bool
  ijonState : Option IjonState

namespace ResumeState

def mapSize (s : ResumeState) : Nat := s.afl.coverage.fsrv.mapSize

def entryData (s : ResumeState) (i : Nat) : QueueData :=
  (s.afl.queue.queueBuf i).data (s.more i)

/-- A minimised trace that is shorter than what is written of it would be read
out of its bounds. -/
def saveEntry (s : ResumeState) (mLen i : Nat) : Checked (List Byte) :=
  let data := queueDataFormat.write (s.entryData i)
  match (s.afl.queue.queueBuf i).traceMini with
  | none => .ok (data ++ [0])
  | some mini =>
    if mini.len < mLen then .error .badAccess
    else .ok (data ++ 1 :: blockBytes mLen mini.bytes)

def saveEntries (s : ResumeState) (mLen : Nat) : List Nat → Checked (List Byte)
  | [] => .ok []
  | i :: rest => do
    let entry ← s.saveEntry mLen i
    let later ← s.saveEntries mLen rest
    return entry ++ later

def saveMaps (s : ResumeState) : List Byte :=
  blockBytes s.mapSize s.afl.coverage.virginBits ++
    (blockBytes s.mapSize s.afl.coverage.virginTmout ++
      (blockBytes s.mapSize s.afl.coverage.virginCrash ++ blockBytes s.mapSize s.afl.varBytes))

def currentIjon (s : ResumeState) : IjonState :=
  let mapSize := BitVec.ofNat 32 s.mapSize
  let realMapSize := BitVec.ofNat 32 s.afl.coverage.fsrv.realMapSize
  let saved := s.ijonState.getD ⟨mapSize, mapSize, realMapSize, realMapSize, 1⟩
  { saved with mapSize := mapSize, realMapSize := realMapSize, targetMapSize := realMapSize }

end ResumeState

/-- `FAST_RESUME_VERSION`, the mode, and the sizes of the records: 192 bytes of
`queue_entry`, 4 and 20 bytes for IJON. -/
def fastResumeVersion (cmplogMode useIjon : Bool) : BitVec 64 :=
  0x01000000 + (if cmplogMode then 1 else 0) + (192 <<< 1) + (if useIjon then 4 + 20 else 0)

def saveFastResume (s : ResumeState) : Checked (List Byte) := do
  let mLen := (s.mapSize + 7) >>> 3
  let entries ← s.saveEntries mLen (List.range s.afl.queue.queuedItems)
  return (Format.word 8).write (fastResumeVersion s.afl.cmplogMode s.useIjon) ++
    ((if s.useIjon then (Format.word 4).write (BitVec.ofNat 32 s.mapSize) else []) ++ (s.saveMaps ++
        ((if s.useIjon then ijonStateFormat.write s.currentIjon else []) ++ entries)))

def ckRead {Value : Type} (format : Format Value) (file : List Byte) :
    Checked (Value × List Byte) :=
  match format.read file with
  | none => .error .aborted
  | some found => .ok found

def ckReadBlock (count : Nat) (file : List Byte) : Checked (List Byte × List Byte) :=
  match takeBytes count file with
  | none => .error .aborted
  | some found => .ok found

/-- The version tells whether the file can be used and whether IJON data is in
it. -/
def openFastResume (cmplogMode : Bool) (file : List Byte) : Option (Bool × List Byte) := do
  let (ver, rest) ← (Format.word 8).read file
  if ver = fastResumeVersion cmplogMode false then return (false, rest)
  if ver = fastResumeVersion cmplogMode true then return (true, rest)
  none

namespace ResumeState

def setMaps (s : ResumeState) (bits tmout crash vars : List Byte) : ResumeState :=
  { s with afl := { s.afl with
    coverage := { s.afl.coverage with
      virginBits := pour bits s.afl.coverage.virginBits
      virginTmout := pour tmout s.afl.coverage.virginTmout
      virginCrash := pour crash s.afl.coverage.virginCrash }
    varBytes := pour vars s.afl.varBytes } }

def loadMaps (stored : Nat) (s : ResumeState) (file : List Byte) :
    Checked (ResumeState × List Byte) := do
  let (bits, file) ← ckReadBlock stored file
  let (tmout, file) ← ckReadBlock stored file
  let (crash, file) ← ckReadBlock stored file
  let (vars, file) ← ckReadBlock stored file
  return (s.setMaps bits tmout crash vars, file)

def restoreIjon (saved : IjonState) (s : ResumeState) : ResumeState :=
  if saved.isInitialized = 0 then s
  else
    { s with
      useIjon := true
      ijonState := some { saved with isInitialized := 1 }
      afl := { s.afl with coverage := { s.afl.coverage with
        fsrv := { s.afl.coverage.fsrv with
          mapSize := saved.mapSize.toNat, realMapSize := saved.realMapSize.toNat } } } }

/-- Everything before the records: the maps, and in an IJON file their size in
front and the IJON parameters behind.  Returns the size the records were
written for. -/
def loadHead (isIjon : Bool) (s : ResumeState) (file : List Byte) :
    Checked (Nat × ResumeState × List Byte) :=
  if isIjon then do
    let (stored, file) ← ckRead (Format.word 4) file
    let (s, file) ← s.loadMaps stored.toNat file
    let (saved, file) ← ckRead ijonStateFormat file
    return (stored.toNat, s.restoreIjon saved, file)
  else do
    let stored := s.mapSize
    let (s, file) ← s.loadMaps stored file
    return (stored, s, file)

def restoreEntry (i : Nat) (data : QueueData) (mini : Option TraceMini) (s : ResumeState) :
    ResumeState :=
  { s with
    afl := s.afl.modifyEntry i (QueueEntry.takeRecord data mini)
    more := Function.update s.more i data.more }

end ResumeState

def Afl.tallyLoaded (i : Nat) (afl : Afl) : Afl :=
  let entry := afl.queue.queueBuf i
  let queue := updateBitmapScore afl.coverage.fsrv i false afl.queue
  let queue := if entry.wasFuzzed then
    { queue with pendingNotFuzzed := u32Pred queue.pendingNotFuzzed } else queue
  let queue := if entry.disabled then
    { queue with
      pendingNotFuzzed := if entry.wasFuzzed then queue.pendingNotFuzzed
        else u32Pred queue.pendingNotFuzzed
      activeItems := u32Pred queue.activeItems } else queue
  let queue := if entry.favored then
    { queue with
      queuedFavored := queue.queuedFavored + 1
      pendingFavored := if entry.wasFuzzed then queue.pendingFavored
        else queue.pendingFavored + 1 } else queue
  { afl with
    queue := queue
    totalBitmapSize := afl.totalBitmapSize + entry.bitmapSize
    totalBitmapEntries := afl.totalBitmapEntries + 1
    queuedVariable := if entry.varBehavior then afl.queuedVariable + 1 else afl.queuedVariable }

namespace ResumeState

def takeRecord (i : Nat) (data : QueueData) (mini : Option TraceMini) (s : ResumeState) :
    ResumeState :=
  let restored := s.restoreEntry i data mini
  { restored with afl := restored.afl.tallyLoaded i }

def loadMini (mLen : Nat) (file : List Byte) : Checked (Option TraceMini × List Byte) := do
  let (res, file) ← ckRead (Format.word 1) file
  if res = 0 then return (none, file)
  let (bytes, file) ← ckReadBlock mLen file
  return (some ⟨mLen, pour bytes (fun _ => 0)⟩, file)

def loadEntry (mLen : Nat) (loading : ResumeState × List Byte) (i : Nat) :
    Checked (ResumeState × List Byte) := do
  let (data, file) ← ckRead queueDataFormat loading.2
  let (mini, file) ← loadMini mLen file
  return (loading.1.takeRecord i data mini, file)

/-- Up to three trailing bytes are read; only an IJON file may have any, and
they must be zero. -/
def checkTrailing (isIjon : Bool) (file : List Byte) : Checked Unit :=
  if (file.take 3).isEmpty || (isIjon && (file.take 3).all (· == 0)) then .ok ()
  else .error .aborted

def setVarByteCount (s : ResumeState) : ResumeState :=
  { s with afl := { s.afl with
    varByteCount := countBytes s.afl.coverage.fsrv s.afl.varBytes } }

def setReinitTable (s : ResumeState) : ResumeState :=
  { s with afl := s.afl.withQueue { s.afl.queue with reinitTable := true } }

end ResumeState

def loadFastResume (isIjon : Bool) (s : ResumeState) (file : List Byte) :
    Checked ResumeState := do
  let (stored, s, file) ← s.loadHead isIjon file
  let (s, file) ← (List.range s.afl.queue.queuedItems).foldlM
    (ResumeState.loadEntry ((stored + 7) >>> 3)) (s.setVarByteCount, file)
  ResumeState.checkTrailing isIjon file
  return s.setReinitTable

def fastResume (s : ResumeState) (file : List Byte) : Checked (Option ResumeState) :=
  match openFastResume s.afl.cmplogMode file with
  | none => .ok none
  | some (isIjon, rest) => some <$> loadFastResume isIjon s rest

def Queue.ofFiles (lens : List (BitVec 32)) (empty : Queue) : Queue :=
  lens.foldl (fun queue len => addToQueue len queue) empty

theorem ckRead_write {Value : Type} (format : Format Value) (v : Value) (rest : List Byte) :
    ckRead format (format.write v ++ rest) = .ok (v, rest) := by
  unfold ckRead
  rw [format.read_write]

theorem ckReadBlock_append {count : Nat} {bytes : List Byte} (length : bytes.length = count)
    (rest : List Byte) : ckReadBlock count (bytes ++ rest) = .ok (bytes, rest) := by
  unfold ckReadBlock
  rw [takeBytes_append length]

namespace ResumeState

def savedMini (s : ResumeState) (mLen i : Nat) : Option TraceMini :=
  (s.afl.queue.queueBuf i).traceMini.map
    (fun mini => ⟨mLen, pour (blockBytes mLen mini.bytes) (fun _ => 0)⟩)

def takeSaved (saved : ResumeState) (mLen : Nat) (s : ResumeState) (i : Nat) : ResumeState :=
  s.takeRecord i (saved.entryData i) (saved.savedMini mLen i)

variable {saved : ResumeState} {mLen : Nat} (s : ResumeState) {bytes : List Byte}

private theorem loadEntry_saveEntry {i : Nat}
    (written : saved.saveEntry mLen i = .ok bytes) (rest : List Byte) :
    loadEntry mLen (s, bytes ++ rest) i = .ok (saved.takeSaved mLen s i, rest) := by
  unfold saveEntry at written
  unfold loadEntry takeSaved savedMini
  cases present : (saved.afl.queue.queueBuf i).traceMini with
  | none =>
    rw [present] at written
    cases written
    have tag : ckRead (Format.word 1) ([0] ++ rest) = .ok (0, rest) :=
      ckRead_write (Format.word 1) 0 _
    rw [append_assoc, ckRead_write]
    simp only [checked_ok_bind, loadMini, tag]
    rfl
  | some mini =>
    rw [present] at written
    dsimp only at written
    split at written
    · cases written
    · cases written
      have block := ckReadBlock_append (length_blockBytes mLen mini.bytes) rest
      have read : loadMini mLen ((1 :: blockBytes mLen mini.bytes) ++ rest) =
          .ok (some ⟨mLen, pour (blockBytes mLen mini.bytes) (fun _ => 0)⟩, rest) := by
        have tag : ckRead (Format.word 1) ((1 :: blockBytes mLen mini.bytes) ++ rest) =
            .ok (1, blockBytes mLen mini.bytes ++ rest) :=
          ckRead_write (Format.word 1) 1 (blockBytes _ mini.bytes ++ rest)
        simp only [loadMini, tag, checked_ok_bind, block]
        rfl
      rw [append_assoc, ckRead_write]
      simp only [checked_ok_bind, read]
      rfl

private theorem loadEntries_saveEntries {indices : List Nat}
    (written : saved.saveEntries mLen indices = .ok bytes) (rest : List Byte) :
    indices.foldlM (loadEntry mLen) (s, bytes ++ rest) =
      .ok (indices.foldl (saved.takeSaved mLen) s, rest) := by
  induction indices generalizing s bytes with
  | nil =>
    cases written
    rfl
  | cons i later ih =>
    unfold saveEntries at written
    cases first : saved.saveEntry mLen i with
    | error trap =>
      rw [first] at written
      cases written
    | ok entry =>
      rw [first] at written
      cases second : saved.saveEntries mLen later with
      | error trap =>
        rw [second] at written
        cases written
      | ok tail =>
        rw [second] at written
        cases written
        rw [foldlM_cons, append_assoc, loadEntry_saveEntry _ first]
        exact ih _ second

theorem saveEntries_ok (fits : ∀ i mini, (saved.afl.queue.queueBuf i).traceMini = some mini →
      mLen ≤ mini.len) (indices : List Nat) :
    ∃ bytes, saved.saveEntries mLen indices = .ok bytes := by
  induction indices with
  | nil => exact ⟨[], rfl⟩
  | cons i later ih =>
    obtain ⟨tail, second⟩ := ih
    have first : ∃ entry, saved.saveEntry mLen i = .ok entry := by
      unfold saveEntry
      split
      · exact ⟨_, rfl⟩
      · rename_i mini present
        rw [if_neg (Nat.not_lt_of_le (fits i _ present))]
        exact ⟨_, rfl⟩
    obtain ⟨entry, first⟩ := first
    refine ⟨entry ++ tail, ?_⟩
    unfold saveEntries
    rw [first]
    rw [second]
    rfl

end ResumeState

private theorem openFastResume_write (cmplogMode useIjon : Bool) (rest : List Byte) :
    openFastResume cmplogMode
      ((Format.word 8).write (fastResumeVersion cmplogMode useIjon) ++ rest) =
        some (useIjon, rest) := by
  unfold openFastResume
  rw [(Format.word 8).read_write]
  cases cmplogMode <;> cases useIjon <;> rfl

namespace ResumeState

variable {saved fresh : ResumeState} {mLen : Nat}

private theorem loadMaps_saveMaps (rest : List Byte) :
    fresh.loadMaps saved.mapSize (saved.saveMaps ++ rest) =
      .ok (fresh.setMaps (blockBytes saved.mapSize saved.afl.coverage.virginBits)
        (blockBytes saved.mapSize saved.afl.coverage.virginTmout)
        (blockBytes saved.mapSize saved.afl.coverage.virginCrash)
        (blockBytes saved.mapSize saved.afl.varBytes), rest) := by
  have block : ∀ memory rest, ckReadBlock saved.mapSize (blockBytes saved.mapSize memory ++ rest) =
        .ok (blockBytes saved.mapSize memory, rest) := by
    intro memory rest
    exact ckReadBlock_append (length_blockBytes saved.mapSize _) _
  unfold loadMaps saveMaps
  simp only [append_assoc, block, checked_ok_bind]
  rfl

private theorem loadHead_save (sized : saved.useIjon = false → fresh.mapSize = saved.mapSize)
    (small : saved.mapSize < 2 ^ 32) (rest : List Byte) :
    ∃ headed, fresh.loadHead saved.useIjon
        ((if saved.useIjon then (Format.word 4).write (BitVec.ofNat 32 saved.mapSize) else []) ++
          (saved.saveMaps ++
            ((if saved.useIjon then ijonStateFormat.write saved.currentIjon else []) ++ rest))) =
        .ok (saved.mapSize, headed, rest) ∧
      headed.afl.queue = fresh.afl.queue := by
  have stored : (BitVec.ofNat 32 saved.mapSize).toNat = saved.mapSize := by
    rw [BitVec.toNat_ofNat, Nat.mod_eq_of_lt small]
  unfold loadHead
  cases ijon : saved.useIjon with
  | false =>
    simp only [Bool.false_eq_true, if_false, nil_append, sized ijon, loadMaps_saveMaps,
      checked_ok_bind]
    refine ⟨_, rfl, rfl⟩
  | true =>
    simp only [if_true, ckRead_write, checked_ok_bind, stored, loadMaps_saveMaps]
    refine ⟨_, rfl, ?_⟩
    unfold restoreIjon
    split <;> rfl

end ResumeState

private theorem fastResume_save {saved fresh : ResumeState} {file : List Byte}
    (written : saveFastResume saved = .ok file)
    (small : saved.mapSize < 2 ^ 32)
    (cmplog : fresh.afl.cmplogMode = saved.afl.cmplogMode)
    (sized : saved.useIjon = false → fresh.mapSize = saved.mapSize)
    (items : fresh.afl.queue.queuedItems = saved.afl.queue.queuedItems) :
    ∃ headed : ResumeState, headed.afl.queue = fresh.afl.queue ∧ fastResume fresh file = .ok (some
        ((List.range saved.afl.queue.queuedItems).foldl
          (saved.takeSaved ((saved.mapSize + 7) >>> 3)) headed).setReinitTable) := by
  unfold saveFastResume at written
  dsimp only at written
  cases entries : saved.saveEntries ((saved.mapSize + 7) >>> 3)
      (List.range saved.afl.queue.queuedItems) with
  | error trap =>
    rw [entries] at written
    cases written
  | ok bytes =>
    rw [entries] at written
    cases written
    obtain ⟨headed, head, same⟩ := ResumeState.loadHead_save sized small bytes
    have records := ResumeState.loadEntries_saveEntries headed.setVarByteCount entries []
    rw [append_nil] at records
    refine ⟨headed.setVarByteCount, same, ?_⟩
    unfold fastResume
    rw [cmplog, openFastResume_write]
    dsimp only
    unfold loadFastResume
    rw [head]
    simp only [checked_ok_bind]
    rw [same, items, records]
    rfl

private theorem updateBitmapScore_without_trace (fsrv : Fsrv) (q : Nat) (queue : Queue) :
    updateBitmapScore fsrv q false queue = queue := by
  unfold updateBitmapScore
  split <;> rfl

theorem Afl.tallyLoaded_queue (i : Nat) (afl : Afl) :
    (afl.tallyLoaded i).queue = { afl.queue with
      pendingNotFuzzed := (afl.tallyLoaded i).queue.pendingNotFuzzed
      activeItems := (afl.tallyLoaded i).queue.activeItems
      queuedFavored := (afl.tallyLoaded i).queue.queuedFavored
      pendingFavored := (afl.tallyLoaded i).queue.pendingFavored } := by
  unfold Afl.tallyLoaded
  dsimp only
  rw [updateBitmapScore_without_trace]
  split <;> split <;> split <;> rfl

namespace ResumeState

def miniBytes (s : ResumeState) (mLen i : Nat) : Option (List Byte) :=
  (s.afl.queue.queueBuf i).traceMini.map (fun mini => blockBytes mLen mini.bytes)

structure RestoredAt (saved s : ResumeState) (mLen i : Nat) : Prop where
  data : s.entryData i = saved.entryData i
  mini : s.miniBytes mLen i = saved.miniBytes mLen i
  tcRef : (s.afl.queue.queueBuf i).tcRef = (saved.entryData i).tcRef.toNat

theorem RestoredAt.of_same {saved pre post : ResumeState} {mLen i : Nat}
    (restored : RestoredAt saved pre mLen i)
    (entry : post.afl.queue.queueBuf i = pre.afl.queue.queueBuf i)
    (more : post.more i = pre.more i) : RestoredAt saved post mLen i := by
  obtain ⟨data, mini, tcRef⟩ := restored
  unfold entryData at data
  unfold miniBytes at mini
  rw [← entry] at data mini tcRef
  rw [← more] at data
  exact ⟨data, mini, tcRef⟩

section Records

variable (saved s : ResumeState) (mLen : Nat)

private theorem takeSaved_topRated (i : Nat) :
    (saved.takeSaved mLen s i).afl.queue.topRated = s.afl.queue.topRated := by
  change ((s.restoreEntry i _ _).afl.tallyLoaded i).queue.topRated = _
  rw [Afl.tallyLoaded_queue]
  rfl

theorem takeSaved_queueBuf (i : Nat) :
    (saved.takeSaved mLen s i).afl.queue.queueBuf = (s.afl.queue.modify i
        (QueueEntry.takeRecord (saved.entryData i) (saved.savedMini mLen i))).queueBuf := by
  change ((s.restoreEntry i _ _).afl.tallyLoaded i).queue.queueBuf = _
  rw [Afl.tallyLoaded_queue]
  rfl

private theorem takeSaved_other {i j : Nat} (other : j ≠ i) :
    (saved.takeSaved mLen s i).afl.queue.queueBuf j = s.afl.queue.queueBuf j ∧
      (saved.takeSaved mLen s i).more j = s.more j := by
  constructor
  · rw [takeSaved_queueBuf, Queue.modify_of_ne other]
  · exact Function.update_of_ne other ..

private theorem takeSaved_restores (i : Nat) (fresh : (s.afl.queue.queueBuf i).traceMini = none) :
    RestoredAt saved (saved.takeSaved mLen s i) mLen i := by
  have entry : (saved.takeSaved mLen s i).afl.queue.queueBuf i =
      (s.afl.queue.queueBuf i).takeRecord (saved.entryData i) (saved.savedMini mLen i) := by
    rw [takeSaved_queueBuf, Queue.modify_self]
  have more : (saved.takeSaved mLen s i).more i = (saved.entryData i).more :=
    Function.update_self ..
  refine ⟨?_, ?_, congrArg QueueEntry.tcRef entry⟩
  · change ((saved.takeSaved mLen s i).afl.queue.queueBuf i).data _ = _
    rw [entry, more, QueueEntry.data_takeRecord]
  · unfold miniBytes
    rw [entry]
    change ((saved.savedMini mLen i).or (s.afl.queue.queueBuf i).traceMini).map _ = _
    rw [fresh]
    unfold savedMini
    cases (saved.afl.queue.queueBuf i).traceMini with
    | none => rfl
    | some mini => exact congrArg some (blockBytes_pour _ mini.bytes _)

private theorem takeSaved_all (indices : List Nat) (nodup : indices.Nodup)
    (fresh : ∀ i ∈ indices, (s.afl.queue.queueBuf i).traceMini = none) :
    let loaded := indices.foldl (saved.takeSaved mLen) s
    loaded.afl.queue.topRated = s.afl.queue.topRated ∧
      (∀ i ∈ indices, RestoredAt saved loaded mLen i) ∧
      ∀ i, i ∉ indices → loaded.afl.queue.queueBuf i = s.afl.queue.queueBuf i ∧
        loaded.more i = s.more i := by
  induction indices generalizing s with
  | nil => exact ⟨rfl, nofun, fun i _ => ⟨rfl, rfl⟩⟩
  | cons first later ih =>
    rw [nodup_cons] at nodup
    have still : ∀ i ∈ later,
        ((saved.takeSaved mLen s first).afl.queue.queueBuf i).traceMini = none := by
      intro i mem
      have other : i ≠ first := by
        rintro rfl
        exact nodup.1 mem
      rw [(takeSaved_other _ _ _ other).1]
      exact fresh i (mem_cons_of_mem _ mem)
    obtain ⟨slots, restored, rest⟩ := ih _ nodup.2 still
    refine ⟨slots.trans (takeSaved_topRated _ _ _ _), ?_, ?_⟩
    · intro i mem
      rcases mem_cons.1 mem with rfl | mem
      · have own := takeSaved_restores saved _ mLen i (fresh i mem_cons_self)
        exact own.of_same (rest i nodup.1).1 (rest i nodup.1).2
      · exact restored i mem
    · intro i absent
      rw [mem_cons, not_or] at absent
      have kept := rest i absent.2
      have other := takeSaved_other saved s mLen absent.1
      exact ⟨kept.1.trans other.1, kept.2.trans other.2⟩

end Records

end ResumeState

private theorem Queue.ofFiles_fresh (lens : List (BitVec 32)) (empty : Queue)
    (fresh : ∀ i, (empty.queueBuf i).traceMini = none) :
    (Queue.ofFiles lens empty).topRated = empty.topRated ∧
      (Queue.ofFiles lens empty).queuedItems = empty.queuedItems + lens.length ∧
      ∀ i, ((Queue.ofFiles lens empty).queueBuf i).traceMini = none := by
  induction lens generalizing empty with
  | nil => exact ⟨rfl, rfl, fresh⟩
  | cons len rest ih =>
    have added : ∀ i, ((addToQueue len empty).queueBuf i).traceMini = none := by
      intro i
      change ((empty.modify empty.queuedItems (fun _ => QueueEntry.added _)).queueBuf i).traceMini
        = none
      by_cases same : i = empty.queuedItems
      · rw [same, Queue.modify_self]
        rfl
      · rw [Queue.modify_of_ne same]
        exact fresh i
    obtain ⟨slots, items, minis⟩ := ih (addToQueue len empty) added
    refine ⟨slots, ?_, minis⟩
    rw [length_cons, Nat.add_comm rest.length 1, ← Nat.add_assoc]
    exact items

/-- A new session on the same files: nothing but `add_to_queue` has happened to
its queue, and it runs the same target in the same mode. -/
structure FreshSession (saved fresh : ResumeState) : Prop where
  queue : ∃ schedule fixedSeed aflDisableRedundant, fresh.afl.queue =
    Queue.ofFiles ((List.range saved.afl.queue.queuedItems).map
      (fun i => (saved.afl.queue.queueBuf i).len))
      (Queue.empty schedule fixedSeed aflDisableRedundant)
  cmplog : fresh.afl.cmplogMode = saved.afl.cmplogMode
  mapSize : saved.useIjon = false → fresh.mapSize = saved.mapSize

def EntriesRestored (saved loaded : ResumeState) : Prop :=
  ∀ i, i < saved.afl.queue.queuedItems →
    ResumeState.RestoredAt saved loaded ((saved.mapSize + 7) >>> 3) i

/-- The resumed state schedules as the saved one did: the entries are the same,
`tc_ref` counts slots again, and the next cull favors entries that cover what
the winners covered. -/
structure SchedulingRestored (trace : Nat → Buffer) (saved loaded : ResumeState) : Prop where
  entries : EntriesRestored saved loaded
  references : ∀ i, i < saved.afl.queue.queuedItems → (loaded.afl.queue.queueBuf i).tcRef =
    Nat.count (fun slot => loaded.afl.queue.topRated slot = some i) saved.mapSize
  cover : ∀ i, i < saved.mapSize → saved.afl.queue.topRated i ≠ none →
    (cullQueue loaded.afl.coverage.fsrv loaded.afl.queue).CoveredAt trace i

private theorem fastResume_restores {saved fresh : ResumeState} (small : saved.mapSize < 2 ^ 32)
    (fits : ∀ i mini, (saved.afl.queue.queueBuf i).traceMini = some mini →
      (saved.mapSize + 7) >>> 3 ≤ mini.len)
    (ses : FreshSession saved fresh) :
    ∃ file loaded, saveFastResume saved = .ok file ∧
      fastResume fresh file = .ok (some loaded) ∧ EntriesRestored saved loaded ∧
        ∀ i, loaded.afl.queue.topRated i = none := by
  obtain ⟨schedule, fixedSeed, aflDisableRedundant, queue⟩ := ses.queue
  obtain ⟨slots, items, minis⟩ := Queue.ofFiles_fresh
    ((List.range saved.afl.queue.queuedItems).map (fun i => (saved.afl.queue.queueBuf i).len))
    (Queue.empty schedule fixedSeed aflDisableRedundant) (fun _ => rfl)
  rw [← queue] at slots items minis
  rw [length_map, length_range] at items
  obtain ⟨_, saves⟩ := ResumeState.saveEntries_ok fits (List.range saved.afl.queue.queuedItems)
  have written : ∃ file, saveFastResume saved = .ok file := by
    unfold saveFastResume
    dsimp only
    rw [saves]
    exact ⟨_, rfl⟩
  obtain ⟨file, written⟩ := written
  have same : fresh.afl.queue.queuedItems = saved.afl.queue.queuedItems :=
    items.trans (Nat.zero_add _)
  obtain ⟨headed, kept, resumed⟩ := fastResume_save written small ses.cmplog ses.mapSize same
  have untouched : ∀ i ∈ List.range saved.afl.queue.queuedItems,
      (headed.afl.queue.queueBuf i).traceMini = none := by
    intro i _
    rw [kept]
    exact minis i
  obtain ⟨winners, restored, _⟩ := ResumeState.takeSaved_all saved headed
    ((saved.mapSize + 7) >>> 3) _ nodup_range untouched
  refine ⟨file, _, written, resumed, ?_, ?_⟩
  · intro i inside
    exact (restored i (mem_range.2 inside)).of_same rfl rfl
  · intro i
    refine (congrFun winners i).trans ?_
    rw [kept, slots]
    rfl

/-- The scheduling state comes back exactly if no index had a winner. -/
theorem fast_resume_restores_iff (trace : Nat → Buffer) (fsrv : Fsrv) (whole : fsrv.Whole)
    (schedule : Schedule) (fixedSeed aflDisableRedundant : Bool) (steps : List QueueStep)
    (regular : Along (queueStep trace) (fun s step => step.Regular trace s)
      (QueueState.start fsrv schedule fixedSeed aflDisableRedundant) steps)
    (saved fresh : ResumeState)
    (reached : (⟨saved.afl.coverage.fsrv, saved.afl.queue⟩ : QueueState) = runFrom (queueStep trace)
        (QueueState.start fsrv schedule fixedSeed aflDisableRedundant) steps)
    (ses : FreshSession saved fresh) :
    ∃ file loaded, saveFastResume saved = .ok file ∧
      fastResume fresh file = .ok (some loaded) ∧ EntriesRestored saved loaded ∧
      (SchedulingRestored trace saved loaded ↔
        ∀ i, i < saved.mapSize → saved.afl.queue.topRated i = none) := by
  have kept := SlotsKept.run _ _ whole _ _ _ _ regular
  rw [← reached] at kept
  have small : saved.mapSize < 2 ^ 32 := kept.whole.small
  have counts : RefCounts saved.mapSize saved.afl.queue := kept.referenced.counts
  have fits : ∀ i mini, (saved.afl.queue.queueBuf i).traceMini = some mini →
      (saved.mapSize + 7) >>> 3 ≤ mini.len := by
    intro i mini present
    have sized : mini.len = saved.mapSize / 8 := kept.referenced.sized i _ present
    have aligned : 8 ∣ saved.mapSize := kept.whole.aligned
    omega
  obtain ⟨file, loaded, written, resumed, entries, empty⟩ := fastResume_restores small fits ses
  refine ⟨file, loaded, written, resumed, entries, ?_⟩
  have unowned : ∀ q, Nat.count (fun slot => loaded.afl.queue.topRated slot = some q)
      saved.mapSize = 0 := by
    intro q
    rw [Nat.count_iff_forall_not]
    intro slot _ held
    rw [empty _] at held
    cases held
  -- A saved count is a `u32`; it is at most the map size, so it comes back whole.
  have refs : ∀ q, q < saved.afl.queue.queuedItems →
      (loaded.afl.queue.queueBuf q).tcRef = (saved.afl.queue.queueBuf q).tcRef := by
    intro q queued
    have most : (saved.afl.queue.queueBuf q).tcRef ≤ saved.mapSize := by
      rw [counts.owned q]
      exact Nat.count_le _
    rw [(entries q queued).tcRef]
    change (BitVec.ofNat 32 _).toNat = _
    rw [BitVec.toNat_ofNat, Nat.mod_eq_of_lt (by omega)]
  constructor
  · intro restored i inside
    cases held : saved.afl.queue.topRated i with
    | none => rfl
    | some winner =>
      have queued : winner < saved.afl.queue.queuedItems := (kept.hit.winners i _ held).1
      have pos := counts.tcRef_pos inside held
      rw [← refs _ queued, restored.references _ queued, unowned _] at pos
      exact absurd pos (Nat.lt_irrefl 0)
  · intro unheld
    refine ⟨entries, ?_, ?_⟩
    · intro q queued
      rw [refs q queued, unowned q, counts.owned q, Nat.count_iff_forall_not]
      intro slot inside held
      rw [unheld _ inside] at held
      cases held
    · intro i inside held
      exact absurd (unheld i inside) held

def plainSession (s : QueueState) : ResumeState where
  afl := Afl.initial { Coverage.initial 8 8 with fsrv := s.fsrv } s.queue
    ⟨false, false, false⟩ 1000 1000
  more := fun _ => ⟨0, false, false, false, 1, 0, 0, 0, 0⟩
  useIjon := false
  ijonState := none

def seedSession (trace : Nat → Buffer) (steps : List QueueStep) : ResumeState :=
  plainSession (runFrom (queueStep trace)
    (QueueState.start ⟨fun _ => 0, 8, 8⟩ .explore false false) steps)

def newSession : ResumeState :=
  plainSession ⟨⟨fun _ => 0, 8, 8⟩, Queue.ofFiles [4] (Queue.empty .explore false false)⟩

theorem fast_resume_restores_iff_silent_seed :
    let saved := seedSession (fun _ _ => 0) [.add 4, .score 0, .cull]
    (∀ i, i < 8 → saved.afl.queue.topRated i = none) ∧
      ∃ file loaded, saveFastResume saved = .ok file ∧
        fastResume newSession file = .ok (some loaded) ∧
        SchedulingRestored (fun _ _ => 0) saved loaded := by
  intro saved
  have unheld : ∀ i, i < 8 → saved.afl.queue.topRated i = none := by
    unfold saved
    decide +kernel
  refine ⟨unheld, ?_⟩
  obtain ⟨file, loaded, written, resumed, _, law⟩ := fast_resume_restores_iff (fun _ _ => 0)
    ⟨fun _ => 0, 8, 8⟩ ⟨by decide, by decide⟩ .explore false false [.add 4, .score 0, .cull]
    ⟨trivial, Nat.zero_lt_one, trivial, trivial⟩
    saved newSession rfl
    ⟨⟨.explore, false, false, rfl⟩, rfl, fun _ => rfl⟩
  exact ⟨file, loaded, written, resumed, law.2 unheld⟩

/-- A seed that wins index 0 keeps its reference over a resume, but not the
slot; the next cull does not run and favors nothing. -/
theorem fast_resume_loses_winner :
    (seedSession sharedTrace [.add 4, .score 0]).afl.queue.topRated 0 = some 0 ∧
      (do let file ← saveFastResume (seedSession sharedTrace [.add 4, .score 0])
          let resumed ← fastResume newSession file
          return resumed.map (fun loaded : ResumeState =>
            ((loaded.afl.queue.queueBuf 0).tcRef, loaded.afl.queue.topRated 0,
              ((cullQueue loaded.afl.coverage.fsrv loaded.afl.queue).queueBuf 0).favored))).toOption
        = some (some (1, none, false)) := by
  decide +kernel

end AflPlusPlus
