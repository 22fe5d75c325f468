/-
Importing test cases from the queues of other instances.

A call lists the peer's queue directory in text order, looks for the first name that
agrees with the next id in nine characters, and runs everything from there on; each file
seen counts for one id, whether it is run or not.
-/

import AflPlusPlus.Common
import AflPlusPlus.Machine.Checked
import AflPlusPlus.Machine.Tally
import AflPlusPlus.Machine.TextScan

namespace AflPlusPlus

open Machine List

abbrev FileName := List Char

/-- `id:%06u` -/
def idText (id : Nat) : FileName := ['i', 'd', ':'] ++ zeroPadded 6 id

/-- A directory below `sync_dir`.  `queue` lists its queue directory, if there
is one; `fileSize` is what opening a queue file and `fstat` give. -/
structure PeerDir where
  dName : FileName
  isMainNode : Bool
  cmdlineMtime : Option Nat
  queue : Option (List FileName)
  fileSize : FileName → Option Nat

structure Execution where
  peer : FileName
  file : FileName
  size : Nat
  deriving DecidableEq

/-- The importing instance: its role, what it keeps in `.synced/`, and the
imported files it has run. -/
structure SyncState where
  syncId : FileName
  isSecondaryNode : Bool
  isMainNode : Bool
  synced : FileName → Option Nat
  maxStart : FileName → Option Nat
  executed : List Execution

/-- What a call of `sync_fuzzers` meets: the directory, the modification times
of the `.last` files, and the runs after which the user asks to stop. -/
structure SyncCall where
  aflNoSync : Bool
  peers : List PeerDir
  lastMtime : FileName → Nat
  stopSoon : FileName → Bool

def isKnownCase (syncId name : FileName) : Bool :=
  let comingFromMe := syncId ++ [',']
  if name.length < 15 + 4 + 6 + comingFromMe.length then false
  else if (name.drop 10).take 4 ≠ ['s', 'y', 'n', 'c'] then false
  else (name.drop 15).take comingFromMe.length = comingFromMe

/-- Neither zero-sized nor oversized, and not known; `nextMinAccept` already
counts the file. -/
def wantsFile (syncId : FileName) (maxStartId nextMinAccept : Nat) (file : FileName)
    (size : Nat) : Bool :=
  size ≠ 0 && size ≤ maxFile && (nextMinAccept < maxStartId || !isKnownCase syncId file)

structure FilePass where
  nextMinAccept : Nat
  executed : List Execution

section Loop

variable (syncId : FileName) (maxStartId : Nat) (peer : PeerDir) (stopSoon : FileName → Bool)

def visitFile (file : FileName) (pass : FilePass) : Bool × FilePass :=
  let pass := { pass with nextMinAccept := u32 (pass.nextMinAccept + 1) }
  match peer.fileSize file with
  | none => (false, pass)
  | some size =>
    if wantsFile syncId maxStartId pass.nextMinAccept file size then
      (stopSoon file, { pass with executed := pass.executed ++ [⟨peer.dName, file, size⟩] })
    else (false, pass)

def visitFiles : List FileName → FilePass → Bool × FilePass
  | [], pass => (false, pass)
  | file :: rest, pass =>
    let (stop, pass) := visitFile syncId maxStartId peer stopSoon file pass
    if stop then (true, pass) else visitFiles rest pass

end Loop

/-- `scandir` with `alphasort` -/
def scandir (names : List FileName) : List FileName :=
  names.insertionSort (· ≤ ·)

/-- `sprintf` into `entry[12]`; one byte is for the terminator. -/
def entryText (nextMinAccept : Nat) : Checked FileName :=
  if 12 < (idText nextMinAccept).length + 1 then .error .badAccess
  else .ok (idText nextMinAccept)

/-- Skip the names that differ from `entry` in their first nine characters. -/
def filesFrom (entry : FileName) (namelist : List FileName) : List FileName :=
  namelist.dropWhile (fun name => decide (name.take 9 ≠ entry.take 9))

namespace SyncState

def setSynced (s : SyncState) (name : FileName) (id : Nat) : SyncState :=
  { s with synced := Function.update s.synced name (some id) }

def nextMinAccept (s : SyncState) (name : FileName) : Nat := (s.synced name).getD 0

def pruneMax (s : SyncState) (name : FileName) : SyncState :=
  if (s.maxStart name).any (· < s.nextMinAccept name) then
    { s with maxStart := Function.update s.maxStart name none }
  else s

end SyncState

/-- The command line of the peer is not older than our last attempt: it was
restarted. -/
def PeerDir.restarted (lastMtime : Nat) (peer : PeerDir) : Bool :=
  peer.cmdlineMtime.any (fun mtime => lastMtime ≠ 0 && lastMtime ≤ mtime)

def importFiles (call : SyncCall) (peer : PeerDir) (maxStartId next : Nat) (found : List FileName)
    (s : SyncState) : SyncState :=
  let (stopped, pass) := visitFiles s.syncId maxStartId peer call.stopSoon found ⟨next, s.executed⟩
  let s := { s with executed := pass.executed }
  if stopped then s else s.setSynced peer.dName pass.nextMinAccept

def syncQueue (call : SyncCall) (peer : PeerDir) (names : List FileName) (s : SyncState) :
    Checked SyncState := do
  let next := s.nextMinAccept peer.dName
  let maxStartId := (s.maxStart peer.dName).getD 0
  let s := s.pruneMax peer.dName
  let entry ← entryText next
  let found := filesFrom entry (scandir names)
  if found.isEmpty then return s
  return importFiles call peer maxStartId next found s

def syncPeer (call : SyncCall) (peer : PeerDir) (s : SyncState) : Checked SyncState :=
  match peer.queue with
  | none => .ok s
  | some names =>
    if names.isEmpty then .ok s
    else if peer.restarted (call.lastMtime peer.dName) then
      .ok (s.setSynced peer.dName 0)
    else syncQueue call peer names s

/-- Secondary nodes only sync from the main node; an elected one steps down when
it meets another.  `none`: the peer is passed over. -/
def SyncState.meet (peer : PeerDir) (s : SyncState) : Option SyncState :=
  if s.isSecondaryNode then
    if s.isMainNode then
      some (if peer.isMainNode then { s with isMainNode := false } else s)
    else if peer.isMainNode then some s
    else none
  else some s

structure SyncLoop where
  state : SyncState
  entries : Nat
  synced : Nat

/-- One entry of the sync directory; dot files and our own are skipped. -/
def syncEntry (call : SyncCall) (loop : SyncLoop) (peer : PeerDir) : Checked SyncLoop :=
  if peer.dName.head? = some '.' || peer.dName = loop.state.syncId then .ok loop
  else
    match loop.state.meet peer with
    | none => .ok { loop with entries := loop.entries + 1 }
    | some s => do
      let s ← syncPeer call peer s
      return ⟨s, loop.entries + 1, loop.synced + 1⟩

def syncFuzzers (call : SyncCall) (s : SyncState) : Checked SyncState :=
  if call.aflNoSync then .ok s
  else do
    let loop ← call.peers.foldlM (syncEntry call) ⟨s, 0, 0⟩
    -- without a main node to sync from, a secondary node becomes one
    if loop.synced = 0 && loop.entries ≠ 0 && loop.state.isSecondaryNode then
      return { loop.state with isMainNode := true }
    return loop.state

def queueName (suffix : Nat → FileName) (id : Nat) : FileName := idText id ++ suffix id

theorem take_idText (id : Nat) (rest : FileName) :
    (idText id ++ rest).take 9 = ['i', 'd', ':'] ++ decimals 6 (leading 6 id) := by
  have shown := take_zeroPadded 6 id
  have wide : 6 ≤ (zeroPadded 6 id).length := by
    have shorter := congrArg List.length shown
    rw [length_take, length_decimals] at shorter
    omega
  change 'i' :: 'd' :: ':' :: ((zeroPadded 6 id ++ rest).take 6) = _
  rw [take_append_of_le_length wide, shown]
  rfl

private theorem idKey_lt_iff {left right : Nat} (leftShort : left < 10 ^ 6)
    (rightShort : right < 10 ^ 6) :
    ['i', 'd', ':'] ++ decimals 6 left < ['i', 'd', ':'] ++ decimals 6 right ↔ left < right := by
  change 'i' :: 'd' :: ':' :: decimals 6 left < 'i' :: 'd' :: ':' :: decimals 6 right ↔ _
  have order := decimals_lt_iff 6 left right
  rw [Nat.mod_eq_of_lt leftShort, Nat.mod_eq_of_lt rightShort] at order
  rw [cons_lt_cons_iff, cons_lt_cons_iff, cons_lt_cons_iff, order]
  simp

variable (left right : Nat) (leftRest rightRest : FileName)

theorem take_le_iff :
    (idText left ++ leftRest).take 9 ≤ (idText right ++ rightRest).take 9 ↔
      leading 6 left ≤ leading 6 right := by
  rw [take_idText, take_idText, ← not_lt, ← not_lt, idKey_lt_iff (leading_lt 6 _) (leading_lt 6 _)]

theorem take_eq_iff :
    (idText left ++ leftRest).take 9 = (idText right ++ rightRest).take 9 ↔
      leading 6 left = leading 6 right := by
  rw [le_antisymm_iff, take_le_iff, take_le_iff, ← le_antisymm_iff]

/-- The directory of a peer that has saved ids `0` to `n - 1`, besides the dot
entries every directory has. -/
def QueueListing (suffix : Nat → FileName) (n : Nat) (names : List FileName) : Prop :=
  ∃ dots : List FileName, (∀ dot ∈ dots, dot.head? = some '.') ∧
    names.Perm (dots ++ (List.range n).map (queueName suffix))

theorem dot_take_lt {dot : FileName} (starts : dot.head? = some '.') (id : Nat) :
    ¬ (idText id).take 9 ≤ dot.take 9 := by
  cases dot with
  | nil => cases starts
  | cons first rest =>
    cases starts
    have key := take_idText id []
    rw [append_nil] at key
    rw [not_le]
    change '.' :: rest.take 8 < 'i' :: _
    rw [cons_lt_cons_iff]
    exact .inl (by decide)

private theorem scandir_sorted (names : List FileName) :
    (scandir names).Pairwise (fun left right => left.take 9 ≤ right.take 9) :=
  (pairwise_insertionSort (· ≤ ·) names).imp (fun ordered => take_le_take ordered 9)

variable {next id : Nat}

section Found

variable {suffix : Nat → FileName} {n : Nat} {names : List FileName}
  (listing : QueueListing suffix n names)

include listing

/-- The search finds the ids whose leading six digits are not below those of
the wanted id, provided some file has just these digits. -/
theorem filesFrom_perm (present : ∃ id, id < n ∧ leading 6 id = leading 6 next) :
    (filesFrom (idText next) (scandir names)).Perm
      (((List.range n).filter (fun id => decide (leading 6 next ≤ leading 6 id))).map
        (queueName suffix)) := by
  obtain ⟨dots, hidden, listed⟩ := listing
  have sorted := (perm_insertionSort (· ≤ ·) _).trans listed
  have shown : ∃ name ∈ scandir names, name.take 9 = (idText next).take 9 := by
    obtain ⟨id, inside, same⟩ := present
    refine ⟨queueName suffix id, ?_, ?_⟩
    · rw [scandir, sorted.mem_iff, mem_append, mem_map]
      exact .inr ⟨id, mem_range.2 inside, rfl⟩
    · have agrees := take_eq_iff id next (suffix id) []
      rw [append_nil] at agrees
      exact agrees.2 same
  unfold filesFrom
  rw [dropWhile_of_sorted (fun name : FileName => name.take 9) (scandir_sorted _) shown]
  have kept := sorted.filter (fun name => decide ((idText next).take 9 ≤ name.take 9))
  have noDots : dots.filter (fun name => decide ((idText next).take 9 ≤ name.take 9)) = [] := by
    rw [filter_eq_nil_iff]
    intro dot mem above
    exact dot_take_lt (hidden _ mem) _ (of_decide_eq_true above)
  have keys : (fun name => decide ((idText next).take 9 ≤ name.take 9)) ∘ queueName suffix =
      fun id => decide (leading 6 next ≤ leading 6 id) := by
    funext id
    have order := take_le_iff next id [] (suffix id)
    rw [append_nil] at order
    exact decide_eq_decide.2 order
  rw [filter_append, noDots, filter_map, keys] at kept
  exact kept

private theorem filesFrom_absent (absent : ∀ id, id < n → leading 6 id ≠ leading 6 next) :
    filesFrom (idText next) (scandir names) = [] := by
  obtain ⟨_, hidden, listed⟩ := listing
  have sorted := (perm_insertionSort (· ≤ ·) _).trans listed
  apply dropWhile_of_absent (fun name : FileName => name.take 9)
  intro name mem same
  rw [scandir, sorted.mem_iff, mem_append, mem_map] at mem
  rcases mem with dot | ⟨id, inside, rfl⟩
  · exact dot_take_lt (hidden _ dot) _ (le_of_eq same.symm)
  · have agrees := take_eq_iff id next (suffix id) []
    rw [append_nil] at agrees
    exact absent id (mem_range.1 inside) (agrees.1 same)

omit listing

/-- Six digits are enough for the wanted id, and for the files or for the wanted
id to come first in text order as well. -/
def SixDigits (next n : Nat) : Prop := next < 10 ^ 6 ∧ (n ≤ 10 ^ 6 ∨ next ≤ 10 ^ 5)

private theorem le_leading_iff (short : SixDigits next n) (inside : id < n) :
    leading 6 next ≤ leading 6 id ↔ next ≤ id := by
  rw [leading_of_lt (by decide) short.1]
  by_cases small : id < 10 ^ 6
  · rw [leading_of_lt (by decide) small]
  · have long := le_leading_of_le (by decide) (Nat.le_of_not_lt small)
    have low : next ≤ 10 ^ 5 := short.2.resolve_left (by omega)
    constructor
    · omega
    · exact fun _ => Nat.le_trans low long

private theorem leading_eq_iff (short : next < 10 ^ 6) (below : id < next) :
    leading 6 id ≠ leading 6 next := by
  rw [leading_of_lt (by decide) short, leading_of_lt (by decide) (Nat.lt_trans below short)]
  omega

include listing in
theorem filesFrom_new (short : SixDigits next n) (grown : next ≤ n) :
    (filesFrom (idText next) (scandir names)).Perm
      ((List.range' next (n - next)).map (queueName suffix)) := by
  have ids : (List.range n).filter (fun id => decide (leading 6 next ≤ leading 6 id)) =
      List.range' next (n - next) := by
    have order : ∀ id ∈ List.range n,
        decide (leading 6 next ≤ leading 6 id) = decide (next ≤ id) := by
      intro id mem
      exact decide_eq_decide.2 (le_leading_iff short (mem_range.1 mem))
    have split : List.range n = List.range' 0 next ++ List.range' next (n - next) := by
      have parts := @List.range'_append_1 0 next (n - next)
      rw [Nat.zero_add, Nat.add_sub_cancel' grown] at parts
      rw [range_eq_range', parts]
    rw [filter_congr order, split, filter_append]
    have pre : (List.range' 0 next).filter (fun id => decide (next ≤ id)) = [] := by
      rw [filter_eq_nil_iff]
      intro id mem above
      rw [mem_range'_1] at mem
      have above := of_decide_eq_true above
      omega
    have behind : (List.range' next (n - next)).filter (fun id => decide (next ≤ id)) =
        List.range' next (n - next) := by
      rw [filter_eq_self]
      intro id mem
      rw [mem_range'_1] at mem
      exact decide_eq_true mem.1
    rw [pre, behind, nil_append]
  by_cases more : next < n
  · rw [← ids]
    exact filesFrom_perm listing ⟨next, more, rfl⟩
  · have none : n - next = 0 := by omega
    have absent := filesFrom_absent listing (fun id inside =>
      leading_eq_iff short.1 (Nat.lt_of_lt_of_le inside (Nat.le_of_not_lt more)))
    rw [absent, none]
    exact List.Perm.nil

end Found

end AflPlusPlus
