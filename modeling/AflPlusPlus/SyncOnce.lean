/-
Every file of a growing queue directory is imported once.

As long as ids keep to six digits the text order of the names is the order of
the ids, and the next id to accept is the number of files seen.  Files the peer
itself imported from this instance are counted but need not be run.
-/

import AflPlusPlus.Machine.GuardedRun
import AflPlusPlus.SyncFuzzers

namespace AflPlusPlus

open Machine List

def runsIn (log : List Execution) (peer file : FileName) : Nat :=
  log.countP (fun run => run.peer = peer && run.file = file)

def SyncState.runs (s : SyncState) (peer file : FileName) : Nat :=
  runsIn s.executed peer file

theorem runsIn_append (first second : List Execution) (peer file : FileName) :
    runsIn (first ++ second) peer file = runsIn first peer file + runsIn second peer file :=
  countP_append ..

private theorem runsIn_foreign {log : List Execution} {owner peer : FileName}
    (own : ∀ run ∈ log, run.peer = owner) (other : peer ≠ owner) (file : FileName) :
    runsIn log peer file = 0 := by
  unfold runsIn
  rw [countP_eq_zero]
  intro run mem same
  rw [own _ mem] at same
  simp only [Bool.and_eq_true, decide_eq_true_eq] at same
  exact other same.1.symm

section Loop

variable {syncId : FileName} {maxStartId : Nat} {peer : PeerDir} {stopSoon : FileName → Bool}

private theorem visitFiles_added (files : List FileName) (pass : FilePass) :
    ∃ added, (visitFiles syncId maxStartId peer stopSoon files pass).2.executed =
        pass.executed ++ added ∧ ∀ run ∈ added, run.peer = peer.dName := by
  induction files generalizing pass with
  | nil => exact ⟨[], (append_nil _).symm, nofun⟩
  | cons file rest ih =>
    have once : ∃ added, (visitFile syncId maxStartId peer stopSoon file pass).2.executed =
          pass.executed ++ added ∧ ∀ run ∈ added, run.peer = peer.dName := by
      unfold visitFile
      dsimp only
      split
      · exact ⟨[], (append_nil _).symm, nofun⟩
      · split
        · refine ⟨_, rfl, ?_⟩
          intro run mem
          rw [mem_singleton.1 mem]
        · exact ⟨[], (append_nil _).symm, nofun⟩
    obtain ⟨first, ran, own⟩ := once
    unfold visitFiles
    dsimp only
    split
    · exact ⟨first, ran, own⟩
    · obtain ⟨later, went, ownLater⟩ := ih (visitFile syncId maxStartId peer stopSoon file pass).2
      refine ⟨first ++ later, ?_, ?_⟩
      · rw [went, ran, append_assoc]
      · intro run mem
        rcases mem_append.1 mem with here | there
        · exact own _ here
        · exact ownLater _ there

def PeerDir.Complete (peer : PeerDir) (file : FileName) : Prop :=
  ∃ size, peer.fileSize file = some size ∧ size ≠ 0 ∧ size ≤ maxFile

private theorem visitFile_complete {file : FileName} (complete : peer.Complete file)
    (pass : FilePass) :
    ∃ added, (visitFile syncId maxStartId peer stopSoon file pass).2 =
        ⟨u32 (pass.nextMinAccept + 1), pass.executed ++ added⟩ ∧
      (∀ other, runsIn added peer.dName other ≤ [file].count other) ∧
      ∀ other, isKnownCase syncId other = false →
        runsIn added peer.dName other = [file].count other := by
  obtain ⟨size, opened, filled, fits⟩ := complete
  unfold visitFile
  rw [opened]
  dsimp only
  have single : ∀ other, runsIn [⟨peer.dName, file, size⟩] peer.dName other =
      [file].count other := by
    intro other
    unfold runsIn
    simp [countP_cons, count_cons]
  split
  · exact ⟨_, rfl, fun other => Nat.le_of_eq (single _), fun other _ => single _⟩
  · rename_i refused
    refine ⟨[], ?_, fun other => Nat.zero_le _, ?_⟩
    · rw [append_nil]
    · intro other unknown
      symm
      change [file].count other = 0
      rw [count_eq_zero, mem_singleton]
      rintro rfl
      apply refused
      unfold wantsFile
      simp [filled, fits, unknown]

private theorem visitFiles_complete (quiet : ∀ file, stopSoon file = false) (files : List FileName)
    (complete : ∀ file ∈ files, peer.Complete file) (pass : FilePass)
    (word : pass.nextMinAccept < 2 ^ 32) :
    ∃ added, visitFiles syncId maxStartId peer stopSoon files pass =
        (false, ⟨u32 (pass.nextMinAccept + files.length), pass.executed ++ added⟩) ∧
      (∀ file, runsIn added peer.dName file ≤ files.count file) ∧
      ∀ file, isKnownCase syncId file = false →
        runsIn added peer.dName file = files.count file := by
  induction files generalizing pass with
  | nil =>
    refine ⟨[], ?_, fun _ => Nat.le_refl 0, fun _ _ => rfl⟩
    rw [append_nil]
    change (false, pass) = (false, ⟨u32 pass.nextMinAccept, pass.executed⟩)
    unfold u32
    rw [Nat.mod_eq_of_lt word]
  | cons file rest ih =>
    obtain ⟨first, ran, most, all⟩ := @visitFile_complete syncId maxStartId peer stopSoon file
      (complete file mem_cons_self) pass
    have goes : (visitFile syncId maxStartId peer stopSoon file pass).1 = false := by
      unfold visitFile
      dsimp only
      split
      · rfl
      · split
        · exact quiet _
        · rfl
    obtain ⟨later, went, mostLater, allLater⟩ := ih
      (fun other mem => complete other (mem_cons_of_mem file mem))
      (visitFile syncId maxStartId peer stopSoon file pass).2 (by
        rw [ran]
        exact Nat.mod_lt _ (by decide))
    refine ⟨first ++ later, ?_, ?_, ?_⟩
    · unfold visitFiles
      dsimp only
      rw [goes, if_neg Bool.false_ne_true, went, ran, append_assoc]
      unfold u32
      rw [length_cons, Nat.mod_add_mod, Nat.add_assoc, Nat.add_comm 1]
    · intro other
      rw [runsIn_append, count_cons, Nat.add_comm]
      have here := most other
      rw [count_singleton] at here
      exact Nat.add_le_add (mostLater _) here
    · intro other unknown
      have here := all _ unknown
      rw [count_singleton] at here
      rw [runsIn_append, count_cons, here, allLater _ unknown, Nat.add_comm]

end Loop

structure SyncFrame (touched : FileName → Prop) (pre post : SyncState) : Prop where
  syncId : post.syncId = pre.syncId
  isSecondaryNode : post.isSecondaryNode = pre.isSecondaryNode
  synced : ∀ name, ¬ touched name → post.synced name = pre.synced name
  maxStart : ∀ name, ¬ touched name → post.maxStart name = pre.maxStart name
  runs : ∀ name file, ¬ touched name → post.runs name file = pre.runs name file

variable (s : SyncState)

section Frame

variable {touched : FileName → Prop} {pre post : SyncState}

theorem SyncFrame.refl (touched : FileName → Prop) :
    SyncFrame touched s s :=
  ⟨rfl, rfl, fun _ _ => rfl, fun _ _ => rfl, fun _ _ _ => rfl⟩

theorem SyncFrame.trans {last : SyncState} (left : SyncFrame touched pre post)
    (right : SyncFrame touched post last) : SyncFrame touched pre last where
  syncId := right.syncId.trans left.syncId
  isSecondaryNode := right.isSecondaryNode.trans left.isSecondaryNode
  synced := fun name free => (right.synced name free).trans (left.synced name free)
  maxStart := fun name free => (right.maxStart name free).trans (left.maxStart name free)
  runs := fun name file free => (right.runs name file free).trans (left.runs name file free)

variable (frame : SyncFrame touched pre post)

include frame

theorem SyncFrame.mono {wider : FileName → Prop}
    (covers : ∀ name, touched name → wider name) : SyncFrame wider pre post where
  syncId := frame.syncId
  isSecondaryNode := frame.isSecondaryNode
  synced := fun name free => frame.synced name (fun touches => free (covers name touches))
  maxStart := fun name free => frame.maxStart name (fun touches => free (covers name touches))
  runs := fun name file free => frame.runs name file (fun touches => free (covers name touches))

theorem SyncFrame.nextMinAccept {name : FileName}
    (free : ¬ touched name) : post.nextMinAccept name = pre.nextMinAccept name :=
  congrArg (Option.getD · 0) (frame.synced name free)

end Frame

variable (s : SyncState) (name : FileName)

theorem setSynced_frame (id : Nat) :
    SyncFrame (· = name) s (s.setSynced name id) where
  syncId := rfl
  isSecondaryNode := rfl
  synced := fun _ ne => Function.update_of_ne ne ..
  maxStart := fun _ _ => rfl
  runs := fun _ _ _ => rfl

theorem pruneMax_frame :
    SyncFrame (· = name) s (s.pruneMax name) ∧ (s.pruneMax name).synced = s.synced ∧
      (s.pruneMax name).executed = s.executed := by
  unfold SyncState.pruneMax
  split
  · refine ⟨⟨rfl, rfl, fun _ _ => rfl, ?_, fun _ _ _ => rfl⟩, rfl, rfl⟩
    intro other ne
    exact Function.update_of_ne ne ..
  · exact ⟨SyncFrame.refl _ _, rfl, rfl⟩

private theorem log_frame {name : FileName} (added : List Execution)
    (own : ∀ run ∈ added, run.peer = name) :
    SyncFrame (· = name) s { s with executed := s.executed ++ added } where
  syncId := rfl
  isSecondaryNode := rfl
  synced := fun _ _ => rfl
  maxStart := fun _ _ => rfl
  runs := by
    intro other file ne
    unfold SyncState.runs
    rw [runsIn_append, runsIn_foreign own ne, Nat.add_zero]

theorem entryText_ok {next : Nat} (fits : next < 10 ^ 8) : entryText next = .ok (idText next) := by
  have digits : (zeroPadded 6 next).length ≤ 8 := length_zeroPadded_le (by decide) (by decide) fits
  have len : (idText next).length = 3 + (zeroPadded 6 next).length := by
    unfold idText
    rw [length_append]
    rfl
  unfold entryText
  rw [if_neg (by omega)]

private theorem importFiles_frame (call : SyncCall) (peer : PeerDir) (maxStartId next : Nat)
    (found : List FileName) :
    SyncFrame (· = peer.dName) s (importFiles call peer maxStartId next found s) := by
  obtain ⟨_, ran, own⟩ := @visitFiles_added s.syncId maxStartId peer call.stopSoon found
    ⟨next, s.executed⟩
  have logged := log_frame s _ own
  unfold importFiles
  dsimp only
  rw [ran]
  split
  · exact logged
  · exact logged.trans (setSynced_frame _ _ _)

variable {s : SyncState} {p : FileName} {call : SyncCall} {id : Nat} {peer : PeerDir}

private theorem syncQueue_frame {call : SyncCall} {names : List FileName}
    (fits : s.nextMinAccept peer.dName < 10 ^ 8) :
    ∃ post, syncQueue call peer names s = .ok post ∧ SyncFrame (· = peer.dName) s post := by
  obtain ⟨pruned, _, _⟩ := pruneMax_frame s peer.dName
  unfold syncQueue
  dsimp only
  rw [entryText_ok fits, checked_ok_bind]
  split
  · exact ⟨_, rfl, pruned⟩
  · exact ⟨_, rfl, pruned.trans (importFiles_frame ..)⟩

theorem syncPeer_frame (call : SyncCall) (peer : PeerDir) {s : SyncState}
    (fits : s.nextMinAccept peer.dName < 10 ^ 8) :
    ∃ post, syncPeer call peer s = .ok post ∧ SyncFrame (· = peer.dName) s post := by
  unfold syncPeer
  split
  · exact ⟨s, rfl, SyncFrame.refl _ _⟩
  · split
    · exact ⟨s, rfl, SyncFrame.refl _ _⟩
    · split
      · exact ⟨_, rfl, setSynced_frame _ peer.dName 0⟩
      · exact syncQueue_frame fits

theorem meet_frame {s met : SyncState} (meets : s.meet peer = some met)
    (touched : FileName → Prop) : SyncFrame touched s met := by
  unfold SyncState.meet at meets
  split at meets
  · split at meets
    · cases meets
      split
      · exact ⟨rfl, rfl, fun _ _ => rfl, fun _ _ => rfl, fun _ _ _ => rfl⟩
      · exact SyncFrame.refl _ _
    · split at meets
      · cases meets
        exact SyncFrame.refl _ _
      · cases meets
  · cases meets
    exact SyncFrame.refl _ _

theorem syncEntry_frame (call : SyncCall) (peer : PeerDir) {loop : SyncLoop}
    (fits : loop.state.nextMinAccept peer.dName < 10 ^ 8) :
    ∃ post, syncEntry call loop peer = .ok post ∧
      SyncFrame (· = peer.dName) loop.state post.state := by
  unfold syncEntry
  split
  · exact ⟨loop, rfl, SyncFrame.refl _ _⟩
  · split
    · exact ⟨_, rfl, SyncFrame.refl _ _⟩
    · rename_i met meets
      have frame : ∀ touched, SyncFrame touched loop.state met := meet_frame meets
      have same : met.nextMinAccept peer.dName = loop.state.nextMinAccept peer.dName :=
        (frame (fun _ => False)).nextMinAccept (fun bad => bad)
      obtain ⟨post, synced, changed⟩ := syncPeer_frame call peer
        (Nat.lt_of_le_of_lt (Nat.le_of_eq same) fits)
      rw [synced]
      exact ⟨_, rfl, (frame _).trans changed⟩

private theorem syncEntries_frame (call : SyncCall) (peers : List PeerDir) {loop : SyncLoop}
    (unique : (peers.map PeerDir.dName).Nodup)
    (fits : ∀ peer ∈ peers, loop.state.nextMinAccept peer.dName < 10 ^ 8) :
    ∃ post, peers.foldlM (syncEntry call) loop = .ok post ∧
      SyncFrame (· ∈ peers.map PeerDir.dName) loop.state post.state := by
  induction peers generalizing loop with
  | nil => exact ⟨loop, rfl, SyncFrame.refl _ _⟩
  | cons peer rest ih =>
    rw [map_cons, nodup_cons] at unique
    obtain ⟨middle, went, frame⟩ := syncEntry_frame call peer (fits peer mem_cons_self)
    have fitsLater : ∀ other ∈ rest, middle.state.nextMinAccept other.dName < 10 ^ 8 := by
      intro other mem
      have ne : ¬ other.dName = peer.dName := by
        intro same
        exact unique.1 (same ▸ mem_map_of_mem mem)
      rw [frame.nextMinAccept ne]
      exact fits _ (mem_cons_of_mem _ mem)
    obtain ⟨post, goes, later⟩ := ih unique.2 fitsLater
    refine ⟨post, ?_, ?_⟩
    · rw [foldlM_cons, went]
      exact goes
    · refine (frame.mono ?_).trans (later.mono ?_)
      · intro name same
        exact mem_map.2 ⟨peer, mem_cons_self, same.symm⟩
      · exact fun name mem => mem_cons_of_mem _ mem

/-- The peer has saved ids `0` to `n - 1`, all complete. -/
structure PeerOffers (suffix : Nat → FileName) (n : Nat) (peer : PeerDir) : Prop where
  queue : ∃ names, peer.queue = some names ∧ QueueListing suffix n names
  complete : ∀ id, id < n → peer.Complete (queueName suffix id)

/-- The first `c` ids of peer `p` have been seen, and nothing else of it. -/
structure Imported (p : FileName) (suffix : Nat → FileName) (c : Nat) (s : SyncState) :
    Prop where
  next : s.nextMinAccept p = c
  most : ∀ id, id < c → s.runs p (queueName suffix id) ≤ 1
  once : ∀ id, id < c → isKnownCase s.syncId (queueName suffix id) = false →
    s.runs p (queueName suffix id) = 1
  fresh : ∀ id, c ≤ id → s.runs p (queueName suffix id) = 0

variable {suffix : Nat → FileName} {n c : Nat}

theorem Imported.of_frame {touched : FileName → Prop} {pre post : SyncState}
    (imported : Imported p suffix c pre) (frame : SyncFrame touched pre post)
    (free : ¬ touched p) : Imported p suffix c post where
  next := (frame.nextMinAccept free).trans imported.next
  most := by
    intro id below
    rw [frame.runs _ _ free]
    exact imported.most id below
  once := by
    intro id below unknown
    rw [frame.syncId] at unknown
    rw [frame.runs _ _ free]
    exact imported.once id below unknown
  fresh := by
    intro id beyond
    rw [frame.runs _ _ free]
    exact imported.fresh id beyond

theorem Imported.of_same {pre post : SyncState} (imported : Imported p suffix c pre)
    (syncId : post.syncId = pre.syncId) (synced : post.synced = pre.synced)
    (executed : post.executed = pre.executed) : Imported p suffix c post := by
  have runs : ∀ file, post.runs p file = pre.runs p file := by
    intro file
    unfold SyncState.runs
    rw [executed]
  refine ⟨?_, ?_, ?_, ?_⟩
  · unfold SyncState.nextMinAccept
    rw [synced]
    exact imported.next
  · intro id below
    rw [runs]
    exact imported.most id below
  · intro id below unknown
    rw [syncId] at unknown
    rw [runs]
    exact imported.once id below unknown
  · intro id beyond
    rw [runs]
    exact imported.fresh id beyond

section Call

variable {suffix : Nat → FileName} {n c : Nat}

private theorem count_queueNames (distinct : Function.Injective (queueName suffix)) (id : Nat) :
    ((List.range' c (n - c)).map (queueName suffix)).count (queueName suffix id) =
      if c ≤ id ∧ id < n then 1 else 0 := by
  rw [count_map_of_injective _ _ distinct]
  by_cases inside : c ≤ id ∧ id < n
  · rw [if_pos inside]
    apply count_eq_one_of_mem nodup_range'
    rw [mem_range'_1]
    omega
  · rw [if_neg inside, count_eq_zero, mem_range'_1]
    omega

/-- A visit to complete files adds their runs and counts the files. -/
theorem importFiles_complete (quiet : ∀ file, call.stopSoon file = false) {found : List FileName}
    (complete : ∀ file ∈ found, peer.Complete file) (word : c < 2 ^ 32) (maxStartId : Nat)
    (s : SyncState) :
    ∃ added, importFiles call peer maxStartId c found s =
        SyncState.setSynced { s with executed := s.executed ++ added } peer.dName
          (u32 (c + found.length)) ∧
      (∀ file, runsIn added peer.dName file ≤ found.count file) ∧
      ∀ file, isKnownCase s.syncId file = false →
        runsIn added peer.dName file = found.count file := by
  obtain ⟨added, went, most, all⟩ := @visitFiles_complete s.syncId maxStartId peer
    call.stopSoon quiet found complete ⟨c, s.executed⟩ word
  refine ⟨added, ?_, most, all⟩
  unfold importFiles
  rw [went]
  rfl

theorem Imported.importFiles (imported : Imported peer.dName suffix c s)
    (distinct : Function.Injective (queueName suffix)) (offers : PeerOffers suffix n peer)
    (quiet : ∀ file, call.stopSoon file = false) (grown : c ≤ n) (word : n < 2 ^ 32)
    {found : List FileName} (new : found.Perm ((List.range' c (n - c)).map (queueName suffix)))
    (maxStartId : Nat) :
    Imported peer.dName suffix n (importFiles call peer maxStartId c found s) := by
  have complete : ∀ file ∈ found, peer.Complete file := by
    intro file mem
    rw [new.mem_iff, mem_map] at mem
    obtain ⟨id, inside, rfl⟩ := mem
    rw [mem_range'_1] at inside
    exact offers.complete id (by omega)
  have len : found.length = n - c := by
    rw [new.length_eq, length_map, length_range']
  obtain ⟨added, res, most, all⟩ := importFiles_complete quiet complete
    (Nat.lt_of_le_of_lt grown word) maxStartId s
  have last : u32 (c + found.length) = n := by
    unfold u32
    omega
  rw [last] at res
  have runs : ∀ id, (SyncState.setSynced { s with executed := s.executed ++ added }
      peer.dName n).runs peer.dName (queueName suffix id) =
        s.runs peer.dName (queueName suffix id) + runsIn added peer.dName (queueName suffix id) :=
    fun id => runsIn_append s.executed _ peer.dName (queueName _ id)
  have counted : ∀ id, found.count (queueName suffix id) = if c ≤ id ∧ id < n then 1 else 0 := by
    intro id
    rw [new.count_eq]
    exact count_queueNames distinct id
  rw [res]
  constructor
  · simp [SyncState.nextMinAccept, SyncState.setSynced]
  · intro id below
    have atMost := most (queueName suffix id)
    rw [counted] at atMost
    rw [runs]
    by_cases old : id < c
    · have pre := imported.most id old
      rw [if_neg (by omega)] at atMost
      omega
    · have pre := imported.fresh id (Nat.le_of_not_lt old)
      rw [if_pos (by omega)] at atMost
      omega
  · intro id below unknown
    have exactly := all (queueName _ id) unknown
    rw [counted] at exactly
    rw [runs]
    by_cases old : id < c
    · have pre := imported.once id old unknown
      rw [if_neg (by omega)] at exactly
      omega
    · have pre := imported.fresh id (Nat.le_of_not_lt old)
      rw [if_pos (by omega)] at exactly
      omega
  · intro id beyond
    have atMost := most (queueName suffix id)
    rw [counted, if_neg (by omega)] at atMost
    have pre := imported.fresh id (by omega)
    rw [runs]
    omega

/-- What a call of `sync_fuzzers` finds of peer `p`, and that it may import from
it: the peer is ours to sync from and does not count as restarted, nothing
interrupts the runs, and the ids of all peers fit where they are printed. -/
structure Syncs (p : FileName) (suffix : Nat → FileName) (n : Nat) (call : SyncCall)
    (s : SyncState) : Prop where
  enabled : call.aflNoSync = false
  offered : ∃ peer ∈ call.peers, peer.dName = p ∧ PeerOffers suffix n peer ∧
    (s.isSecondaryNode = false ∨ peer.isMainNode = true) ∧
    peer.restarted (call.lastMtime p) = false
  foreign : p.head? ≠ some '.' ∧ p ≠ s.syncId
  unique : (call.peers.map PeerDir.dName).Nodup
  quiet : ∀ file, call.stopSoon file = false
  fits : ∀ peer ∈ call.peers, s.nextMinAccept peer.dName < 10 ^ 8
  word : n < 2 ^ 32
  digits : SixDigits (s.nextMinAccept p) n

theorem Imported.syncPeer {call : SyncCall} {peer : PeerDir} {s : SyncState}
    (imported : Imported peer.dName suffix c s)
    (distinct : Function.Injective (queueName suffix)) (offers : PeerOffers suffix n peer)
    (quiet : ∀ file, call.stopSoon file = false) (grown : c ≤ n) (word : n < 2 ^ 32)
    (digits : SixDigits c n) (running : peer.restarted (call.lastMtime peer.dName) = false) :
    ∃ post, syncPeer call peer s = .ok post ∧ Imported peer.dName suffix n post := by
  obtain ⟨_, listed, listing⟩ := offers.queue
  have new := filesFrom_new listing digits grown
  obtain ⟨pruned, synced, executed⟩ := pruneMax_frame s peer.dName
  have kept : Imported peer.dName suffix c (s.pruneMax peer.dName) :=
    imported.of_same pruned.syncId synced executed
  have still : n - c = 0 → ∀ post, Imported peer.dName suffix c post →
      Imported peer.dName suffix n post := by
    intro nothing post imported
    have same : c = n := by omega
    exact same ▸ imported
  unfold AflPlusPlus.syncPeer
  rw [listed]
  dsimp only
  split
  · rename_i empty
    rw [List.isEmpty_iff] at empty
    subst empty
    refine ⟨s, rfl, still ?_ _ imported⟩
    have nothing : ([] : List FileName).length = n - c := by
      have len := new.length_eq
      rw [length_map, length_range'] at len
      exact len
    exact nothing.symm
  · rw [running, if_neg Bool.false_ne_true]
    unfold syncQueue
    dsimp only
    rw [imported.next, entryText_ok (Nat.lt_trans digits.1 (by decide)), checked_ok_bind]
    split
    · rename_i nothing
      rw [List.isEmpty_iff] at nothing
      rw [nothing] at new
      have len := new.length_eq
      rw [List.length_map, List.length_range'] at len
      exact ⟨_, rfl, still len.symm _ kept⟩
    · exact ⟨_, rfl, kept.importFiles distinct offers quiet grown word new _⟩

theorem meet_of_allowed {peer : PeerDir} {s : SyncState}
    (allowed : s.isSecondaryNode = false ∨ peer.isMainNode = true) :
    ∃ met, s.meet peer = some met := by
  unfold SyncState.meet
  rcases allowed with primary | main
  · rw [primary]
    exact ⟨s, rfl⟩
  · split
    · split <;> exact ⟨_, rfl⟩
    · exact ⟨_, rfl⟩

theorem Imported.syncEntry {loop : SyncLoop} (imported : Imported peer.dName suffix c loop.state)
    (distinct : Function.Injective (queueName suffix)) (offers : PeerOffers suffix n peer)
    (quiet : ∀ file, call.stopSoon file = false) (grown : c ≤ n) (word : n < 2 ^ 32)
    (digits : SixDigits c n) (running : peer.restarted (call.lastMtime peer.dName) = false)
    (foreign : peer.dName.head? ≠ some '.' ∧ peer.dName ≠ loop.state.syncId)
    (allowed : loop.state.isSecondaryNode = false ∨ peer.isMainNode = true) :
    ∃ post, syncEntry call loop peer = .ok post ∧ Imported peer.dName suffix n post.state := by
  obtain ⟨_, meets⟩ := meet_of_allowed allowed
  have kept := imported.of_frame (meet_frame meets (fun _ => False)) (fun bad => bad)
  obtain ⟨post, synced, imports⟩ := kept.syncPeer distinct offers quiet grown word digits running
  unfold AflPlusPlus.syncEntry
  rw [if_neg (by simpa using foreign), meets]
  dsimp only
  rw [synced]
  exact ⟨_, rfl, imports⟩

/-- A whole call: the peers before and behind `p` do not touch what belongs to
it. -/
theorem Imported.syncFuzzers (imported : Imported p suffix c s)
    (distinct : Function.Injective (queueName suffix)) (syncs : Syncs p suffix n call s)
    (grown : c ≤ n) :
    ∃ post, syncFuzzers call s = .ok post ∧ Imported p suffix n post ∧ post.syncId = s.syncId := by
  obtain ⟨whole, foldsTo, changed⟩ := @syncEntries_frame call call.peers ⟨s, 0, 0⟩
    syncs.unique syncs.fits
  obtain ⟨peer, mem, rfl, offers, allowed, running⟩ := syncs.offered
  obtain ⟨front, back, split⟩ := append_of_mem mem
  have unique := syncs.unique
  have fits := syncs.fits
  rw [split, map_append, map_cons, nodup_append, nodup_cons] at unique
  rw [split] at fits
  obtain ⟨uniqueFront, ⟨notBehind, uniqueBack⟩, apart⟩ := unique
  have notBefore : peer.dName ∉ front.map PeerDir.dName := by
    intro early
    exact apart _ early _ mem_cons_self rfl
  obtain ⟨_, went, frame⟩ := @syncEntries_frame call front ⟨s, 0, 0⟩ uniqueFront
    (fun other mem => fits other (mem_append_left _ mem))
  have reached := imported.of_frame frame notBefore
  have digits := syncs.digits
  rw [imported.next] at digits
  obtain ⟨second, synced, imports⟩ := reached.syncEntry distinct offers syncs.quiet grown
    syncs.word digits running ⟨syncs.foreign.1, by rw [frame.syncId]; exact syncs.foreign.2⟩
    (by rw [frame.isSecondaryNode]; exact allowed)
  have fitsBack : ∀ other ∈ back, second.state.nextMinAccept other.dName < 10 ^ 8 := by
    intro other mem
    have named : other.dName ∈ back.map PeerDir.dName := mem_map_of_mem mem
    have notFront : other.dName ∉ front.map PeerDir.dName := by
      intro early
      exact apart _ early _ (mem_cons_of_mem _ named) rfl
    have notPeer : ¬ other.dName = peer.dName := by
      intro same
      exact notBehind (same ▸ named)
    obtain ⟨known, again, untouched⟩ := @syncEntry_frame _ _ _ (by
      rw [frame.nextMinAccept notBefore]
      exact fits _ (mem_append_right _ mem_cons_self))
    have same : known = second := by
      rw [synced] at again
      exact (Except.ok.inj again).symm
    rw [← same, untouched.nextMinAccept notPeer, frame.nextMinAccept notFront]
    exact fits _ (mem_append_right _ (mem_cons_of_mem _ mem))
  obtain ⟨last, ended, rest⟩ := syncEntries_frame call back uniqueBack fitsBack
  have final := imports.of_frame rest notBehind
  have folded : call.peers.foldlM (AflPlusPlus.syncEntry call) ⟨s, 0, 0⟩ = .ok last := by
    rw [split, foldlM_append, went, checked_ok_bind, foldlM_cons, synced, checked_ok_bind, ended]
  have same : whole = last := by
    rw [folded] at foldsTo
    exact (Except.ok.inj foldsTo).symm
  have syncId : last.state.syncId = s.syncId := same ▸ changed.syncId
  unfold AflPlusPlus.syncFuzzers
  rw [syncs.enabled, if_neg Bool.false_ne_true, folded, checked_ok_bind]
  split
  · exact ⟨_, rfl, final.of_same rfl rfl rfl, syncId⟩
  · exact ⟨_, rfl, final, syncId⟩

end Call

/-- A call of `sync_fuzzers` when the peer's directory has `files` files. -/
structure SyncRound where
  call : SyncCall
  files : Nat

def syncStep (s : Checked SyncState) (round : SyncRound) : Checked SyncState :=
  s >>= syncFuzzers round.call

def syncGuard (p : FileName) (suffix : Nat → FileName) (s : Checked SyncState)
    (round : SyncRound) : Prop :=
  Yields (Syncs p suffix round.files round.call) s

def lastSize (pre : Nat) (rounds : List SyncRound) : Nat :=
  (rounds.map SyncRound.files).getLast?.getD pre

theorem Imported.run (imported : Imported p suffix c s)
    (distinct : Function.Injective (queueName suffix)) (rounds : List SyncRound)
    (growing : (c :: rounds.map SyncRound.files).Pairwise (· ≤ ·))
    (admitted : Along syncStep (syncGuard p suffix) (.ok s) rounds) :
    ∃ final, runFrom syncStep (.ok s) rounds = .ok final ∧
      Imported p suffix (lastSize c rounds) final ∧ final.syncId = s.syncId := by
  induction rounds generalizing s c with
  | nil => exact ⟨s, rfl, imported, rfl⟩
  | cons round rest ih =>
    obtain ⟨syncs, later⟩ := admitted
    rw [pairwise_cons] at growing
    obtain ⟨post, synced, imports, same⟩ := imported.syncFuzzers distinct syncs
      (growing.1 round.files mem_cons_self)
    have stepped : syncStep (.ok s) round = .ok post := synced
    rw [stepped] at later
    obtain ⟨final, ended, all, still⟩ := ih imports growing.2 later
    have last : lastSize c (round :: rest) = lastSize round.files rest := by
      unfold lastSize
      rw [map_cons, List.getLast?_cons, Option.getD_some]
    refine ⟨final, ?_, ?_, still.trans same⟩
    · change runFrom syncStep (syncStep (.ok s) round) rest = _
      rw [stepped, ended]
    · rw [last]
      exact all

/-- Over any number of calls every id that exists at the last one has been run
once, unless the peer had it from us; then it has been run at most once. -/
theorem sync_imports_once_of_run (p : FileName) (suffix : Nat → FileName)
    (distinct : Function.Injective (queueName suffix)) (start : SyncState)
    (unsynced : start.synced p = none) (unseen : ∀ file, start.runs p file = 0)
    (rounds : List SyncRound) (growing : (rounds.map SyncRound.files).Pairwise (· ≤ ·))
    (admitted : Along syncStep (syncGuard p suffix) (.ok start) rounds) :
    ∃ final, runFrom syncStep (.ok start) rounds = .ok final ∧ ∀ id, id < lastSize 0 rounds →
        final.runs p (queueName suffix id) ≤ 1 ∧
        (isKnownCase start.syncId (queueName suffix id) = false →
          final.runs p (queueName suffix id) = 1) := by
  have initially : Imported p suffix 0 start := by
    refine ⟨?_, nofun, nofun, fun id _ => unseen _⟩
    unfold SyncState.nextMinAccept
    rw [unsynced]
    rfl
  have fromZero : (0 :: rounds.map SyncRound.files).Pairwise (· ≤ ·) :=
    pairwise_cons.2 ⟨fun size _ => Nat.zero_le _, growing⟩
  obtain ⟨final, ended, imports, same⟩ := initially.run distinct rounds fromZero admitted
  refine ⟨final, ended, ?_⟩
  intro id inside
  refine ⟨imports.most id inside, ?_⟩
  intro unknown
  rw [← same] at unknown
  exact imports.once id inside unknown

def commas (_ : Nat) : FileName := [',']

theorem queueName_commas_injective : Function.Injective (queueName commas) := by
  intro left right same
  have digits : idText left = idText right := append_cancel_right same
  exact zeroPadded_injective 6 (append_cancel_left digits)

def newNode : SyncState := ⟨['a'], false, false, fun _ => none, fun _ => none, []⟩

/-- Main node `b` has saved files of five bytes under these names. -/
def mainPeer (names : List FileName) : PeerDir :=
  ⟨['b'], true, none, some (['.'] :: names), fun _ => some 5⟩

def callOn (peer : PeerDir) : SyncCall := ⟨false, [peer], fun _ => 0, fun _ => false⟩

def peerWith (n : Nat) : PeerDir := mainPeer ((List.range n).map (queueName commas))

def callWith (n : Nat) : SyncCall := callOn (peerWith n)

theorem peerWith_offers (n : Nat) : PeerOffers commas n (peerWith n) where
  queue := ⟨_, rfl, [['.']], fun dot mem => by rw [mem_singleton.1 mem]; rfl, List.Perm.refl _⟩
  complete := fun _ _ => ⟨5, rfl, by decide, by decide⟩

theorem callWith_syncs (imported : Imported ['b'] commas c s) (named : s.syncId = ['a'])
    (digits : SixDigits c n) (word : n < 2 ^ 32) :
    Syncs ['b'] commas n (callWith n) s where
  enabled := rfl
  offered := ⟨peerWith n, mem_singleton_self _, rfl, peerWith_offers n, .inr rfl, rfl⟩
  foreign := ⟨by decide, by rw [named]; decide⟩
  unique := nodup_singleton _
  quiet := fun _ => rfl
  fits := by
    intro peer mem
    rw [mem_singleton.1 mem]
    change s.nextMinAccept ['b'] < _
    rw [imported.next]
    exact Nat.lt_trans digits.1 (by decide)
  word := word
  digits := by
    rw [imported.next]
    exact digits

theorem newNode_imported : Imported ['b'] commas 0 newNode :=
  ⟨rfl, nofun, nofun, fun _ _ => rfl⟩

theorem sync_imports_once_of_run_two_calls :
    newNode.synced ['b'] = none ∧
      ∃ final, runFrom syncStep (.ok newNode) [⟨callWith 3, 3⟩, ⟨callWith 5, 5⟩] = .ok final ∧
        ∀ id, id < 5 → final.runs ['b'] (queueName commas id) ≤ 1 ∧
          (isKnownCase ['a'] (queueName commas id) = false →
            final.runs ['b'] (queueName commas id) = 1) := by
  have first : Syncs ['b'] commas 3 (callWith 3) newNode :=
    callWith_syncs newNode_imported rfl ⟨by decide, by decide⟩ (by decide)
  obtain ⟨post, synced, imports, same⟩ := newNode_imported.syncFuzzers queueName_commas_injective
    first (by decide)
  have second : Syncs ['b'] commas 5 (callWith 5) post :=
    callWith_syncs imports same ⟨by decide, by decide⟩ (by decide)
  have stepped : syncStep (.ok newNode) ⟨callWith 3, 3⟩ = .ok post := synced
  refine ⟨rfl, sync_imports_once_of_run ['b'] commas queueName_commas_injective newNode rfl
    (fun _ => rfl) [⟨callWith 3, 3⟩, ⟨callWith 5, 5⟩] (by decide) ⟨first, ?_, trivial⟩⟩
  rw [stepped]
  exact second

section Leading

variable {suffix : Nat → FileName} {n next id : Nat} {call : SyncCall} {peer : PeerDir}
  {names : List FileName}
  (new : (filesFrom (idText next) (scandir names)).Perm
    (((List.range n).filter fun id => leading 6 next ≤ leading 6 id).map (queueName suffix)))

include new

private theorem mem_filesFrom (inside : id < n) (above : leading 6 next ≤ leading 6 id) :
    queueName suffix id ∈ filesFrom (idText next) (scandir names) := by
  rw [new.mem_iff, mem_map]
  exact ⟨id, mem_filter.2 ⟨mem_range.2 inside, decide_eq_true above⟩, rfl⟩

private theorem complete_of_filesFrom (offers : PeerOffers suffix n peer) :
    ∀ file ∈ filesFrom (idText next) (scandir names), peer.Complete file := by
  intro file found
  rw [new.mem_iff, mem_map] at found
  obtain ⟨other, kept, rfl⟩ := found
  exact offers.complete _ (mem_range.1 (mem_filter.1 kept).1)

private theorem count_filesFrom_beyond (distinct : Function.Injective (queueName suffix))
    (beyond : n ≤ id) :
    (filesFrom (idText next) (scandir names)).count (queueName suffix id) = 0 := by
  rw [count_eq_zero, new.mem_iff, mem_map]
  rintro ⟨_, kept, named⟩
  have inside := mem_range.1 (mem_filter.1 kept).1
  rw [distinct named] at inside
  omega

private theorem length_filesFrom_le : (filesFrom (idText next) (scandir names)).length ≤ n := by
  rw [new.length_eq, length_map]
  exact Nat.le_trans (length_filter_le _ _) (Nat.le_of_eq length_range)

omit new

private theorem syncPeer_imports {s : SyncState} (listed : peer.queue = some names)
    (running : peer.restarted (call.lastMtime peer.dName) = false)
    (reached : s.nextMinAccept peer.dName = next) (fits : next < 10 ^ 8) {file : FileName}
    (mem : file ∈ filesFrom (idText next) (scandir names)) :
    syncPeer call peer s = .ok (importFiles call peer ((s.maxStart peer.dName).getD 0) next
      (filesFrom (idText next) (scandir names)) (s.pruneMax peer.dName)) := by
  have some : names.isEmpty = false := by
    cases names with
    | nil => cases mem
    | cons first rest => rfl
  have more : (filesFrom (idText next) (scandir names)).isEmpty = false := by
    cases found : filesFrom (idText _) (scandir _) with
    | nil =>
      rw [found] at mem
      cases mem
    | cons first rest => rfl
  unfold syncPeer
  rw [listed]
  dsimp only
  rw [some, running]
  unfold syncQueue
  dsimp only
  rw [reached, entryText_ok fits, checked_ok_bind, more]
  rfl

/-- A call whose wanted id has more than six digits runs everything from the
leading six on, whatever has been run before, and counts it again. -/
theorem syncPeer_from_leading {s : SyncState} (offers : PeerOffers suffix n peer)
    (distinct : Function.Injective (queueName suffix)) (small : n ≤ 10 ^ 8)
    (quiet : ∀ file, call.stopSoon file = false)
    (running : peer.restarted (call.lastMtime peer.dName) = false)
    (reached : s.nextMinAccept peer.dName = next) (fits : next < 10 ^ 8)
    (present : ∃ id, id < n ∧ leading 6 id = leading 6 next)
    (inside : id < n) (above : leading 6 next ≤ leading 6 id)
    (unknown : isKnownCase s.syncId (queueName suffix id) = false) :
    ∃ post, syncPeer call peer s = .ok post ∧ s.runs peer.dName (queueName suffix id) <
        post.runs peer.dName (queueName suffix id) ∧
      next < post.nextMinAccept peer.dName ∧
      ∀ other, n ≤ other → post.runs peer.dName (queueName suffix other) =
        s.runs peer.dName (queueName suffix other) := by
  obtain ⟨names, listed, listing⟩ := offers.queue
  obtain ⟨pruned, _, executed⟩ := pruneMax_frame s peer.dName
  have new := filesFrom_perm listing present
  have mem := mem_filesFrom new inside above
  obtain ⟨added, res, most, all⟩ := importFiles_complete quiet
    (complete_of_filesFrom new offers) (Nat.lt_trans fits (by decide))
    ((s.maxStart peer.dName).getD 0) (s.pruneMax peer.dName)
  have ran := all (queueName _ id) (by rw [pruned.syncId]; exact unknown)
  have pos := count_pos_iff.2 mem
  refine ⟨_, syncPeer_imports listed running reached fits mem, ?_⟩
  rw [res, executed]
  refine ⟨?_, ?_, ?_⟩
  · change runsIn s.executed peer.dName (queueName suffix id) <
      runsIn (s.executed ++ added) peer.dName (queueName suffix id)
    rw [runsIn_append]
    omega
  · have len := length_filesFrom_le new
    have counts := length_pos_of_mem mem
    simp only [SyncState.nextMinAccept, SyncState.setSynced, Function.update_self,
      Option.getD_some, u32]
    omega
  · intro other beyond
    have absent := count_filesFrom_beyond new distinct beyond
    have none := most (queueName suffix other)
    change runsIn (s.executed ++ added) peer.dName (queueName suffix other) = _
    rw [runsIn_append]
    unfold SyncState.runs
    omega

end Leading

private theorem callWith_from_leading {next id : Nat} (named : s.syncId = ['a'])
    (reached : s.nextMinAccept ['b'] = next) (small : n ≤ 10 ^ 8) (fits : next < 10 ^ 8)
    (present : ∃ id, id < n ∧ leading 6 id = leading 6 next) (inside : id < n)
    (above : leading 6 next ≤ leading 6 id)
    (unknown : isKnownCase ['a'] (queueName commas id) = false) :
    ∃ post, syncFuzzers (callWith n) s = .ok post ∧
      s.runs ['b'] (queueName commas id) < post.runs ['b'] (queueName commas id) := by
  obtain ⟨met, meets⟩ := @meet_of_allowed (peerWith n) s (.inr rfl)
  have frame := meet_frame meets (fun _ => False)
  have free : ¬ (fun _ : FileName => False) ['b'] := fun bad => bad
  obtain ⟨post, synced, ran, _, _⟩ := @syncPeer_from_leading commas n next id (callWith n)
    (peerWith n) met (peerWith_offers n) queueName_commas_injective small (fun _ => rfl) rfl
    ((frame.nextMinAccept free).trans reached) fits
    present inside above (by rw [frame.syncId, named]; exact unknown)
  have entered : syncEntry (callWith n) ⟨s, 0, 0⟩ (peerWith n) = .ok ⟨post, 1, 1⟩ := by
    have other : ['b'] ≠ s.syncId := by
      rw [named]
      decide
    unfold syncEntry
    rw [if_neg (by simp [peerWith, mainPeer, other]), meets]
    dsimp only
    rw [synced]
    rfl
  refine ⟨post, ?_, lt_of_eq_of_lt (frame.runs _ _ free).symm ran⟩
  change ([peerWith n].foldlM (syncEntry (callWith n)) ⟨s, 0, 0⟩ >>= _) = _
  rw [foldlM_cons, entered]
  rfl

theorem queueName_commas_unknown (short : id < 10 ^ 8) :
    isKnownCase ['a'] (queueName commas id) = false := by
  have digits : (zeroPadded 6 id).length ≤ 8 := length_zeroPadded_le (by decide) (by decide) short
  have len : (queueName commas id).length = 3 + (zeroPadded 6 id).length + 1 := by
    unfold queueName idText
    rw [length_append, length_append]
    rfl
  unfold isKnownCase
  rw [if_pos (by omega)]

private theorem callWith_repeats {id : Nat} (digits : SixDigits 0 n) (fits : n < 10 ^ 8)
    (present : ∃ id, id < n ∧ leading 6 id = leading 6 n) (inside : id < n)
    (above : leading 6 n ≤ leading 6 id) :
    ∃ final, runFrom syncStep (.ok newNode) [⟨callWith n, n⟩, ⟨callWith n, n⟩] = .ok final ∧
      1 < final.runs ['b'] (queueName commas id) := by
  have first : Syncs ['b'] commas n (callWith n) newNode :=
    callWith_syncs newNode_imported rfl digits (Nat.lt_trans fits (by decide))
  obtain ⟨post, synced, imports, named⟩ := newNode_imported.syncFuzzers
    queueName_commas_injective first (Nat.zero_le n)
  have unknown := queueName_commas_unknown (Nat.lt_trans inside fits)
  have once := imports.once id inside (by rw [named]; exact unknown)
  obtain ⟨final, again, ran⟩ :=
    callWith_from_leading named imports.next (Nat.le_of_lt fits) fits present inside above unknown
  have stepped : syncStep (.ok newNode) ⟨callWith n, n⟩ = .ok post := synced
  refine ⟨final, ?_, lt_of_eq_of_lt once.symm ran⟩
  change syncStep (syncStep (.ok newNode) ⟨callWith n, n⟩) ⟨callWith n, n⟩ = _
  rw [stepped]
  exact again

theorem leading_hundredThousand : leading 6 100000 = leading 6 1000000 := by
  have most := (@Nat.length_toDigits_le_iff 10 1000000 7 (by decide) (by decide)).2 (by decide)
  have least := mt (@Nat.length_toDigits_le_iff 10 1000000 6 (by decide) (by decide)).1 (by decide)
  have digits : digitCount 1000000 = 7 := Nat.le_antisymm most (Nat.lt_of_not_le least)
  exact leading_of_lt (by decide) (by decide)

def returnedName : FileName := "id:000000,sync:a,src:000000".toList

/-- A returned file is passed over.  With a million files the next id has seven
digits, and a second call, with nothing new, runs file 100000 again. -/
theorem sync_skips_returned_and_repeats_million :
    (syncFuzzers (callOn (mainPeer [returnedName])) newNode).toOption.map SyncState.executed =
        some [] ∧
      ∃ final, runFrom syncStep (.ok newNode)
          [⟨callWith 1000000, 1000000⟩, ⟨callWith 1000000, 1000000⟩] = .ok final ∧
        1 < final.runs ['b'] (queueName commas 100000) := by
  constructor
  · decide +kernel
  · exact callWith_repeats ⟨by decide, .inl (by decide)⟩ (by decide)
      ⟨100000, by decide, leading_hundredThousand⟩ (by decide)
      (Nat.le_of_eq leading_hundredThousand.symm)

end AflPlusPlus
