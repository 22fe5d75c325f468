/-
Importing from a peer that is writing at the same time.

The peer creates a queue file empty and fills it in a second step; its steps and those of
the importing instance interleave in any order.  A file that is looked at while it is
empty is ignored and counted, and is not looked at again.
-/

import AflPlusPlus.SyncOnce

namespace AflPlusPlus

open Machine List

/-- The peer: its directory name, what its files are called and how long their
contents are. -/
structure Writer where
  dName : FileName
  isMainNode : Bool
  cmdlineMtime : Option Nat
  suffix : Nat → FileName
  content : Nat → Nat

inductive SyncPhase where
  | idle
  | looking (maxStartId next : Nat) (rest : List FileName)
  | running (maxStartId next : Nat) (file : FileName) (size : Nat) (rest : List FileName)
  deriving DecidableEq

/-- Both parties.  Ids below `created` have a file, and the last of them may
still be empty; `looks` are the sizes that have been read. -/
structure RaceState where
  node : SyncState
  created : Nat
  empty : Bool
  phase : SyncPhase
  looks : List (FileName × Nat)

inductive RaceStep where
  | create
  | write
  | list (lastMtime : Nat)
  | look
  | run (stopSoon : Bool)
  | finish
  deriving DecidableEq

namespace Writer

variable (w : Writer)

def sizeNow (s : RaceState) (id : Nat) : Nat :=
  if s.empty ∧ id + 1 = s.created then 0 else w.content id

def peerDir (s : RaceState) : PeerDir where
  dName := w.dName
  isMainNode := w.isMainNode
  cmdlineMtime := w.cmdlineMtime
  queue := some (['.'] :: (List.range s.created).map (queueName w.suffix))
  fileSize := fun file =>
    ((List.range s.created).find? (fun id => decide (queueName w.suffix id = file))).map
      (w.sizeNow s)

def listQueue (lastMtime : Nat) (s : RaceState) : Checked RaceState :=
  let peer := w.peerDir s
  if peer.restarted lastMtime then
    .ok { s with node := s.node.setSynced w.dName 0 }
  else do
    let next := s.node.nextMinAccept w.dName
    let maxStartId := (s.node.maxStart w.dName).getD 0
    let node := s.node.pruneMax w.dName
    let entry ← entryText next
    let found := filesFrom entry (scandir (peer.queue.getD []))
    if found.isEmpty then return { s with node := node }
    return { s with node := node, phase := .looking maxStartId next found }

def lookAt (maxStartId next : Nat) (file : FileName) (rest : List FileName) (s : RaceState) :
    RaceState :=
  let next := u32 (next + 1)
  match (w.peerDir s).fileSize file with
  | none => { s with phase := .looking maxStartId next rest }
  | some size =>
    let s := { s with looks := s.looks ++ [(file, size)] }
    if wantsFile s.node.syncId maxStartId next file size then
      { s with phase := .running maxStartId next file size rest }
    else { s with phase := .looking maxStartId next rest }

def runFile (stopSoon : Bool) (maxStartId next : Nat) (file : FileName) (size : Nat)
    (rest : List FileName) (s : RaceState) : RaceState :=
  { s with
    node := { s.node with
      executed := s.node.executed ++ [⟨w.dName, file, size⟩] }
    phase := if stopSoon then .idle else .looking maxStartId next rest }

def raceStep (s : RaceState) (step : RaceStep) : Checked RaceState :=
  match step, s.phase with
  | .create, _ =>
    .ok (if s.empty then s
      else { s with created := s.created + 1, empty := true })
  | .write, _ => .ok { s with empty := false }
  | .list lastMtime, .idle => w.listQueue lastMtime s
  | .look, .looking maxStartId next (file :: rest) =>
    .ok (w.lookAt maxStartId next file rest s)
  | .run stopSoon, .running maxStartId next file size rest =>
    .ok (w.runFile stopSoon maxStartId next file size rest s)
  | .finish, .looking _ next [] =>
    .ok { s with node := s.node.setSynced w.dName next, phase := .idle }
  | _, _ => .ok s

def raceRun (s : Checked RaceState) (step : RaceStep) : Checked RaceState :=
  s >>= fun s => w.raceStep s step

/-- The id has been run with its full content; or it is oversized, came from us,
or was empty when it was looked at. -/
def Settled (s : RaceState) (id : Nat) : Prop :=
  (⟨w.dName, queueName w.suffix id, w.content id⟩ : Execution) ∈ s.node.executed ∨
    maxFile < w.content id ∨
    isKnownCase s.node.syncId (queueName w.suffix id) = true ∨
    (queueName w.suffix id, 0) ∈ s.looks

def SettledFiles (s : RaceState) (done : List FileName) : Prop :=
  ∀ file ∈ done, ∃ id, file = queueName w.suffix id ∧ w.Settled s id

def newFiles (c n : Nat) : List FileName :=
  (List.range' c (n - c)).map (queueName w.suffix)

/-- The call started when there were `n` files; it has counted `done`. -/
structure Passing (s : RaceState) (next : Nat) (done rest : List FileName) (n : Nat) :
    Prop where
  created : n ≤ s.created
  word : n < 2 ^ 32
  grown : s.node.nextMinAccept w.dName ≤ n
  files : (done ++ rest).Perm (w.newFiles (s.node.nextMinAccept w.dName) n)
  counted : next = s.node.nextMinAccept w.dName + done.length
  settled : w.SettledFiles s done

def PhaseKept (s : RaceState) : SyncPhase → Prop
  | .idle => True
  | .looking _ next rest => ∃ n done, w.Passing s next done rest n
  | .running _ next file size rest => ∃ n done pre,
      w.Passing s pre done (file :: rest) n ∧ next = pre + 1 ∧
        ∃ id, file = queueName w.suffix id ∧ size = w.content id

structure RaceKept (s : RaceState) : Prop where
  bounded : s.node.nextMinAccept w.dName ≤ s.created
  settled : ∀ id, id < s.node.nextMinAccept w.dName → w.Settled s id
  phase : w.PhaseKept s s.phase

structure RaceGrows (pre post : RaceState) : Prop where
  created : pre.created ≤ post.created
  syncId : post.node.syncId = pre.node.syncId
  next : post.node.nextMinAccept w.dName = pre.node.nextMinAccept w.dName
  executed : ∀ run ∈ pre.node.executed, run ∈ post.node.executed
  looks : ∀ look ∈ pre.looks, look ∈ post.looks

variable {w} {pre post : RaceState}
variable {next n id maxStartId : Nat} {rest done : List FileName} {s : RaceState}
variable {file : FileName}

theorem Settled.grows (settled : w.Settled pre id) (syncId : post.node.syncId = pre.node.syncId)
    (executed : ∀ run ∈ pre.node.executed, run ∈ post.node.executed)
    (looks : ∀ look ∈ pre.looks, look ∈ post.looks) : w.Settled post id := by
  rcases settled with ran | oversized | known | ignored
  · exact .inl (executed _ ran)
  · exact .inr (.inl oversized)
  · exact .inr (.inr (.inl (syncId ▸ known)))
  · exact .inr (.inr (.inr (looks _ ignored)))

theorem RaceGrows.settled (grows : w.RaceGrows pre post)
    (settled : w.Settled pre id) : w.Settled post id :=
  settled.grows grows.syncId grows.executed grows.looks

theorem Passing.grows (grows : w.RaceGrows pre post) (passing : w.Passing pre next done rest n) :
    w.Passing post next done rest n where
  created := Nat.le_trans passing.created grows.created
  word := passing.word
  grown := by
    rw [grows.next]
    exact passing.grown
  files := by
    rw [grows.next]
    exact passing.files
  counted := by
    rw [grows.next]
    exact passing.counted
  settled := by
    intro file mem
    obtain ⟨id, named, settled⟩ := passing.settled file mem
    exact ⟨id, named, grows.settled settled⟩

theorem PhaseKept.grows (grows : w.RaceGrows pre post) {phase : SyncPhase}
    (kept : w.PhaseKept pre phase) : w.PhaseKept post phase := by
  cases phase with
  | idle => trivial
  | looking maxStartId next rest =>
    obtain ⟨n, done, passing⟩ := kept
    exact ⟨n, done, passing.grows grows⟩
  | running maxStartId next file size rest =>
    obtain ⟨n, done, earlier, passing, counted, full⟩ := kept
    exact ⟨n, done, earlier, passing.grows grows, counted, full⟩

variable (kept : w.RaceKept pre)

include kept in
theorem RaceKept.grows (grows : w.RaceGrows pre post)
    (phase : w.PhaseKept post post.phase) : w.RaceKept post where
  bounded := by
    rw [grows.next]
    exact Nat.le_trans kept.bounded grows.created
  settled := by
    intro id below
    rw [grows.next] at below
    exact grows.settled (kept.settled id below)
  phase := phase

theorem fileSize_queueName (distinct : Function.Injective (queueName w.suffix))
    (inside : id < s.created) :
    (w.peerDir s).fileSize (queueName w.suffix id) = some (w.sizeNow s id) := by
  have found : (List.range s.created).find?
      (fun other => decide (queueName w.suffix other = queueName w.suffix id)) =
        some id := by
    rw [List.find?_range_eq_some]
    refine ⟨decide_eq_true rfl, mem_range.2 inside, ?_⟩
    intro other below
    have ne : queueName w.suffix other ≠ queueName w.suffix id :=
      fun same => Nat.ne_of_lt below (distinct same)
    simp [ne]
  change Option.map _ _ = _
  rw [found]
  rfl

include kept

theorem RaceKept.peer (created : pre.created ≤ post.created)
    (node : post.node = pre.node) (phase : post.phase = pre.phase)
    (looks : post.looks = pre.looks) : w.RaceKept post := by
  have grows : w.RaceGrows pre post := by
    refine ⟨created, by rw [node], by rw [node], ?_, ?_⟩
    · intro run mem
      rw [node]
      exact mem
    · intro look mem
      rw [looks]
      exact mem
  exact kept.grows grows (phase ▸ kept.phase.grows grows)

theorem RaceKept.list {lastMtime : Nat} (idle : pre.phase = .idle)
    (digits : SixDigits (pre.node.nextMinAccept w.dName) pre.created)
    (word : pre.created < 2 ^ 32) :
    Ensures w.RaceKept (w.listQueue lastMtime pre) := by
  unfold listQueue
  dsimp only
  split
  · -- the counter starts again, and nothing is below zero
    have zero : (pre.node.setSynced w.dName 0).nextMinAccept w.dName = 0 := by
      simp [SyncState.nextMinAccept, SyncState.setSynced]
    refine ⟨?_, ?_, ?_⟩
    · rw [zero]
      exact Nat.zero_le _
    · intro id below
      rw [zero] at below
      exact absurd below (Nat.not_lt_zero id)
    · rw [idle]
      trivial
  · obtain ⟨pruned, synced, executed⟩ := pruneMax_frame pre.node w.dName
    have same : (pre.node.pruneMax w.dName).nextMinAccept w.dName =
        pre.node.nextMinAccept w.dName := by
      unfold SyncState.nextMinAccept
      rw [synced]
    have grows : ∀ phase, w.RaceGrows pre
        { pre with node := pre.node.pruneMax w.dName, phase := phase } := by
      intro phase
      refine ⟨Nat.le_refl _, pruned.syncId, same, ?_, fun _ mem => mem⟩
      intro run mem
      rw [executed]
      exact mem
    have listing : QueueListing w.suffix pre.created
        (['.'] :: (List.range pre.created).map (queueName w.suffix)) :=
      ⟨[['.']], fun dot mem => by rw [mem_singleton.1 mem]; rfl, List.Perm.refl _⟩
    have found := filesFrom_new listing digits kept.bounded
    rw [entryText_ok (Nat.lt_trans digits.1 (by decide)), checked_ok_bind]
    split
    · have same := kept.grows (grows pre.phase)
      exact same (idle ▸ trivial)
    · refine kept.grows (grows _) ⟨pre.created, [], ?_⟩
      have passing : w.Passing pre (pre.node.nextMinAccept w.dName) []
          (filesFrom (idText (pre.node.nextMinAccept w.dName))
            (scandir (['.'] :: (List.range pre.created).map (queueName w.suffix))))
          pre.created :=
        ⟨Nat.le_refl _, word, kept.bounded, found, rfl, fun _ mem => absurd mem not_mem_nil⟩
      exact passing.grows (grows _)

omit kept

variable (passing : w.Passing s next done (file :: rest) n)

include passing in
theorem Passing.head :
    ∃ id, file = queueName w.suffix id ∧ id < n := by
  have mem : file ∈ done ++ file :: rest := mem_append_right _ mem_cons_self
  rw [passing.files.mem_iff, newFiles, mem_map] at mem
  obtain ⟨id, inside, named⟩ := mem
  rw [mem_range'_1] at inside
  exact ⟨id, named.symm, by omega⟩

theorem Passing.remaining (passing : w.Passing s next done rest n) :
    next + rest.length = n := by
  have len := passing.files.length_eq
  rw [newFiles, length_map, length_range', length_append] at len
  have grown := passing.grown
  have counted := passing.counted
  omega

include passing in
theorem Passing.succ :
    u32 (next + 1) = next + 1 := by
  have remaining := passing.remaining
  have word := passing.word
  rw [length_cons] at remaining
  exact Nat.mod_eq_of_lt (by omega)

theorem Passing.advance (passing : w.Passing s next done (queueName w.suffix id :: rest) n)
    (settled : w.Settled s id) :
    w.Passing s (next + 1) (done ++ [queueName w.suffix id]) rest n where
  created := passing.created
  word := passing.word
  grown := passing.grown
  files := by
    rw [append_assoc]
    exact passing.files
  counted := by
    have counted := passing.counted
    rw [length_append, length_singleton]
    omega
  settled := by
    intro file mem
    rcases mem_append.1 mem with earlier | last
    · exact passing.settled _ earlier
    · exact ⟨id, mem_singleton.1 last, settled⟩

theorem sizeNow_eq_content (some : w.sizeNow s id ≠ 0) :
    w.sizeNow s id = w.content id := by
  unfold sizeNow at *
  split
  · rename_i early
    rw [if_pos early] at some
    exact absurd rfl some
  · rfl

private theorem settled_of_unwanted {s : RaceState} {maxStartId next id : Nat}
    (seen : (queueName w.suffix id, w.sizeNow pre id) ∈ s.looks)
    (unwanted : wantsFile s.node.syncId maxStartId next (queueName w.suffix id)
      (w.sizeNow pre id) = false) : w.Settled s id := by
  by_cases zero : w.sizeNow pre id = 0
  · exact .inr (.inr (.inr (zero ▸ seen)))
  · have full := sizeNow_eq_content zero
    by_cases oversized : maxFile < w.content id
    · exact .inr (.inl oversized)
    · simp only [wantsFile, Bool.and_eq_false_iff, Bool.or_eq_false_iff, decide_eq_false_iff_not,
        Bool.not_eq_eq_eq_not, Bool.not_false] at unwanted
      rcases unwanted with (isZero | large) | ⟨_, known⟩
      · exact absurd zero isZero
      · exact absurd (Nat.le_of_not_lt oversized) (full ▸ large)
      · exact .inr (.inr (.inl known))

include kept

section

variable (distinct : Function.Injective (queueName w.suffix))

include distinct in
theorem RaceKept.look (phase : pre.phase = .looking maxStartId next (file :: rest)) :
    w.RaceKept (w.lookAt maxStartId next file rest pre) := by
  have passes := kept.phase
  rw [phase] at passes
  obtain ⟨n, done, passing⟩ := passes
  obtain ⟨id, rfl, inside⟩ := passing.head
  have grows : ∀ phase, w.RaceGrows pre { pre with
        looks := pre.looks ++ [(queueName w.suffix id, w.sizeNow pre id)]
        phase := phase } := by
    intro phase
    exact ⟨Nat.le_refl _, rfl, rfl, fun _ mem => mem, fun _ mem => mem_append_left _ mem⟩
  unfold lookAt
  rw [fileSize_queueName distinct (Nat.lt_of_lt_of_le inside passing.created), passing.succ]
  dsimp only
  split
  · rename_i wanted
    have some : w.sizeNow pre id ≠ 0 := by
      simp only [wantsFile, Bool.and_eq_true, decide_eq_true_eq] at wanted
      exact wanted.1.1
    exact kept.grows (grows _)
      ⟨n, done, next, passing.grows (grows _), rfl, id, rfl, sizeNow_eq_content some⟩
  · rename_i unwanted
    have settled := @settled_of_unwanted _ _ { pre with
        looks := pre.looks ++ [(queueName w.suffix id, w.sizeNow _ id)]
        phase := .looking maxStartId (next + 1) rest }
      _ (next + 1) id (mem_append_right pre.looks mem_cons_self)
      (Bool.eq_false_of_not_eq_true unwanted)
    exact kept.grows (grows _) ⟨n, _, (passing.grows (grows _)).advance settled⟩

theorem RaceKept.run {stopSoon : Bool} {maxStartId next size : Nat}
    (phase : pre.phase = .running maxStartId next file size rest) :
    w.RaceKept (w.runFile stopSoon maxStartId next file size rest pre) := by
  have passes := kept.phase
  rw [phase] at passes
  obtain ⟨n, _, earlier, passing, rfl, id, rfl, rfl⟩ := passes
  have grows : w.RaceGrows pre (w.runFile stopSoon maxStartId (earlier + 1)
      (queueName w.suffix id) (w.content id) rest pre) :=
    ⟨Nat.le_refl _, rfl, rfl, fun _ mem => mem_append_left _ mem, fun _ mem => mem⟩
  refine kept.grows grows ?_
  cases stopSoon with
  | true => trivial
  | false =>
    have ran : w.Settled (w.runFile false maxStartId (earlier + 1)
        (queueName w.suffix id) (w.content id) rest pre) id :=
      .inl (mem_append_right _ mem_cons_self)
    exact ⟨n, _, (passing.grows grows).advance ran⟩

include distinct in
theorem RaceKept.finish (phase : pre.phase = .looking maxStartId next []) :
    w.RaceKept { pre with node := pre.node.setSynced w.dName next, phase := .idle } := by
  have passes := kept.phase
  rw [phase] at passes
  obtain ⟨n, done, passing⟩ := passes
  have all : next = n := passing.remaining
  have reached : (pre.node.setSynced w.dName next).nextMinAccept w.dName = n := by
    simp [SyncState.nextMinAccept, SyncState.setSynced, all]
  refine ⟨?_, ?_, trivial⟩
  · rw [reached]
    exact passing.created
  · intro id below
    rw [reached] at below
    suffices settled : w.Settled pre id from
      settled.grows rfl (fun _ mem => mem) (fun _ mem => mem)
    by_cases old : id < pre.node.nextMinAccept w.dName
    · exact kept.settled id old
    · have files := passing.files
      rw [append_nil] at files
      have counted : queueName w.suffix id ∈ done := by
        rw [files.mem_iff, newFiles, mem_map]
        exact ⟨id, mem_range'_1.2 (by omega), rfl⟩
      obtain ⟨_, named, settled⟩ := passing.settled _ counted
      rw [distinct named]
      exact settled

omit kept

/-- The steps after the listing: every file is looked at and, where that applies,
run. -/
def fileSteps (stopSoon : FileName → Bool) (found : List FileName) : List RaceStep :=
  found.flatMap (fun file => [.look, .run (stopSoon file)]) ++ [.finish]

theorem fileSteps_idle (stopSoon : FileName → Bool) (found : List FileName)
    (idle : s.phase = .idle) :
    runFrom w.raceRun (.ok s) (fileSteps stopSoon found) = .ok s := by
  have still : ∀ step, (step = .look ∨ (∃ stop, step = .run stop) ∨ step = .finish) →
      w.raceRun (.ok s) step = .ok s := by
    rintro step (rfl | ⟨stop, rfl⟩ | rfl)
    all_goals
      change w.raceStep _ _ = _
      unfold raceStep
      rw [idle]
  induction found with
  | nil => exact still .finish (.inr (.inr rfl))
  | cons file rest ih =>
    change runFrom w.raceRun (w.raceRun (w.raceRun (.ok s) .look)
      (.run (stopSoon file))) (fileSteps stopSoon rest) = _
    rw [still .look (.inl rfl), still _ (.inr (.inl ⟨_, rfl⟩)), ih]

private theorem importFiles_cons (call : SyncCall) (peer : PeerDir) (maxStartId next : Nat)
    (file : FileName) (rest : List FileName) (s : SyncState) :
    importFiles call peer maxStartId next (file :: rest) s =
      let (stop, pass) := visitFile s.syncId maxStartId peer call.stopSoon file ⟨next, s.executed⟩
      let s := { s with executed := pass.executed }
      if stop then s
      else importFiles call peer maxStartId pass.nextMinAccept rest s := by
  simp only [importFiles, visitFiles]
  split <;> rfl

private theorem fileSteps_importFiles (call : SyncCall) {maxStartId next : Nat}
    (found : List FileName)
    {s : RaceState} (phase : s.phase = .looking maxStartId next found) :
    ∃ looks, runFrom w.raceRun (.ok s) (fileSteps call.stopSoon found) = .ok { s with
        node := importFiles call (w.peerDir s) maxStartId next found s.node
        phase := .idle
        looks := looks } := by
  induction found generalizing s next with
  | nil =>
    refine ⟨s.looks, ?_⟩
    change w.raceStep s .finish = _
    unfold raceStep
    rw [phase]
    rfl
  | cons file rest ih =>
    have looked : w.raceRun (.ok s) .look = .ok (w.lookAt maxStartId next file rest s) := by
      change w.raceStep _ .look = _
      unfold raceStep
      rw [phase]
    have stepped : runFrom w.raceRun (.ok s) (fileSteps call.stopSoon (file :: rest)) =
        runFrom w.raceRun (w.raceRun (w.raceRun (.ok s) .look)
          (.run (call.stopSoon file))) (fileSteps call.stopSoon rest) := rfl
    rw [stepped, looked, importFiles_cons]
    unfold lookAt visitFile
    cases opened : (w.peerDir s).fileSize file with
    | none =>
      exact @ih (u32 (next + 1)) { s with phase := .looking _ (u32 (next + 1)) _ } rfl
    | some size =>
      dsimp only
      by_cases wanted : wantsFile s.node.syncId maxStartId (u32 (next + 1)) file size = true
      · rw [if_pos wanted, if_pos wanted]
        have runs := @ih (u32 (next + 1)) { s with
            node := { s.node with
              executed := s.node.executed ++ [⟨w.dName, file, size⟩] }
            phase := .looking _ (u32 (next + 1)) _
            looks := s.looks ++ [(file, size)] } rfl
        cases call.stopSoon file with
        | true => exact ⟨_, fileSteps_idle call.stopSoon _ rfl⟩
        | false => exact runs
      · rw [if_neg wanted, if_neg wanted]
        exact @ih (u32 (next + 1)) { s with
            phase := .looking _ (u32 (next + 1)) _
            looks := s.looks ++ [(file, size)] } rfl

def callSteps (w : Writer) (call : SyncCall) (s : RaceState) : List RaceStep :=
  .list (call.lastMtime w.dName) ::
    fileSteps call.stopSoon (filesFrom (idText (s.node.nextMinAccept w.dName))
      (scandir (['.'] :: (List.range s.created).map (queueName w.suffix))))

private theorem entryText_eq {text : FileName} (printed : entryText next = .ok text) :
    text = idText next := by
  unfold entryText at printed
  split at printed
  · cases printed
  · cases printed
    rfl

private theorem callSteps_syncPeer (call : SyncCall) {s : RaceState} (idle : s.phase = .idle)
    {post : SyncState} (synced : syncPeer call (w.peerDir s) s.node = .ok post) :
    ∃ looks, runFrom w.raceRun (.ok s) (w.callSteps call s) =
      .ok { s with node := post, looks := looks } := by
  have stepped : runFrom w.raceRun (.ok s) (w.callSteps call s) =
      runFrom w.raceRun (w.listQueue (call.lastMtime w.dName) s)
        (fileSteps call.stopSoon (filesFrom (idText (s.node.nextMinAccept w.dName))
          (scandir (['.'] :: (List.range s.created).map (queueName w.suffix))))) := by
    change runFrom w.raceRun (w.raceStep _ _) _ = _
    unfold raceStep
    rw [idle]
  change (if (w.peerDir s).restarted (call.lastMtime w.dName) then
    .ok (s.node.setSynced w.dName 0)
    else syncQueue call (w.peerDir s) _ s.node) = .ok post at synced
  rw [stepped]
  unfold listQueue
  dsimp only
  split at synced
  · rename_i restarted
    cases synced
    rw [if_pos restarted]
    exact ⟨s.looks, fileSteps_idle call.stopSoon _ idle⟩
  · rename_i running
    rw [if_neg running]
    unfold syncQueue at synced
    dsimp only at synced
    cases printed : entryText (s.node.nextMinAccept w.dName) with
    | error trap =>
      change entryText (s.node.nextMinAccept w.dName) >>= _ = _ at synced
      rw [printed] at synced
      cases synced
    | ok text =>
      change entryText (s.node.nextMinAccept w.dName) >>= _ = _ at synced
      rw [printed, checked_ok_bind, entryText_eq printed] at synced
      have queue : (w.peerDir s).queue.getD [] =
        ['.'] :: (List.range s.created).map (queueName w.suffix) := rfl
      rw [checked_ok_bind, entryText_eq printed, queue]
      split at synced
      · rename_i nothing
        cases synced
        rw [if_pos nothing]
        exact ⟨s.looks, fileSteps_idle call.stopSoon _ idle⟩
      · rename_i some
        cases synced
        rw [if_neg some]
        obtain ⟨looks, went⟩ := @fileSteps_importFiles w call ((s.node.maxStart w.dName).getD 0) _ _
          { s with
            node := s.node.pruneMax w.dName
            phase := .looking ((s.node.maxStart w.dName).getD 0)
              (s.node.nextMinAccept w.dName)
              (filesFrom (idText (s.node.nextMinAccept w.dName))
                (scandir (['.'] :: (List.range s.created).map (queueName w.suffix)))) }
          rfl
        exact ⟨looks, went.trans (by rw [← idle]; rfl)⟩

def listGuard (w : Writer) (s : Checked RaceState) (step : RaceStep) : Prop :=
  Yields (fun s => ∀ lastMtime, step = .list lastMtime → s.phase = .idle →
    SixDigits (s.node.nextMinAccept w.dName) s.created ∧ s.created < 2 ^ 32) s

include distinct in
theorem RaceKept.step (kept : w.RaceKept pre) {step : RaceStep}
    (digits : ∀ lastMtime, step = .list lastMtime → pre.phase = .idle →
      SixDigits (pre.node.nextMinAccept w.dName) pre.created ∧ pre.created < 2 ^ 32) :
    Ensures w.RaceKept (w.raceStep pre step) := by
  unfold raceStep
  split
  · split
    · exact kept
    · exact kept.peer (Nat.le_succ _) rfl rfl rfl
  · exact kept.peer (Nat.le_refl _) rfl rfl rfl
  · rename_i lastMtime idle
    obtain ⟨short, word⟩ := digits lastMtime rfl idle
    exact kept.list idle short word
  · rename_i phase
    exact kept.look distinct phase
  · rename_i phase
    exact kept.run phase
  · rename_i phase
    exact kept.finish distinct phase
  · exact kept

end

end Writer

/-- Importing beside a peer that creates a file and then writes it: whatever the
order of the steps, every id below the recorded next id has been run with its
full content, or is oversized, came from us, or was empty when it was looked at. -/
theorem sync_accounts_for_ids_of_run (w : Writer)
    (distinct : Function.Injective (queueName w.suffix)) (start : RaceState)
    (unsynced : start.node.synced w.dName = none) (idle : start.phase = .idle)
    (steps : List RaceStep)
    (admitted : Along w.raceRun w.listGuard (.ok start) steps) :
    Ensures (fun s => ∀ id, id < s.node.nextMinAccept w.dName →
      w.Settled s id) (runFrom w.raceRun (.ok start) steps) := by
  have nothing : start.node.nextMinAccept w.dName = 0 := by
    unfold SyncState.nextMinAccept
    rw [unsynced]
    rfl
  have initially : w.RaceKept start := by
    refine ⟨nothing ▸ Nat.zero_le _, ?_, idle ▸ trivial⟩
    intro id below
    rw [nothing] at below
    exact absurd below (Nat.not_lt_zero id)
  have stepKept : ∀ s step, Ensures w.RaceKept s → w.listGuard s step →
      Ensures w.RaceKept (w.raceRun s step) := by
    intro s step ensured guarded
    cases s with
    | error trap => exact ensured
    | ok s => exact ensured.step distinct guarded
  have kept := runFrom_invariant (Ensures w.RaceKept) stepKept (.ok _) initially _ admitted
  exact kept.mono (fun _ kept => kept.settled)

/-- Peer `b` writes files of five bytes; instance `a` has not synced yet. -/
def fiveBytes (suffix : Nat → FileName) : Writer := ⟨['b'], true, none, suffix, fun _ => 5⟩

def raceStart (created : Nat) : RaceState := ⟨newNode, created, false, .idle, []⟩

def raceOutcome (suffix : Nat → FileName) (steps : List RaceStep) :
    Option (Nat × List Execution) :=
  (runFrom (fiveBytes suffix).raceRun (.ok (raceStart 0)) steps).toOption.map
    (fun s => (s.node.nextMinAccept ['b'], s.node.executed))

theorem sync_accounts_for_ids_of_run_in_turn :
    raceOutcome commas [.create, .write, .list 0, .look, .run false, .finish] =
        some (1, [⟨['b'], queueName commas 0, 5⟩]) ∧
      Ensures (fun s => ∀ id, id < s.node.nextMinAccept ['b'] → (fiveBytes commas).Settled s id)
        (runFrom (fiveBytes commas).raceRun (.ok (raceStart 0))
          [.create, .write, .list 0, .look, .run false, .finish]) := by
  refine ⟨by decide +kernel, sync_accounts_for_ids_of_run (fiveBytes commas)
    queueName_commas_injective (raceStart 0) rfl rfl _ ?_⟩
  have other : ∀ s step, (∀ lastMtime, step ≠ .list lastMtime) →
      (fiveBytes commas).listGuard s step := by
    intro s step ne
    exact Yields.of_forall (fun _ lastMtime listed => absurd listed (ne lastMtime)) s
  refine ⟨other _ _ nofun, other _ _ nofun, ?_, other _ _ nofun, other _ _ nofun, other _ _ nofun,
    trivial⟩
  intro lastMtime _ _
  exact ⟨⟨by decide, .inl (by decide)⟩, by decide⟩

private theorem fiveBytes_offers {s : RaceState} (written : s.empty = false) :
    PeerOffers commas s.created ((fiveBytes commas).peerDir s) where
  queue := ⟨_, rfl, [['.']], fun dot mem => by rw [mem_singleton.1 mem]; rfl, List.Perm.refl _⟩
  complete := by
    intro id inside
    have size : (fiveBytes commas).sizeNow s id = 5 := by
      unfold Writer.sizeNow
      rw [written]
      rfl
    exact ⟨5, size ▸ Writer.fileSize_queueName queueName_commas_injective inside, by decide,
      by decide⟩

/-- When the number of files has more than six digits, a second call counts files
again: an id that has not been given out yet is below the next id. -/
private theorem fiveBytes_counts_again (digits : SixDigits 0 n) (fits : n < 10 ^ 8)
    (present : ∃ id, id < n ∧ leading 6 id = leading 6 n) :
    ∃ steps final, runFrom (fiveBytes commas).raceRun (.ok (raceStart n)) steps = .ok final ∧
      final.created = n ∧ n < final.node.nextMinAccept ['b'] ∧
      final.node.runs ['b'] (queueName commas n) = 0 := by
  obtain ⟨post, synced, imports⟩ := @Imported.syncPeer commas n 0 (callWith n)
    ((fiveBytes commas).peerDir (raceStart n)) newNode newNode_imported queueName_commas_injective
    (@fiveBytes_offers (raceStart n) rfl) (fun _ => rfl) (Nat.zero_le n)
    (Nat.lt_trans fits (by decide)) digits rfl
  obtain ⟨looks, first⟩ := @Writer.callSteps_syncPeer (fiveBytes commas) (callWith n) (raceStart n)
    rfl post synced
  have named : post.syncId = ['a'] := by
    obtain ⟨known, again, frame⟩ := @syncPeer_frame (callWith n)
      ((fiveBytes _).peerDir (raceStart n)) newNode (Nat.pow_pos (by decide))
    have same : known = post := Except.ok.inj (again.symm.trans synced)
    rw [← same]
    exact frame.syncId
  obtain ⟨id, inside, agrees⟩ := present
  obtain ⟨last, repeated, _, counted, unseen⟩ := @syncPeer_from_leading commas n n id (callWith n)
    ((fiveBytes commas).peerDir { raceStart n with node := post, looks := looks }) post
    (@fiveBytes_offers { raceStart n with node := post, looks := looks } rfl)
    queueName_commas_injective (Nat.le_of_lt fits) (fun _ => rfl) rfl
    imports.next fits ⟨id, inside, agrees⟩ inside (Nat.le_of_eq agrees.symm)
    (by rw [named]; exact queueName_commas_unknown (Nat.lt_trans inside fits))
  obtain ⟨seen, second⟩ := @Writer.callSteps_syncPeer (fiveBytes commas) (callWith n)
    { raceStart n with node := post, looks := looks } rfl last repeated
  refine ⟨(fiveBytes commas).callSteps (callWith n) (raceStart n) ++
    (fiveBytes commas).callSteps (callWith n) { raceStart n with node := post, looks := looks },
    { raceStart n with node := last, looks := seen }, ?_, rfl, counted, ?_⟩
  · unfold runFrom at *
    rw [foldl_append, first, second]
  · exact (unseen n (Nat.le_refl n)).trans (imports.fresh n (Nat.le_refl n))

/-- The instance looks at the file before the peer has written it; or the file
was returned to us.  With a million files the counter runs ahead of the peer. -/
theorem sync_counts_ids_it_did_not_run :
    raceOutcome commas [.create, .list 0, .look, .finish, .write] = some (1, []) ∧
      raceOutcome (fun _ => returnedName.drop 9) [.create, .write, .list 0, .look, .finish] =
        some (1, []) ∧
      ∃ steps final,
        runFrom (fiveBytes commas).raceRun (.ok (raceStart 1000000)) steps = .ok final ∧
          final.created = 1000000 ∧ 1000000 < final.node.nextMinAccept ['b'] ∧
          final.node.runs ['b'] (queueName commas 1000000) = 0 := by
  refine ⟨by decide +kernel, by decide +kernel, ?_⟩
  exact fiveBytes_counts_again ⟨by decide, .inl (by decide)⟩ (by decide)
    ⟨100000, by decide, leading_hundredThousand⟩

end AflPlusPlus
