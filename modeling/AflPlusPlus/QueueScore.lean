/-
The queue and the winners of the bitmap slots.

An entry wins a slot when nothing holds it or when the holder does not score
better.  The holder gives up one reference; an entry without references has no
minimised trace.  Entries are named by their place in `queue_buf`.
-/

import AflPlusPlus.Common
import AflPlusPlus.CoverageMap
import AflPlusPlus.Machine.BitTable
import AflPlusPlus.Machine.GuardedRun
import AflPlusPlus.Machine.SlotTable

namespace AflPlusPlus

open Machine Function

inductive Schedule where
  | explore
  | mmopt
  | exploit
  | fast
  | coe
  | lin
  | quad
  | rare
  | seek
  deriving DecidableEq, Repr

/-- `schedule >= FAST && schedule < RARE` -/
def Schedule.skipsFuzzP2 : Schedule → Bool
  | .fast | .coe | .lin | .quad => true
  | _ => false

/-- `schedule >= RARE` -/
def Schedule.ignoresSpeed : Schedule → Bool
  | .rare | .seek => true
  | _ => false

structure TraceMini where
  len : Nat
  bytes : Buffer

structure QueueEntry where
  len : BitVec 32
  calFailed : BitVec 8
  wasFuzzed : Bool
  hasNewCov : Bool
  varBehavior : Bool
  favored : Bool
  fsRedundant : Bool
  disabled : Bool
  tightnessNovel : Bool
  bitmapSize : Nat
  fuzzLevel : BitVec 32
  nFuzzEntry : Nat
  execUs : BitVec 64
  handicap : BitVec 64
  execCksum : BitVec 64
  tcRef : Nat
  traceMini : Option TraceMini
  tightnessNovelCycle : BitVec 32

/-- `ck_alloc` zeroes a new entry; `add_to_queue` then records its length. -/
def QueueEntry.added (len : BitVec 32) : QueueEntry where
  len := len
  calFailed := 0
  wasFuzzed := false
  hasNewCov := false
  varBehavior := false
  favored := false
  fsRedundant := false
  disabled := false
  tightnessNovel := false
  bitmapSize := 0
  fuzzLevel := 0
  nFuzzEntry := 0
  execUs := 0
  handicap := 0
  execCksum := 0
  tcRef := 0
  traceMini := none
  tightnessNovelCycle := 0

/-- A candidate list `[count][cap][id0][id1...]`; the count is the length. -/
structure Candidates where
  cap : Nat
  ids : List Nat

structure Queue where
  queueBuf : Nat → QueueEntry
  queuedItems : Nat
  activeItems : Nat
  pendingNotFuzzed : Nat
  topRated : Nat → Option Nat
  topRatedCandidates : Nat → Option Candidates
  lastScoredIdx : Int
  scoreChanged : Bool
  nonInstrumentedMode : Bool
  schedule : Schedule
  fixedSeed : Bool
  nFuzz : Nat → BitVec 32
  queuedFavored : Nat
  pendingFavored : Nat
  smallestFavored : Int
  queueCycle : BitVec 64
  mapTmpBuf : Buffer
  reinitTable : Bool
  aflDisableRedundant : Bool

def Queue.empty (schedule : Schedule) (fixedSeed aflDisableRedundant : Bool) : Queue where
  queueBuf := fun _ => QueueEntry.added 0
  queuedItems := 0
  activeItems := 0
  pendingNotFuzzed := 0
  topRated := fun _ => none
  topRatedCandidates := fun _ => none
  lastScoredIdx := -1
  scoreChanged := false
  nonInstrumentedMode := false
  schedule := schedule
  fixedSeed := fixedSeed
  nFuzz := fun _ => 0
  queuedFavored := 0
  pendingFavored := 0
  smallestFavored := -1
  queueCycle := 0
  mapTmpBuf := fun _ => 0
  reinitTable := false
  aflDisableRedundant := aflDisableRedundant

def Queue.modify (queue : Queue) (q : Nat) (change : QueueEntry → QueueEntry) : Queue :=
  { queue with queueBuf := update queue.queueBuf q (change (queue.queueBuf q)) }

def addToQueue (len : BitVec 32) (queue : Queue) : Queue :=
  { queue.modify queue.queuedItems (fun _ => QueueEntry.added len) with
    queuedItems := queue.queuedItems + 1
    activeItems := queue.activeItems + 1
    pendingNotFuzzed := queue.pendingNotFuzzed + 1 }

def Queue.fuzzP2 (queue : Queue) (entry : QueueEntry) : BitVec 64 :=
  if queue.schedule.skipsFuzzP2 then 0
  else if queue.schedule = .rare then nextPow2 ((queue.nFuzz entry.nFuzzEntry).setWidth 64)
  else entry.fuzzLevel.setWidth 64

def Queue.favFactor (queue : Queue) (entry : QueueEntry) : BitVec 64 :=
  if queue.schedule.ignoresSpeed || queue.fixedSeed then (entry.len <<< 2).setWidth 64
  else entry.execUs * entry.len.setWidth 64

def minimizeBits (mapSize : Nat) (dst src : Buffer) : Buffer :=
  forUpto mapSize (fun i bits => if src i ≠ 0 then setBit bits i else bits) dst

def QueueEntry.release (entry : QueueEntry) : QueueEntry :=
  let left := u32Pred entry.tcRef
  if left = 0 then { entry with tcRef := left, traceMini := none }
  else { entry with tcRef := left }

def QueueEntry.enthrone (fsrv : Fsrv) (miniLen : Nat) (entry : QueueEntry) : QueueEntry :=
  { entry with
    tcRef := u32 (entry.tcRef + 1)
    traceMini :=
      match entry.traceMini with
      | some mini => some mini
      | none => some ⟨miniLen, minimizeBits fsrv.mapSize (fun _ => 0) fsrv.traceBits⟩ }

/-- `Insert ourselves as the new winner` -/
def Queue.crown (fsrv : Fsrv) (miniLen q i : Nat) (queue : Queue) : Queue :=
  { queue.modify q (QueueEntry.enthrone fsrv miniLen) with
    topRated := update queue.topRated i (some q)
    scoreChanged := true }

/-- The holder keeps the slot when the contender's scores are worse. -/
def Queue.holds (queue : Queue) (fuzzP2 favFactor : BitVec 64) (winner : Nat) : Bool :=
  decide (queue.fuzzP2 (queue.queueBuf winner) < fuzzP2) ||
    decide (queue.favFactor (queue.queueBuf winner) < favFactor)

def Queue.contend (fsrv : Fsrv) (miniLen q : Nat) (fuzzP2 favFactor : BitVec 64) (i : Nat)
    (queue : Queue) : Queue :=
  match queue.topRated i with
  | none => queue.crown fsrv miniLen q i
  | some winner =>
    if queue.holds fuzzP2 favFactor winner then queue
    else (queue.modify winner QueueEntry.release).crown fsrv miniLen q i

def scoreUpto (fsrv : Fsrv) (q bound : Nat) (queue : Queue) : Queue :=
  let fuzzP2 := queue.fuzzP2 (queue.queueBuf q)
  let favFactor := queue.favFactor (queue.queueBuf q)
  forUpto bound (fun i cur =>
    if fsrv.traceBits i ≠ 0 then
      cur.contend fsrv ((fsrv.mapSize + 7) / 8) q fuzzP2 favFactor i
    else cur) queue

def updateBitmapScore (fsrv : Fsrv) (q : Nat) (haveTrace : Bool) (queue : Queue) : Queue :=
  if (queue.queueBuf q).disabled then queue
  else if haveTrace then scoreUpto fsrv q fsrv.mapSize queue
  else queue

def updateBitmapRescore (fsrv : Fsrv) (q idx : Nat) (queue : Queue) : Queue :=
  if (queue.queueBuf q).disabled then queue
  else
    queue.contend fsrv (fsrv.mapSize / 8) q (queue.fuzzP2 (queue.queueBuf q))
      (queue.favFactor (queue.queueBuf q)) idx

def QueueEntry.markRedundant (aflDisableRedundant s : Bool) (entry : QueueEntry) :
    QueueEntry :=
  if s = entry.fsRedundant then entry
  else { entry with
    fsRedundant := s
    traceMini := if s then none else entry.traceMini
    disabled := entry.disabled || (s && aflDisableRedundant) }

def markAsRedundant (q : Nat) (s : Bool) (queue : Queue) : Queue :=
  queue.modify q (QueueEntry.markRedundant queue.aflDisableRedundant s)

theorem bitAt_minimizeBits (mapSize : Nat) (dst src : Buffer) (k : Nat) :
    bitAt (minimizeBits mapSize dst src) k = (bitAt dst k || decide (k < mapSize ∧ src k ≠ 0)) := by
  unfold minimizeBits
  induction mapSize with
  | zero => simp
  | succ bound ih =>
    rw [forUpto_succ]
    by_cases hit : src bound ≠ 0
    · rw [if_pos hit, bitAt_setBit, ih, Bool.or_assoc, ← Bool.decide_or]
      congr 2
      grind
    · rw [if_neg hit, ih]
      congr 2
      grind

@[simp] theorem Queue.modify_topRated (queue : Queue) (q : Nat)
    (change : QueueEntry → QueueEntry) : (queue.modify q change).topRated = queue.topRated := rfl

@[simp] theorem Queue.modify_self (queue : Queue) (q : Nat) (change : QueueEntry → QueueEntry) :
    (queue.modify q change).queueBuf q = change (queue.queueBuf q) := update_self ..

theorem Queue.modify_of_ne {queue : Queue} {q other : Nat} {change : QueueEntry → QueueEntry}
    (ne : other ≠ q) : (queue.modify q change).queueBuf other = queue.queueBuf other :=
  update_of_ne ne ..

variable (entry : QueueEntry)

theorem QueueEntry.release_tcRef :
    entry.release.tcRef = u32Pred entry.tcRef := by
  unfold QueueEntry.release
  dsimp only
  split <;> rfl

theorem QueueEntry.release_traceMini :
    entry.release.traceMini = if u32Pred entry.tcRef = 0 then none else entry.traceMini := by
  unfold QueueEntry.release
  dsimp only
  split <;> rfl

/-- `tc_ref` is the number of slots held, and it is what keeps a minimised
trace alive. -/
structure RefCounts (mapSize : Nat) (queue : Queue) : Prop where
  owned : ∀ q, (queue.queueBuf q).tcRef = Nat.count (fun i => queue.topRated i = some q) mapSize
  unowned : ∀ q, (queue.queueBuf q).tcRef = 0 → (queue.queueBuf q).traceMini = none

variable {i : Nat}

section Counts

variable {mapSize : Nat} {queue : Queue}

theorem RefCounts.tcRef_pos (counts : RefCounts mapSize queue) {winner : Nat}
    (inside : i < mapSize) (held : queue.topRated i = some winner) :
    0 < (queue.queueBuf winner).tcRef := by
  rw [counts.owned _, Nat.pos_iff_ne_zero, Nat.count_ne_iff_exists]
  exact ⟨i, inside, held⟩

/-- A change to one entry that leaves its reference count alone, and adds no
minimised trace, is invisible to the counts. -/
theorem RefCounts.modify (counts : RefCounts mapSize queue) (q : Nat)
    (change : QueueEntry → QueueEntry)
    (sameRef : (change (queue.queueBuf q)).tcRef = (queue.queueBuf q).tcRef)
    (noMini : (queue.queueBuf q).traceMini = none → (change (queue.queueBuf q)).traceMini = none) :
    RefCounts mapSize (queue.modify q change) where
  owned := by
    intro other
    rw [Queue.modify_topRated, ← counts.owned _]
    by_cases same : other = q
    · rw [same, Queue.modify_self, sameRef]
    · rw [Queue.modify_of_ne same]
  unowned := by
    intro other unreferenced
    by_cases same : other = q
    · rw [same, Queue.modify_self] at unreferenced ⊢
      rw [sameRef] at unreferenced
      exact noMini (counts.unowned q unreferenced)
    · rw [Queue.modify_of_ne same] at unreferenced ⊢
      exact counts.unowned _ unreferenced

def Queue.vacate (queue : Queue) (i : Nat) : Queue :=
  { queue with topRated := update queue.topRated i none }

theorem Queue.crown_vacate (fsrv : Fsrv) (miniLen q i : Nat) (queue : Queue) :
    (queue.vacate i).crown fsrv miniLen q i = queue.crown fsrv miniLen q i := by
  simp [Queue.crown, Queue.vacate, Queue.modify]

section

variable (counts : RefCounts mapSize queue)
include counts

theorem RefCounts.release {winner : Nat} (inside : i < mapSize)
    (held : queue.topRated i = some winner) :
    RefCounts mapSize ((queue.modify winner QueueEntry.release).vacate i) := by
  have left := u32Pred_add_one (counts.tcRef_pos inside held)
  constructor
  · intro q
    have moved := count_update (· = some q) queue.topRated inside none
    rw [held] at moved
    change ((queue.modify winner QueueEntry.release).queueBuf q).tcRef =
      Nat.count (fun k => update queue.topRated i none k = some q) mapSize
    by_cases same : q = winner
    · rw [if_pos (congrArg _ same.symm), if_neg nofun] at moved
      rw [same, Queue.modify_self, QueueEntry.release_tcRef]
      have owned := counts.owned winner
      subst same
      omega
    · rw [if_neg (fun other => same (Option.some.inj other).symm)] at moved
      rw [Queue.modify_of_ne same, counts.owned q]
      exact moved.symm
  · intro q unreferenced
    change ((queue.modify winner QueueEntry.release).queueBuf q).tcRef = 0 at unreferenced
    change ((queue.modify winner QueueEntry.release).queueBuf q).traceMini = none
    by_cases same : q = winner
    · rw [same, Queue.modify_self] at unreferenced ⊢
      rw [QueueEntry.release_tcRef] at unreferenced
      rw [QueueEntry.release_traceMini, if_pos unreferenced]
    · rw [Queue.modify_of_ne same] at unreferenced ⊢
      exact counts.unowned q unreferenced

variable (sized : mapSize < 2 ^ 32)

include sized

theorem RefCounts.crown (fsrv : Fsrv) (miniLen q : Nat)
    (inside : i < mapSize) (vacant : queue.topRated i = none) :
    RefCounts mapSize (queue.crown fsrv miniLen q i) := by
  have moved := fun other => count_update (· = some other) queue.topRated inside (some q)
  have gained := moved q
  rw [vacant, if_neg nofun, if_pos rfl] at gained
  have owned := counts.owned q
  have bound : Nat.count (fun k => update queue.topRated i (some q) k = some q) mapSize ≤ mapSize :=
    Nat.count_le _
  have next : u32 ((queue.queueBuf q).tcRef + 1) = (queue.queueBuf q).tcRef + 1 := by
    unfold u32
    omega
  constructor
  · intro other
    change ((queue.modify q (QueueEntry.enthrone fsrv miniLen)).queueBuf other).tcRef =
      Nat.count (fun k => update queue.topRated i (some q) k = some other) mapSize
    by_cases same : other = q
    · rw [same, Queue.modify_self]
      change u32 _ = _
      omega
    · have kept := moved other
      rw [vacant, if_neg (fun here => same (Option.some.inj here).symm)] at kept
      rw [Queue.modify_of_ne same, counts.owned _]
      exact kept.symm
  · intro other unreferenced
    change ((queue.modify q (QueueEntry.enthrone fsrv miniLen)).queueBuf other).tcRef = 0
      at unreferenced
    change ((queue.modify q (QueueEntry.enthrone fsrv miniLen)).queueBuf other).traceMini = none
    by_cases same : other = q
    · rw [same, Queue.modify_self] at unreferenced
      change u32 _ = 0 at unreferenced
      omega
    · rw [Queue.modify_of_ne same] at unreferenced ⊢
      exact counts.unowned _ unreferenced

/-- An entry that displaces itself passes through zero references, loses its
minimised trace and gets a new one; the counts come out right all the same. -/
theorem RefCounts.contend (fsrv : Fsrv) (miniLen q : Nat)
    (fuzzP2 favFactor : BitVec 64) (inside : i < mapSize) :
    RefCounts mapSize (queue.contend fsrv miniLen q fuzzP2 favFactor i) := by
  unfold Queue.contend
  cases held : queue.topRated i with
  | none => exact counts.crown sized _ _ q inside held
  | some winner =>
    dsimp only
    split
    · exact counts
    · have released := counts.release inside held
      have crowned := released.crown sized fsrv miniLen q inside (update_self ..)
      rw [Queue.crown_vacate] at crowned
      exact crowned

theorem RefCounts.scoreUpto (fsrv : Fsrv) (q bound : Nat)
    (inside : bound ≤ mapSize) : RefCounts mapSize (scoreUpto fsrv q bound queue) := by
  apply forUpto_preserves _ _ (RefCounts _) _ counts
  intro i below cur ongoing
  split
  · exact ongoing.contend sized _ _ q _ _ (by omega)
  · exact ongoing

omit sized

theorem RefCounts.updateBitmapScore (sized : mapSize < 2 ^ 32) (fsrv : Fsrv)
    (same : fsrv.mapSize = mapSize) (q : Nat) (haveTrace : Bool) :
    RefCounts mapSize (updateBitmapScore fsrv q haveTrace queue) := by
  unfold AflPlusPlus.updateBitmapScore
  split
  · exact counts
  · split
    · exact counts.scoreUpto sized _ q _ (Nat.le_of_eq same)
    · exact counts

include sized in
theorem RefCounts.updateBitmapRescore (fsrv : Fsrv) (q : Nat) {idx : Nat} (inside : idx < mapSize) :
    RefCounts mapSize (updateBitmapRescore fsrv q idx queue) := by
  unfold AflPlusPlus.updateBitmapRescore
  split
  · exact counts
  · exact counts.contend sized _ _ q _ _ inside

theorem RefCounts.markAsRedundant (q : Nat) (s : Bool) :
    RefCounts mapSize (markAsRedundant q s queue) := by
  apply counts.modify
  · unfold QueueEntry.markRedundant
    split <;> rfl
  · intro absent
    unfold QueueEntry.markRedundant
    split
    · exact absent
    · cases s
      · exact absent
      · rfl

end

end Counts

/-- Scoring calls, and everything else that may happen to a queue in between:
`set_entry` and `set_queue` put arbitrary values where scoring only reads. -/
inductive ScoreStep where
  | score (q : Nat) (trace : Buffer) (haveTrace : Bool)
  | rescore (q idx : Nat) (trace : Buffer)
  | redundant (q : Nat) (s : Bool)
  | setEntry (q : Nat) (entry : QueueEntry)
  | setQueue (values : Queue)

def scoreStep (fsrv : Fsrv) (queue : Queue) : ScoreStep → Queue
  | .score q trace haveTrace => updateBitmapScore { fsrv with traceBits := trace } q haveTrace queue
  | .rescore q idx trace => updateBitmapRescore { fsrv with traceBits := trace } q idx queue
  | .redundant q s => markAsRedundant q s queue
  | .setEntry q entry => queue.modify q (fun old =>
    { entry with tcRef := old.tcRef, traceMini := old.traceMini })
  | .setQueue values => { values with queueBuf := queue.queueBuf, topRated := queue.topRated }

/-- `update_bitmap_rescore` is called for an index of the map. -/
def ScoreStep.Indexed (mapSize : Nat) : ScoreStep → Prop
  | .rescore _ idx _ => idx < mapSize
  | _ => True

private theorem scoreStep_refCounts (fsrv : Fsrv) (sized : fsrv.mapSize < 2 ^ 32) (queue : Queue)
    (step : ScoreStep) (counts : RefCounts fsrv.mapSize queue)
    (indexed : step.Indexed fsrv.mapSize) :
    RefCounts fsrv.mapSize (scoreStep fsrv queue step) := by
  cases step with
  | score q trace haveTrace =>
    exact counts.updateBitmapScore sized { fsrv with traceBits := trace } rfl q _
  | rescore q idx trace =>
    exact counts.updateBitmapRescore sized { fsrv with traceBits := trace } q indexed
  | redundant q s => exact counts.markAsRedundant q _
  | setEntry q entry =>
    unfold scoreStep
    apply counts.modify
    · rfl
    · exact fun absent => absent
  | setQueue values => exact ⟨counts.owned, counts.unowned⟩

/-- From an empty slot table, every run of scoring calls keeps `tc_ref` equal
to the number of slots held.  The holder that gives up a slot, at whatever
point of a call, has a positive count. -/
theorem slot_reference_counts (fsrv : Fsrv) (sized : fsrv.mapSize < 2 ^ 32) (queue : Queue)
    (noWinner : ∀ i, queue.topRated i = none)
    (fresh : ∀ q, (queue.queueBuf q).tcRef = 0 ∧ (queue.queueBuf q).traceMini = none)
    (steps : List ScoreStep)
    (indexed : Along (scoreStep fsrv) (fun _ step => step.Indexed fsrv.mapSize) queue steps) :
    let post := runFrom (scoreStep fsrv) queue steps
    (∀ q, (post.queueBuf q).tcRef = Nat.count (fun i => post.topRated i = some q) fsrv.mapSize) ∧
      (∀ q, (∀ i, i < fsrv.mapSize → post.topRated i ≠ some q) →
        (post.queueBuf q).traceMini = none) ∧
      (∀ i winner, i < fsrv.mapSize → post.topRated i = some winner →
        0 < (post.queueBuf winner).tcRef) ∧
      ∀ trace q i winner, i < fsrv.mapSize →
        (scoreUpto { fsrv with traceBits := trace } q i post).topRated i = some winner →
        0 < ((scoreUpto { fsrv with traceBits := trace } q i post).queueBuf winner).tcRef := by
  intro post
  have start : RefCounts fsrv.mapSize queue := by
    constructor
    · intro q
      rw [(fresh q).1]
      symm
      rw [Nat.count_iff_forall_not]
      intro i _ held
      rw [noWinner i] at held
      cases held
    · intro q _
      exact (fresh q).2
  have counts : RefCounts fsrv.mapSize post :=
    runFrom_invariant (RefCounts fsrv.mapSize) (scoreStep_refCounts _ sized) _ start
      _ indexed
  refine ⟨counts.owned, ?_, ?_, ?_⟩
  · intro q holdsNone
    apply counts.unowned q
    rw [counts.owned q, Nat.count_iff_forall_not]
    exact holdsNone
  · intro i winner inside held
    exact counts.tcRef_pos inside held
  · intro trace q i winner inside held
    exact (counts.scoreUpto sized _ q i (Nat.le_of_lt inside)).tcRef_pos inside held

theorem slot_reference_counts_self_replacement :
    ((runFrom (scoreStep ⟨fun _ => 0, 8, 8⟩) (Queue.empty .explore false false)
      [.score 0 (fun i => if i = 1 then 1 else 0) true,
        .rescore 0 1 (fun _ => 0)]).queueBuf 0).tcRef = 1 := by
  have law := slot_reference_counts ⟨fun _ => 0, 8, 8⟩ (by decide)
    (Queue.empty .explore false false) (fun _ => rfl) (fun _ => ⟨rfl, rfl⟩)
    [.score 0 (fun i => if i = 1 then 1 else 0) true, .rescore 0 1 (fun _ => 0)]
    ⟨trivial, (by decide : 1 < 8), trivial⟩
  rw [law.1 0]
  decide

end AflPlusPlus
