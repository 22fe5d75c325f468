/-
Runs of the queue.

The steps are what a campaign does to the queue.  Every entry has one fixed trace; the
trace buffer is shared and holds that of the last execution.
-/

import AflPlusPlus.QueueCull

namespace AflPlusPlus

open Machine

structure QueueState where
  fsrv : Fsrv
  queue : Queue

def QueueState.executed (trace : Buffer) (s : QueueState) : QueueState :=
  { s with fsrv := { s.fsrv with traceBits := trace } }

def Candidates.append (id : Nat) : Option Candidates → Candidates
  | none => ⟨2, [id]⟩
  | some list =>
    ⟨if list.ids.length = list.cap then list.cap * 2 else list.cap, list.ids ++ [id]⟩

def Queue.nominate (fsrv : Fsrv) (id : Nat) (queue : Queue) : Queue :=
  { queue with
    topRatedCandidates :=
      forUpto fsrv.mapSize (fun j lists =>
        if fsrv.traceBits j ≠ 0 then
          Function.update lists j (some (Candidates.append id (lists j)))
        else lists) queue.topRatedCandidates }

def collectEntry (execute : Nat → Buffer) (i : Nat) (s : QueueState) : QueueState :=
  if (s.queue.queueBuf i).disabled then
    { s with queue := { s.queue with lastScoredIdx := i } }
  else
    let ran := s.executed (execute i)
    { ran with queue := { ran.queue.nominate ran.fsrv i with lastScoredIdx := i } }

/-- The calls of the second loop in their order: for each index, one for each
candidate of that index. -/
def rescoreCalls (mapSize : Nat) (queue : Queue) : List (Nat × Nat) :=
  (List.range mapSize).flatMap (fun i =>
    match queue.topRatedCandidates i with
    | none => []
    | some list => list.ids.map (fun id => (id, i)))

def rescoreCall (fsrv : Fsrv) (queue : Queue) (call : Nat × Nat) : Queue :=
  updateBitmapRescore fsrv call.1 call.2 queue

def collectCandidates (execute : Nat → Buffer) (s : QueueState) : QueueState :=
  let first := (s.queue.lastScoredIdx + 1).toNat
  forUpto (s.queue.queuedItems - first) (fun k cur => collectEntry execute (first + k) cur) s

def recalculateAllScores (execute : Nat → Buffer) (s : QueueState) : QueueState :=
  let collected := collectCandidates execute s
  let calls := rescoreCalls collected.fsrv.mapSize collected.queue
  { collected with queue := runFrom (rescoreCall collected.fsrv) collected.queue calls }

def QueueEntry.comparable (entry : QueueEntry) : Bool :=
  !entry.disabled && entry.calFailed == 0 && entry.execCksum != 0

def disableDuplicate (q : Nat) (queue : Queue) : Queue :=
  let fuzzed :=
    if (queue.queueBuf q).wasFuzzed then queue
    else { queue with
      reinitTable := true
      pendingNotFuzzed := u32Pred queue.pendingNotFuzzed
      activeItems := u32Pred queue.activeItems }
  fuzzed.modify q (fun entry => { entry with wasFuzzed := true, disabled := true })

/-- The inner loop for entry `q`; it ends when `q` itself is disabled. -/
def removeDuplicatesOf (q : Nat) : List Nat → Queue → Queue
  | [], queue => queue
  | p :: rest, queue =>
    if (queue.queueBuf p).comparable &&
        (queue.queueBuf p).execCksum == (queue.queueBuf q).execCksum then
      if (queue.queueBuf q).len ≤ (queue.queueBuf p).len then
        removeDuplicatesOf q rest (disableDuplicate p queue)
      else disableDuplicate q queue
    else removeDuplicatesOf q rest queue

def removeDuplicates (queue : Queue) : Queue :=
  forUpto (queue.queuedItems - 1) (fun idx cur =>
    if (cur.queueBuf idx).comparable then
      removeDuplicatesOf idx (List.range' (idx + 1) (cur.queuedItems - (idx + 1))) cur
    else cur) queue

def QueueEntry.noteFuzzed (entry : QueueEntry) : QueueEntry := { entry with wasFuzzed := true }

def QueueEntry.raiseLevel (entry : QueueEntry) : QueueEntry :=
  { entry with fuzzLevel := entry.fuzzLevel + 1 }

def abandonEntry (stopSoon : Bool) (q : Nat) (queue : Queue) : Queue :=
  let entry := queue.queueBuf q
  let noted :=
    if !stopSoon && entry.calFailed == 0 && !entry.wasFuzzed && !entry.disabled then
      let seen := { queue.modify q QueueEntry.noteFuzzed with
        pendingNotFuzzed := queue.pendingNotFuzzed - 1
        reinitTable := true }
      if entry.favored then
        { seen with pendingFavored := queue.pendingFavored - 1, smallestFavored := -1 }
      else seen
    else queue
  noted.modify q QueueEntry.raiseLevel

/-- `collect_tightness_minima` after it found a new minimum for `queue_cur`. -/
def stampTightness (q : Nat) (queue : Queue) : Queue :=
  queue.modify q (fun old =>
    { old with
      tightnessNovel := true
      tightnessNovelCycle := queue.queueCycle.setWidth 32
      favored := true })

inductive QueueStep where
  | add (len : BitVec 32)
  | execute (q : Nat)
  | score (q : Nat)
  | rescore (q index : Nat)
  | recalculate
  | removeDuplicates
  | cull
  | abandon (q : Nat) (stopSoon : Bool)
  | tighten (q : Nat)
  | setScores (q : Nat) (scores : QueueEntry)
  | setSchedule (schedule : Schedule) (fixedSeed : Bool) (nFuzz : Nat → BitVec 32)
  | nextCycle

def QueueEntry.withScores (scores entry : QueueEntry) : QueueEntry :=
  { scores with
    wasFuzzed := entry.wasFuzzed
    favored := entry.favored
    fsRedundant := entry.fsRedundant
    disabled := entry.disabled
    tightnessNovel := entry.tightnessNovel
    tightnessNovelCycle := entry.tightnessNovelCycle
    tcRef := entry.tcRef
    traceMini := entry.traceMini }

def QueueState.onQueue (s : QueueState) (change : Queue → Queue) : QueueState :=
  { s with queue := change s.queue }

def queueStep (trace : Nat → Buffer) (s : QueueState) : QueueStep → QueueState
  | .add len => s.onQueue (addToQueue len)
  | .execute q => s.executed (trace q)
  | .score q =>
    let ran := s.executed (trace q)
    ran.onQueue (updateBitmapScore ran.fsrv q true)
  | .rescore q index => s.onQueue (updateBitmapRescore s.fsrv q index)
  | .recalculate => recalculateAllScores trace s
  | .removeDuplicates => s.onQueue removeDuplicates
  | .cull => s.onQueue (cullQueue s.fsrv)
  | .abandon q stopSoon => s.onQueue (abandonEntry stopSoon q)
  | .tighten q => s.onQueue (stampTightness q)
  | .setScores q scores => s.onQueue (fun queue => queue.modify q scores.withScores)
  | .setSchedule schedule fixedSeed nFuzz =>
    s.onQueue (fun queue => { queue with
      schedule := schedule, fixedSeed := fixedSeed, nFuzz := nFuzz })
  | .nextCycle => s.onQueue (fun queue => { queue with queueCycle := queue.queueCycle + 1 })

def QueueState.start (fsrv : Fsrv) (schedule : Schedule) (fixedSeed aflDisableRedundant : Bool) :
    QueueState :=
  ⟨fsrv, Queue.empty schedule fixedSeed aflDisableRedundant⟩

/-- A step names queued entries, and an entry is rescored at an index only when
its trace hits that index. -/
def QueueStep.Regular (trace : Nat → Buffer) (s : QueueState) : QueueStep → Prop
  | .score q => q < s.queue.queuedItems
  | .rescore q index => q < s.queue.queuedItems ∧ index < s.fsrv.mapSize ∧ trace q index ≠ 0
  | .abandon q _ => q < s.queue.queuedItems
  | _ => True

instance (trace : Nat → Buffer) (s : QueueState) :
    (step : QueueStep) → Decidable (step.Regular trace s)
  | .score _ | .abandon _ _ => inferInstanceAs (Decidable (_ < _))
  | .rescore _ _ => inferInstanceAs (Decidable (_ ∧ _ ∧ _))
  | .add _ | .execute _ | .recalculate | .removeDuplicates | .cull | .tighten _ | .setScores _ _
  | .setSchedule _ _ _ | .nextCycle => inferInstanceAs (Decidable True)

structure ContestFrame (pre post : Queue) : Prop where
  rest : post = { pre with
    queueBuf := post.queueBuf, topRated := post.topRated, scoreChanged := post.scoreChanged }
  entries : ∀ e, post.queueBuf e = { pre.queueBuf e with
    tcRef := (post.queueBuf e).tcRef, traceMini := (post.queueBuf e).traceMini }

variable (fsrv : Fsrv) (execute : Nat → Buffer) (stopSoon : Bool) (q : Nat) (s : QueueState)
  (queue : Queue)

theorem ContestFrame.refl : ContestFrame queue queue := ⟨rfl, fun _ => rfl⟩

theorem ContestFrame.trans {first second third : Queue} (left : ContestFrame first second)
    (right : ContestFrame second third) : ContestFrame first third where
  rest := by rw [right.rest, left.rest]
  entries e := by rw [right.entries e, left.entries e]

theorem ContestFrame.modify (q : Nat) (change : QueueEntry → QueueEntry)
    (entry : change (queue.queueBuf q) = { queue.queueBuf q with
      tcRef := (change (queue.queueBuf q)).tcRef
      traceMini := (change (queue.queueBuf q)).traceMini }) :
    ContestFrame queue (queue.modify q change) where
  rest := rfl
  entries := by
    intro e
    by_cases same : e = q
    · rw [same, Queue.modify_self]
      exact entry
    · rw [Queue.modify_of_ne same]

theorem Queue.crown_frame (miniLen q i : Nat) (queue : Queue) :
    ContestFrame queue (queue.crown fsrv miniLen q i) :=
  (ContestFrame.modify queue q (QueueEntry.enthrone fsrv miniLen) rfl).trans ⟨rfl, fun _ => rfl⟩

theorem Queue.contend_frame (miniLen q : Nat) (fuzzP2 favFactor : BitVec 64) (i : Nat)
    (queue : Queue) : ContestFrame queue (queue.contend fsrv miniLen q fuzzP2 favFactor i) := by
  unfold Queue.contend
  cases queue.topRated i with
  | none => exact Queue.crown_frame _ _ q i _
  | some winner =>
    dsimp only
    split
    · exact ContestFrame.refl _
    · refine ContestFrame.trans ?_ (Queue.crown_frame _ _ q i _)
      apply ContestFrame.modify
      unfold QueueEntry.release
      dsimp only
      split <;> rfl

theorem updateBitmapScore_frame (haveTrace : Bool) (queue : Queue) :
    ContestFrame queue (updateBitmapScore fsrv q haveTrace queue) := by
  unfold updateBitmapScore
  split
  · exact ContestFrame.refl _
  · split
    · apply forUpto_preserves _ _ (ContestFrame _) _ (ContestFrame.refl _)
      intro i _ cur framed
      split
      · exact framed.trans (Queue.contend_frame _ _ _ _ _ _ _)
      · exact framed
    · exact ContestFrame.refl _

theorem updateBitmapRescore_frame (index : Nat) (queue : Queue) :
    ContestFrame queue (updateBitmapRescore fsrv q index queue) := by
  unfold updateBitmapRescore
  split
  · exact ContestFrame.refl _
  · exact Queue.contend_frame _ _ _ _ _ _ _

theorem rescoreCalls_frame (calls : List (Nat × Nat)) :
    ContestFrame queue (runFrom (rescoreCall fsrv) queue calls) := by
  induction calls generalizing queue with
  | nil => exact ContestFrame.refl _
  | cons call rest ih => exact (updateBitmapRescore_frame _ call.1 call.2 _).trans (ih _)

structure CollectFrame (pre post : QueueState) : Prop where
  mapSize : post.fsrv.mapSize = pre.fsrv.mapSize
  rest : post.queue = { pre.queue with
    topRatedCandidates := post.queue.topRatedCandidates
    lastScoredIdx := post.queue.lastScoredIdx }

theorem CollectFrame.trans {first second third : QueueState} (left : CollectFrame first second)
    (right : CollectFrame second third) : CollectFrame first third where
  mapSize := right.mapSize.trans left.mapSize
  rest := by rw [right.rest, left.rest]

theorem collectEntry_frame (i : Nat) (s : QueueState) :
    CollectFrame s (collectEntry execute i s) := by
  unfold collectEntry
  split <;> exact ⟨rfl, rfl⟩

theorem collectCandidates_frame : CollectFrame s (collectCandidates execute s) := by
  apply forUpto_preserves _ _ (CollectFrame _) _ ⟨rfl, rfl⟩
  intro k _ cur framed
  exact framed.trans (collectEntry_frame _ _ _)

structure RecalculateFrame (pre post : Queue) : Prop where
  rest : post = { pre with
    queueBuf := post.queueBuf
    topRated := post.topRated
    scoreChanged := post.scoreChanged
    topRatedCandidates := post.topRatedCandidates
    lastScoredIdx := post.lastScoredIdx }
  entries : ∀ e, post.queueBuf e = { pre.queueBuf e with
    tcRef := (post.queueBuf e).tcRef, traceMini := (post.queueBuf e).traceMini }

theorem CollectFrame.recalculate {pre middle : QueueState} {post : Queue}
    (collected : CollectFrame pre middle) (contests : ContestFrame middle.queue post) :
    RecalculateFrame pre.queue post where
  rest := by rw [contests.rest, collected.rest]
  entries := by
    intro e
    have entries := contests.entries e
    rw [collected.rest] at entries
    exact entries

theorem recalculateAllScores_frame :
    RecalculateFrame s.queue (recalculateAllScores execute s).queue :=
  (collectCandidates_frame execute s).recalculate (rescoreCalls_frame _ _ _)

structure RemovalFrame (pre post : Queue) : Prop where
  rest : post = { pre with
    queueBuf := post.queueBuf
    reinitTable := post.reinitTable
    pendingNotFuzzed := post.pendingNotFuzzed
    activeItems := post.activeItems }
  entries : ∀ e, post.queueBuf e = { pre.queueBuf e with
    wasFuzzed := (post.queueBuf e).wasFuzzed, disabled := (post.queueBuf e).disabled }

theorem RemovalFrame.refl : RemovalFrame queue queue := ⟨rfl, fun _ => rfl⟩

theorem RemovalFrame.trans {first second third : Queue} (left : RemovalFrame first second)
    (right : RemovalFrame second third) : RemovalFrame first third where
  rest := by rw [right.rest, left.rest]
  entries e := by rw [right.entries e, left.entries e]

theorem QueueEntry.enabled_of_comparable {entry : QueueEntry}
    (comparable : entry.comparable = true) :
    entry.disabled = false := by
  unfold QueueEntry.comparable at comparable
  simp only [Bool.and_eq_true, Bool.not_eq_true'] at comparable
  exact comparable.1.1

theorem disableDuplicate_self : ((disableDuplicate q queue).queueBuf q).disabled = true := by
  unfold disableDuplicate
  rw [Queue.modify_self]

theorem disableDuplicate_of_ne {q e : Nat} (other : e ≠ q) (queue : Queue) :
    (disableDuplicate q queue).queueBuf e = queue.queueBuf e := by
  unfold disableDuplicate
  rw [Queue.modify_of_ne other]
  split <;> rfl

theorem disableDuplicate_frame : RemovalFrame queue (disableDuplicate q queue) := by
  have marked : ∀ e, (disableDuplicate q queue).queueBuf e = { queue.queueBuf e with
      wasFuzzed := ((disableDuplicate q queue).queueBuf e).wasFuzzed
      disabled := ((disableDuplicate q queue).queueBuf e).disabled } := by
    intro e
    unfold disableDuplicate
    by_cases same : e = q
    · rw [same, Queue.modify_self]
      split <;> rfl
    · rw [Queue.modify_of_ne same]
      split <;> rfl
  refine ⟨?_, marked⟩
  unfold disableDuplicate
  split <;> rfl

theorem removeDuplicatesOf_frame (others : List Nat) (queue : Queue) :
    RemovalFrame queue (removeDuplicatesOf q others queue) := by
  induction others generalizing queue with
  | nil => exact RemovalFrame.refl _
  | cons p rest ih =>
    unfold removeDuplicatesOf
    split
    · split
      · exact (disableDuplicate_frame p _).trans (ih _)
      · exact disableDuplicate_frame q _
    · exact ih _

theorem removeDuplicates_frame : RemovalFrame queue (removeDuplicates queue) := by
  apply forUpto_preserves _ _ (RemovalFrame _) _ (RemovalFrame.refl _)
  intro idx _ cur framed
  split
  · exact framed.trans (removeDuplicatesOf_frame _ _ _)
  · exact framed

theorem abandonEntry_entries (e : Nat) :
    (abandonEntry stopSoon q queue).queueBuf e = { queue.queueBuf e with
      wasFuzzed := ((abandonEntry stopSoon q queue).queueBuf e).wasFuzzed
      fuzzLevel := ((abandonEntry stopSoon q queue).queueBuf e).fuzzLevel } := by
  have seen : ∀ queue : Queue, (queue.modify q QueueEntry.noteFuzzed).queueBuf e =
      { queue.queueBuf e with
        wasFuzzed := ((queue.modify q QueueEntry.noteFuzzed).queueBuf e).wasFuzzed } := by
    intro queue
    by_cases same : e = q
    · rw [same, Queue.modify_self]
      rfl
    · rw [Queue.modify_of_ne same]
  have levelled : ∀ queue : Queue, (queue.modify q QueueEntry.raiseLevel).queueBuf e =
      { queue.queueBuf e with
        fuzzLevel := ((queue.modify q QueueEntry.raiseLevel).queueBuf e).fuzzLevel } := by
    intro queue
    by_cases same : e = q
    · rw [same, Queue.modify_self]
      rfl
    · rw [Queue.modify_of_ne same]
  unfold abandonEntry
  rw [levelled]
  split
  · split <;> rw [seen _]
  · rfl

theorem abandonEntry_rest :
    abandonEntry stopSoon q queue = { queue with
      queueBuf := (abandonEntry stopSoon q queue).queueBuf
      pendingNotFuzzed := (abandonEntry stopSoon q queue).pendingNotFuzzed
      reinitTable := (abandonEntry stopSoon q queue).reinitTable
      pendingFavored := (abandonEntry stopSoon q queue).pendingFavored
      smallestFavored := (abandonEntry stopSoon q queue).smallestFavored } := by
  unfold abandonEntry Queue.modify
  dsimp only
  split
  · split <;> rfl
  · rfl

theorem abandonEntry_smallest :
    (abandonEntry stopSoon q queue).smallestFavored = queue.smallestFavored ∨
      (abandonEntry stopSoon q queue).smallestFavored = -1 := by
  unfold abandonEntry Queue.modify
  dsimp only
  split
  · split
    · exact .inr rfl
    · exact .inl rfl
  · exact .inl rfl

variable (trace : Nat → Buffer) (s : QueueState)

theorem queueStep_mapSize (step : QueueStep) :
    (queueStep trace s step).fsrv.mapSize = s.fsrv.mapSize := by
  cases step with
  | recalculate => exact (collectCandidates_frame _ _).mapSize
  | _ => rfl

theorem runFrom_mapSize (steps : List QueueStep) :
    (runFrom (queueStep trace) s steps).fsrv.mapSize = s.fsrv.mapSize := by
  induction steps generalizing s with
  | nil => rfl
  | cons step rest ih => exact (ih _).trans (queueStep_mapSize _ _ _)

end AflPlusPlus
