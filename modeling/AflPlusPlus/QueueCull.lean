/-
Choosing the favored entries.

`cull_queue` resets the favored flags, scans the slots with a table of bytes
not seen yet, and settles which entries are redundant.  The scan is a greedy
cover by the minimised traces of the slot winners; a winner whose minimised
trace is gone is passed over.
-/

import AflPlusPlus.QueueScore
import AflPlusPlus.Machine.GreedyCover

namespace AflPlusPlus

open Machine

def Queue.forEntries (change : QueueEntry → QueueEntry) (queue : Queue) : Queue :=
  forUpto queue.queuedItems (fun i cur => cur.modify i change) queue

/-- `queue_cycle - tightness_novel_cycle >= 3` -/
def QueueEntry.tightnessExpired (queueCycle : BitVec 64) (entry : QueueEntry) : Bool :=
  decide (3 ≤ queueCycle - entry.tightnessNovelCycle.setWidth 64)

def QueueEntry.resetFavored (queueCycle : BitVec 64) (entry : QueueEntry) : QueueEntry :=
  if entry.tightnessNovel && entry.tightnessExpired queueCycle then
    { entry with tightnessNovel := false, tightnessNovelCycle := 0, favored := false }
  else { entry with favored := entry.tightnessNovel }

def QueueEntry.favor (entry : QueueEntry) : QueueEntry := { entry with favored := true }

def Queue.favorWinner (winner : Nat) (queue : Queue) : Queue :=
  let entry := queue.queueBuf winner
  if !entry.favored && !entry.disabled then
    let favored := queue.modify winner QueueEntry.favor
    if entry.wasFuzzed then { favored with queuedFavored := queue.queuedFavored + 1 }
    else { favored with
      queuedFavored := queue.queuedFavored + 1
      pendingFavored := queue.pendingFavored + 1
      smallestFavored :=
        if queue.smallestFavored < 0 ∨ queue.smallestFavored > (winner : Int) then winner
        else queue.smallestFavored }
  else queue

def Queue.clearSeen (len : Nat) (mini : TraceMini) (queue : Queue) : Queue :=
  { queue with mapTmpBuf := removeBits len queue.mapTmpBuf mini.bytes }

def Queue.visitSlot (len i : Nat) (queue : Queue) : Queue :=
  match queue.topRated i with
  | none => queue
  | some winner =>
    if bitAt queue.mapTmpBuf i then
      match (queue.queueBuf winner).traceMini with
      | none => queue
      | some mini => (queue.clearSeen len mini).favorWinner winner
    else queue

def QueueEntry.settle (aflDisableRedundant : Bool) (entry : QueueEntry) : QueueEntry :=
  if entry.disabled then entry else entry.markRedundant aflDisableRedundant (!entry.favored)

def cullStart (fsrv : Fsrv) (queue : Queue) : Queue :=
  { { queue with
        scoreChanged := false
        mapTmpBuf := fun j => if j < fsrv.mapSize / 8 then 255 else queue.mapTmpBuf j
        queuedFavored := 0
        pendingFavored := 0 }.forEntries (QueueEntry.resetFavored queue.queueCycle) with
    smallestFavored := -1 }

def cullScan (fsrv : Fsrv) (bound : Nat) (queue : Queue) : Queue :=
  forUpto bound (fun i cur => cur.visitSlot (fsrv.mapSize / 8) i) queue

def Queue.cullSkipped (queue : Queue) : Bool := !queue.scoreChanged || queue.nonInstrumentedMode

def cullQueue (fsrv : Fsrv) (queue : Queue) : Queue :=
  if queue.cullSkipped then queue
  else
    { (cullScan fsrv fsrv.mapSize (cullStart fsrv queue)).forEntries
        (QueueEntry.settle queue.aflDisableRedundant) with
      reinitTable := true }

variable (change : QueueEntry → QueueEntry)

theorem Queue.forEntries_eq (queue : Queue) :
    queue.forEntries change = { queue with queueBuf := fun i =>
          if i < queue.queuedItems then change (queue.queueBuf i) else queue.queueBuf i } := by
  have prefixes : ∀ bound, forUpto bound (fun i cur => Queue.modify cur i change) queue =
      { queue with queueBuf := fun i =>
          if i < bound then change (queue.queueBuf i) else queue.queueBuf i } := by
    intro bound
    induction bound with
    | zero => simp
    | succ bound ih =>
      rw [forUpto_succ, ih]
      unfold Queue.modify
      congr 1
      funext i
      dsimp only
      by_cases last : i = bound
      · rw [last, Function.update_self, if_neg (Nat.lt_irrefl _), if_pos (Nat.lt_succ_self _)]
      · rw [Function.update_of_ne last]
        by_cases earlier : i < bound
        · rw [if_pos earlier, if_pos (by omega)]
        · rw [if_neg earlier, if_neg (by omega)]
  exact prefixes queue.queuedItems

theorem Queue.forEntries_queueBuf (queue : Queue) (i : Nat) :
    (queue.forEntries change).queueBuf i =
      if i < queue.queuedItems then change (queue.queueBuf i) else queue.queueBuf i := by
  rw [Queue.forEntries_eq]

def QueueEntry.SameButFavored (pre post : QueueEntry) : Prop :=
  post = { pre with favored := post.favored }

structure ScanFrame (pre post : Queue) : Prop where
  rest : post = { pre with
    queueBuf := post.queueBuf
    mapTmpBuf := post.mapTmpBuf
    queuedFavored := post.queuedFavored
    pendingFavored := post.pendingFavored
    smallestFavored := post.smallestFavored }
  entries : ∀ e, (pre.queueBuf e).SameButFavored (post.queueBuf e)

variable (fsrv : Fsrv) (queue : Queue)

theorem ScanFrame.refl : ScanFrame queue queue := ⟨rfl, fun _ => rfl⟩

theorem ScanFrame.trans {first second third : Queue} (left : ScanFrame first second)
    (right : ScanFrame second third) : ScanFrame first third where
  rest := by rw [right.rest, left.rest]
  entries := by
    intro e
    have pre := left.entries e
    have post := right.entries e
    unfold QueueEntry.SameButFavored at pre post ⊢
    rw [post, pre]

variable {pre : Queue} (len : Nat) (queueCycle : BitVec 64) (aflDisableRedundant : Bool)
  {post : Queue} (frame : ScanFrame pre post)

include frame

theorem ScanFrame.queuedItems :
    post.queuedItems = pre.queuedItems := by rw [frame.rest]

theorem ScanFrame.topRated :
    post.topRated = pre.topRated := by rw [frame.rest]

omit frame

variable (e : Nat) (entry : QueueEntry) (i winner : Nat)

private theorem Queue.favorWinner_frame (queue : Queue) :
    ScanFrame queue (queue.favorWinner winner) := by
  have marked : ∀ e, (queue.queueBuf e).SameButFavored
      ((queue.modify winner QueueEntry.favor).queueBuf e) := by
    intro e
    by_cases same : e = winner
    · rw [same, Queue.modify_self]
      rfl
    · rw [Queue.modify_of_ne same]
      rfl
  unfold Queue.favorWinner
  dsimp only
  split
  · split <;> exact ⟨rfl, marked⟩
  · exact ScanFrame.refl _

variable (mini : TraceMini)

private theorem Queue.clearSeen_frame (queue : Queue) :
    ScanFrame queue (queue.clearSeen len mini) := ⟨rfl, fun _ => rfl⟩

theorem Queue.visitSlot_frame (queue : Queue) : ScanFrame queue (queue.visitSlot len i) := by
  unfold Queue.visitSlot
  split
  · exact ScanFrame.refl _
  · split
    · split
      · exact ScanFrame.refl _
      · exact (Queue.clearSeen_frame _ _ _).trans (Queue.favorWinner_frame _ _)
    · exact ScanFrame.refl _

theorem cullScan_frame (bound : Nat) (queue : Queue) :
    ScanFrame queue (cullScan fsrv bound queue) := by
  apply forUpto_preserves _ _ (ScanFrame _) _ (ScanFrame.refl _)
  intro i _ cur framed
  exact framed.trans (Queue.visitSlot_frame _ i _)

/-- What a cull leaves alone: the slots, the candidate lists, the settings. -/
structure CullFrame (pre post : Queue) : Prop where
  rest : post = { pre with
    queueBuf := post.queueBuf
    scoreChanged := post.scoreChanged
    mapTmpBuf := post.mapTmpBuf
    queuedFavored := post.queuedFavored
    pendingFavored := post.pendingFavored
    smallestFavored := post.smallestFavored
    reinitTable := post.reinitTable }

theorem CullFrame.trans {first second third : Queue} (left : CullFrame first second)
    (right : CullFrame second third) : CullFrame first third :=
  ⟨by rw [right.rest, left.rest]⟩

theorem Queue.forEntries_frame (queue : Queue) : CullFrame queue (queue.forEntries change) := by
  rw [Queue.forEntries_eq]
  exact ⟨rfl⟩

theorem cullStart_frame : CullFrame queue (cullStart fsrv queue) :=
  (CullFrame.trans ⟨rfl⟩ (Queue.forEntries_frame _ _)).trans ⟨rfl⟩

theorem cullQueue_frame : CullFrame queue (cullQueue fsrv queue) := by
  have scanned : CullFrame (cullStart fsrv queue)
      (cullScan fsrv fsrv.mapSize (cullStart fsrv queue)) := by
    have rest := (cullScan_frame fsrv fsrv.mapSize (cullStart fsrv queue)).rest
    constructor
    rw [rest]
  unfold cullQueue
  split
  · exact ⟨rfl⟩
  · exact (((cullStart_frame _ _).trans scanned).trans (Queue.forEntries_frame _ _)).trans ⟨rfl⟩

theorem cullStart_topRated :
    (cullStart fsrv queue).topRated = queue.topRated := by rw [(cullStart_frame _ _).rest]

theorem cullStart_queuedItems :
    (cullStart fsrv queue).queuedItems = queue.queuedItems := by
  rw [(cullStart_frame _ _).rest]

theorem cullQueue_topRated :
    (cullQueue fsrv queue).topRated = queue.topRated := by rw [(cullQueue_frame _ _).rest]

theorem cullQueue_queuedItems :
    (cullQueue fsrv queue).queuedItems = queue.queuedItems := by
  rw [(cullQueue_frame _ _).rest]

def Queue.coverOwner (queue : Queue) (i : Nat) : Option (Nat × TraceMini) :=
  match queue.topRated i with
  | none => none
  | some winner =>
    match (queue.queueBuf winner).traceMini with
    | none => none
    | some mini => some (winner, mini)

def coverBits (item : Nat × TraceMini) (i : Nat) : Bool := bitAt item.2.bytes i

include frame

private theorem ScanFrame.coverOwner (i : Nat) :
    post.coverOwner i = pre.coverOwner i := by
  unfold Queue.coverOwner
  rw [frame.topRated]
  cases pre.topRated i with
  | none => rfl
  | some winner =>
    have same := frame.entries winner
    dsimp only
    rw [same]

theorem ScanFrame.disabled (e : Nat) :
    (post.queueBuf e).disabled = (pre.queueBuf e).disabled := by
  have same := frame.entries e
  rw [same]

omit frame

theorem Queue.coverOwner_eq_some_iff :
    queue.coverOwner i = some (winner, mini) ↔
      queue.topRated i = some winner ∧ (queue.queueBuf winner).traceMini = some mini := by
  unfold Queue.coverOwner
  cases queue.topRated i with
  | none => simp
  | some holder =>
    dsimp only
    cases present : (queue.queueBuf holder).traceMini with
    | none =>
      constructor
      · intro bad
        cases bad
      · intro both
        rw [← Option.some.inj both.1, present] at both
        cases both.2
    | some kept =>
      constructor
      · intro same
        cases same
        exact ⟨rfl, present⟩
      · intro both
        obtain ⟨same, here⟩ := both
        cases same
        rw [present] at here
        cases here
        rfl

private theorem Queue.favorWinner_mapTmpBuf (queue : Queue) :
    (queue.favorWinner winner).mapTmpBuf = queue.mapTmpBuf := by
  unfold Queue.favorWinner
  dsimp only
  split
  · split <;> rfl
  · rfl

theorem Queue.favorWinner_favored_iff (queue : Queue) (e : Nat) :
    ((queue.favorWinner winner).queueBuf e).favored = true ↔ (queue.queueBuf e).favored = true ∨
        e = winner ∧ (queue.queueBuf e).disabled = false := by
  have marked : ((queue.modify winner QueueEntry.favor).queueBuf
      e).favored = true ↔ (queue.queueBuf e).favored = true ∨ e = winner := by
    by_cases same : e = winner
    · rw [same, Queue.modify_self]
      exact ⟨fun _ => .inr rfl, fun _ => rfl⟩
    · rw [Queue.modify_of_ne same]
      simp [same]
  unfold Queue.favorWinner
  dsimp only
  split
  · rename_i eligible
    rw [Bool.and_eq_true, Bool.not_eq_true', Bool.not_eq_true'] at eligible
    have enabled : e = winner → (queue.queueBuf e).disabled = false := by
      intro same
      rw [same]
      exact eligible.2
    have both : e = winner ∧ (queue.queueBuf e).disabled = false ↔ e = winner :=
      ⟨And.left, fun same => ⟨same, enabled same⟩⟩
    rw [both]
    split <;> exact marked
  · rename_i ineligible
    constructor
    · exact .inl
    · intro either
      rcases either with already | chosen
      · exact already
      · obtain ⟨same, enabled⟩ := chosen
        subst same
        simpa [enabled] using ineligible

private theorem Queue.visitSlot_step (queue : Queue) :
    (∀ k, k / 8 < len → bitAt (queue.visitSlot len i).mapTmpBuf k =
      (bitAt queue.mapTmpBuf k && !(bitAt queue.mapTmpBuf i &&
        (queue.coverOwner i).any (fun item => coverBits item k)))) ∧
    ∀ e, ((queue.visitSlot len i).queueBuf e).favored = true ↔
      (queue.queueBuf e).favored = true ∨ (queue.queueBuf e).disabled = false ∧
        bitAt queue.mapTmpBuf i = true ∧ ∃ mini, queue.coverOwner i = some (e, mini) := by
  unfold Queue.visitSlot Queue.coverOwner
  cases queue.topRated i with
  | none => simp
  | some winner =>
    dsimp only
    by_cases unseen : bitAt queue.mapTmpBuf i = true
    · rw [if_pos unseen]
      cases present : (queue.queueBuf winner).traceMini with
      | none => simp
      | some mini =>
        constructor
        · intro k inside
          rw [Queue.favorWinner_mapTmpBuf, unseen]
          exact bitAt_removeBits k inside
        · intro e
          rw [Queue.favorWinner_favored_iff]
          constructor
          · intro either
            rcases either with already | chosen
            · exact .inl already
            · exact .inr ⟨chosen.2, unseen, mini, by rw [chosen.1]⟩
          · intro either
            rcases either with already | chosen
            · exact .inl already
            · obtain ⟨enabled, _, _, same⟩ := chosen
              cases same
              exact .inr ⟨rfl, enabled⟩
    · simp [unseen]

theorem cullScan_refines (aligned : 8 ∣ fsrv.mapSize) (queue : Queue)
    (allUnseen : ∀ i, i < fsrv.mapSize → bitAt queue.mapTmpBuf i = true) (bound : Nat)
    (within : bound ≤ fsrv.mapSize) :
    (∀ i, i < fsrv.mapSize → bitAt (cullScan fsrv bound queue).mapTmpBuf i =
      GreedyCover.uncovered queue.coverOwner coverBits bound i) ∧
    ∀ e, ((cullScan fsrv bound queue).queueBuf e).favored = true ↔
      (queue.queueBuf e).favored = true ∨ (queue.queueBuf e).disabled = false ∧
        ∃ mini, GreedyCover.Taken queue.coverOwner coverBits bound (e, mini) := by
  induction bound with
  | zero =>
    refine ⟨allUnseen, ?_⟩
    intro e
    constructor
    · exact .inl
    · intro either
      rcases either with already | chosen
      · exact already
      · obtain ⟨_, _, i, _, _⟩ := chosen
        omega
  | succ bound ih =>
    obtain ⟨table, flags⟩ := ih (by omega)
    have frame := cullScan_frame fsrv bound queue
    have step := Queue.visitSlot_step (fsrv.mapSize / 8) bound (cullScan fsrv bound queue)
    rw [frame.coverOwner] at step
    constructor
    · intro i inside
      have written := step.1 i (by omega)
      rw [table i inside, table _ (by omega)] at written
      exact written
    · intro e
      have marked := step.2 e
      rw [flags e, frame.disabled, table _ (by omega)] at marked
      refine marked.trans ?_
      constructor
      · intro either
        rcases either with (already | ⟨enabled, mini, taken⟩) | ⟨enabled, unseen, mini, owned⟩
        · exact .inl already
        · exact .inr ⟨enabled, mini, (GreedyCover.Taken.succ_iff _ (e, mini)).2 (.inl taken)⟩
        · exact .inr ⟨enabled, mini,
            (GreedyCover.Taken.succ_iff _ (e, mini)).2 (.inr ⟨owned, unseen⟩)⟩
      · intro either
        rcases either with already | ⟨enabled, mini, taken⟩
        · exact .inl (.inl already)
        · rcases (GreedyCover.Taken.succ_iff bound (e, mini)).1 taken with earlier | now
          · exact .inl (.inr ⟨enabled, mini, earlier⟩)
          · exact .inr ⟨enabled, now.2, mini, now.1⟩

/-- The tightness mark keeps the entry favored through this cull. -/
def QueueEntry.tightlyFavored (queueCycle : BitVec 64) (entry : QueueEntry) : Bool :=
  entry.tightnessNovel && !entry.tightnessExpired queueCycle

theorem QueueEntry.resetFavored_favored :
    (entry.resetFavored queueCycle).favored = entry.tightlyFavored queueCycle := by
  unfold QueueEntry.resetFavored QueueEntry.tightlyFavored
  cases entry.tightnessNovel <;> cases entry.tightnessExpired queueCycle <;> rfl

theorem QueueEntry.resetFavored_traceMini :
    (entry.resetFavored queueCycle).traceMini = entry.traceMini := by
  unfold QueueEntry.resetFavored
  split <;> rfl

private theorem QueueEntry.resetFavored_disabled :
    (entry.resetFavored queueCycle).disabled = entry.disabled := by
  unfold QueueEntry.resetFavored
  split <;> rfl

private theorem QueueEntry.markRedundant_favored (s : Bool) (entry : QueueEntry) :
    (entry.markRedundant aflDisableRedundant s).favored = entry.favored := by
  unfold QueueEntry.markRedundant
  split <;> rfl

theorem QueueEntry.settle_favored : (entry.settle aflDisableRedundant).favored = entry.favored := by
  unfold QueueEntry.settle
  split
  · rfl
  · exact QueueEntry.markRedundant_favored _ _ _

theorem QueueEntry.settle_disabled_of_favored (favored : entry.favored = true) :
    (entry.settle aflDisableRedundant).disabled = entry.disabled := by
  unfold QueueEntry.settle QueueEntry.markRedundant
  rw [favored]
  split
  · rfl
  · split
    · rfl
    · simp

theorem cullStart_queueBuf :
    (cullStart fsrv queue).queueBuf e =
      if e < queue.queuedItems then (queue.queueBuf e).resetFavored queue.queueCycle
      else queue.queueBuf e := Queue.forEntries_queueBuf _ _ e

theorem cullStart_disabled :
    ((cullStart fsrv queue).queueBuf e).disabled = (queue.queueBuf e).disabled := by
  rw [cullStart_queueBuf]
  split
  · exact QueueEntry.resetFavored_disabled _ _
  · rfl

theorem cullStart_coverOwner :
    (cullStart fsrv queue).coverOwner = queue.coverOwner := by
  have minis : ∀ e, ((cullStart fsrv queue).queueBuf e).traceMini =
      (queue.queueBuf e).traceMini := by
    intro e
    rw [cullStart_queueBuf]
    split
    · exact QueueEntry.resetFavored_traceMini _ _
    · rfl
  funext i
  unfold Queue.coverOwner
  rw [cullStart_topRated]
  cases queue.topRated i with
  | none => rfl
  | some winner =>
    dsimp only
    rw [minis _]

theorem cullStart_unseen (aligned : 8 ∣ fsrv.mapSize) (queue : Queue) (i : Nat)
    (within : i < fsrv.mapSize) : bitAt (cullStart fsrv queue).mapTmpBuf i = true := by
  have table : (cullStart fsrv queue).mapTmpBuf =
      fun j => if j < fsrv.mapSize / 8 then 255 else queue.mapTmpBuf j := by
    unfold cullStart
    rw [Queue.forEntries_eq]
  have ones : ∀ bit, bit < 8 → (255 : Byte).getLsbD bit = true := by decide
  unfold bitAt
  rw [table]
  dsimp only
  rw [if_pos (by omega)]
  exact ones _ (Nat.mod_lt i (by decide))

theorem cullQueue_queueBuf (ran : queue.cullSkipped = false) (e : Nat) :
    (cullQueue fsrv queue).queueBuf e =
      if e < queue.queuedItems then
        ((cullScan fsrv fsrv.mapSize (cullStart fsrv queue)).queueBuf e).settle
          queue.aflDisableRedundant
      else (cullScan fsrv fsrv.mapSize (cullStart fsrv queue)).queueBuf e := by
  have items := (cullScan_frame fsrv fsrv.mapSize (cullStart fsrv queue)).queuedItems
  rw [cullStart_queuedItems] at items
  unfold cullQueue
  rw [ran, if_neg Bool.false_ne_true]
  rw [Queue.forEntries_queueBuf, items]

theorem cullQueue_favored_iff (aligned : 8 ∣ fsrv.mapSize) (queue : Queue)
    (ran : queue.cullSkipped = false) (e : Nat) (queued : e < queue.queuedItems) :
    ((cullQueue fsrv queue).queueBuf e).favored = true ↔
      (queue.queueBuf e).tightlyFavored queue.queueCycle = true ∨
        (queue.queueBuf e).disabled = false ∧
          ∃ mini, GreedyCover.Taken queue.coverOwner coverBits fsrv.mapSize (e, mini) := by
  have scanned := (cullScan_refines _ aligned (cullStart _ _)
    (cullStart_unseen _ aligned queue) fsrv.mapSize (Nat.le_refl _)).2 e
  rw [cullStart_coverOwner, cullStart_disabled, cullStart_queueBuf, if_pos queued,
    QueueEntry.resetFavored_favored] at scanned
  rw [cullQueue_queueBuf _ _ ran, if_pos queued, QueueEntry.settle_favored]
  exact scanned

theorem cullQueue_disabled_of_favored
    (ran : queue.cullSkipped = false) (e : Nat) (queued : e < queue.queuedItems)
    (favored : ((cullQueue fsrv queue).queueBuf e).favored = true) :
    ((cullQueue fsrv queue).queueBuf e).disabled = (queue.queueBuf e).disabled := by
  rw [cullQueue_queueBuf _ _ ran, if_pos queued] at favored ⊢
  rw [QueueEntry.settle_favored] at favored
  rw [QueueEntry.settle_disabled_of_favored _ _ favored,
    (cullScan_frame _ fsrv.mapSize (cullStart _ _)).disabled, cullStart_disabled]

private theorem QueueEntry.markRedundant_traceMini (s : Bool) (entry : QueueEntry)
    (mini : TraceMini)
    (kept : (entry.markRedundant aflDisableRedundant s).traceMini = some mini) :
    entry.traceMini = some mini := by
  unfold QueueEntry.markRedundant at kept
  split at kept
  · exact kept
  · cases s with
    | false => exact kept
    | true => cases kept

theorem cullQueue_traceMini (kept : ((cullQueue fsrv queue).queueBuf e).traceMini = some mini) :
    (queue.queueBuf e).traceMini = some mini := by
  have scanned : ((cullScan fsrv fsrv.mapSize (cullStart fsrv queue)).queueBuf e).traceMini =
      (queue.queueBuf e).traceMini := by
    have same := (cullScan_frame fsrv fsrv.mapSize (cullStart fsrv queue)).entries e
    rw [same, cullStart_queueBuf]
    split
    · exact QueueEntry.resetFavored_traceMini _ _
    · rfl
  by_cases skipped : queue.cullSkipped = true
  · unfold cullQueue at kept
    rw [if_pos skipped] at kept
    exact kept
  · rw [cullQueue_queueBuf _ _ (Bool.eq_false_of_not_eq_true skipped)] at kept
    rw [← scanned]
    split at kept
    · unfold QueueEntry.settle at kept
      split at kept
      · exact kept
      · exact QueueEntry.markRedundant_traceMini _ _ _ _ kept
    · exact kept

/-- Of an entry, a cull touches the marks it hands out and the minimised trace. -/
def QueueEntry.CullKeeps (pre post : QueueEntry) : Prop :=
  post = { pre with
    favored := post.favored
    tightnessNovel := post.tightnessNovel
    tightnessNovelCycle := post.tightnessNovelCycle
    fsRedundant := post.fsRedundant
    disabled := post.disabled
    traceMini := post.traceMini }

private theorem QueueEntry.CullKeeps.trans {first second third : QueueEntry}
    (left : first.CullKeeps second) (right : second.CullKeeps third) : first.CullKeeps third := by
  rw [left] at right
  exact right

private theorem QueueEntry.resetFavored_keeps :
    entry.CullKeeps (entry.resetFavored queueCycle) := by
  unfold QueueEntry.resetFavored
  split <;> rfl

private theorem QueueEntry.settle_keeps : entry.CullKeeps (entry.settle aflDisableRedundant) := by
  unfold QueueEntry.settle QueueEntry.markRedundant
  split
  · rfl
  · split <;> rfl

theorem cullQueue_entries : (queue.queueBuf e).CullKeeps ((cullQueue fsrv queue).queueBuf e) := by
  have started : (queue.queueBuf e).CullKeeps ((cullStart fsrv queue).queueBuf e) := by
    rw [cullStart_queueBuf]
    split
    · exact QueueEntry.resetFavored_keeps _ _
    · rfl
  have scanned : (queue.queueBuf e).CullKeeps
      ((cullScan fsrv fsrv.mapSize (cullStart fsrv queue)).queueBuf e) := by
    refine started.trans ?_
    have same := (cullScan_frame fsrv fsrv.mapSize (cullStart fsrv queue)).entries e
    rw [same]
    rfl
  by_cases skipped : queue.cullSkipped = true
  · unfold cullQueue
    rw [if_pos skipped]
    rfl
  · rw [cullQueue_queueBuf _ _ (Bool.eq_false_of_not_eq_true skipped)]
    split
    · exact scanned.trans (QueueEntry.settle_keeps _ _)
    · exact scanned

private theorem Queue.visitSlot_smallest (queue : Queue) (q : Nat)
    (named : (queue.visitSlot len i).smallestFavored = (q : Int)) :
    queue.smallestFavored = (q : Int) ∨ queue.topRated i = some q := by
  unfold Queue.visitSlot at named
  cases held : queue.topRated i with
  | none =>
    rw [held] at named
    exact .inl named
  | some winner =>
    rw [held] at named
    dsimp only at named
    split at named
    · cases mini : (queue.queueBuf winner).traceMini with
      | none =>
        rw [mini] at named
        exact .inl named
      | some kept =>
        rw [mini] at named
        unfold Queue.favorWinner at named
        dsimp only at named
        split at named
        · split at named
          · exact .inl named
          · split at named
            · exact .inr (congrArg _ (Int.ofNat.inj named))
            · exact .inl named
        · exact .inl named
    · exact .inl named

theorem cullQueue_smallest (q : Nat) (named : (cullQueue fsrv queue).smallestFavored = (q : Int)) :
    queue.smallestFavored = (q : Int) ∨ ∃ i, queue.topRated i = some q := by
  have scanned : ScanFrame (cullStart fsrv queue)
        (cullScan fsrv fsrv.mapSize (cullStart fsrv queue)) ∧
      ((cullScan fsrv fsrv.mapSize (cullStart fsrv queue)).smallestFavored = (q : Int) →
        ∃ i, queue.topRated i = some q) := by
    apply forUpto_preserves _ _ (fun cur => ScanFrame (cullStart _ _) cur ∧
      (cur.smallestFavored = (q : Int) → ∃ i, queue.topRated i = some q))
    · refine ⟨ScanFrame.refl _, ?_⟩
      intro bad
      cases bad
    · intro i _ cur ongoing
      refine ⟨ongoing.1.trans (Queue.visitSlot_frame _ i _), ?_⟩
      intro here
      rcases Queue.visitSlot_smallest _ i _ q here with earlier | held
      · exact ongoing.2 earlier
      · rw [ongoing.1.topRated, cullStart_topRated] at held
        exact ⟨i, held⟩
  unfold cullQueue at named
  split at named
  · exact .inl named
  · rw [Queue.forEntries_eq] at named
    exact .inr (scanned.2 named)

end AflPlusPlus
