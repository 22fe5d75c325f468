/-
Reference counts along whole runs of the queue.

Scoring keeps `tc_ref` equal to the number of slots an entry holds.  The other
steps of a campaign touch neither the slots nor the counts, except that adding
an entry clears the place it takes, which no slot can name yet.
-/

import AflPlusPlus.QueueCover
import AflPlusPlus.QueueTraceMini

namespace AflPlusPlus

open Machine

/-- The counts are right, and every minimised trace has the size of the map. -/
structure Referenced (mapSize : Nat) (queue : Queue) : Prop where
  counts : RefCounts mapSize queue
  sized : ∀ q mini, (queue.queueBuf q).traceMini = some mini → mini.len = mapSize / 8

variable {fsrv : Fsrv}

section Steps

variable {mapSize : Nat} {pre post : Queue}

section

variable (referenced : Referenced mapSize pre)
include referenced

theorem Referenced.of_kept (slots : post.topRated = pre.topRated)
    (refs : ∀ e, (post.queueBuf e).tcRef = (pre.queueBuf e).tcRef)
    (minis : ∀ e mini, (post.queueBuf e).traceMini = some mini →
      (pre.queueBuf e).traceMini = some mini) :
    Referenced mapSize post where
  counts := by
    constructor
    · intro e
      rw [refs, slots]
      exact referenced.counts.owned e
    · intro e unreferenced
      rw [refs] at unreferenced
      have absent := referenced.counts.unowned e unreferenced
      cases present : (post.queueBuf e).traceMini with
      | none => rfl
      | some mini =>
        rw [minis e _ present] at absent
        cases absent
  sized := by
    intro e mini present
    exact referenced.sized e _ (minis e _ present)

theorem Referenced.modify (q : Nat) (change : QueueEntry → QueueEntry)
    (sameRef : ∀ entry, (change entry).tcRef = entry.tcRef)
    (sameMini : ∀ entry, (change entry).traceMini = entry.traceMini) :
    Referenced mapSize (pre.modify q change) := by
  apply referenced.of_kept
  · rfl
  · intro e
    by_cases same : e = q
    · rw [same, Queue.modify_self, sameRef]
    · rw [Queue.modify_of_ne same]
  · intro e mini present
    by_cases same : e = q
    · rw [same, Queue.modify_self, sameMini] at present
      rw [same]
      exact present
    · rw [Queue.modify_of_ne same] at present
      exact present

theorem Referenced.addToQueue
    (queued : ∀ i winner, pre.topRated i = some winner → winner < pre.queuedItems)
    (len : BitVec 32) : Referenced mapSize (addToQueue len pre) := by
  have unnamed : (pre.queueBuf pre.queuedItems).tcRef = 0 := by
    rw [referenced.counts.owned, Nat.count_iff_forall_not]
    intro i _ held
    exact Nat.lt_irrefl _ (queued i _ held)
  have cleared : RefCounts mapSize (pre.modify pre.queuedItems (fun _ => QueueEntry.added len)) :=
    referenced.counts.modify _ _ unnamed.symm (fun _ => rfl)
  constructor
  · exact ⟨cleared.owned, cleared.unowned⟩
  · intro q mini present
    change ((pre.modify pre.queuedItems (fun _ => QueueEntry.added len)).queueBuf q).traceMini
      = some mini at present
    by_cases same : q = pre.queuedItems
    · rw [same, Queue.modify_self] at present
      cases present
    · rw [Queue.modify_of_ne same] at present
      exact referenced.sized q _ present

theorem Referenced.contend (small : mapSize < 2 ^ 32) (fsrv : Fsrv) {miniLen : Nat}
    (fits : miniLen = mapSize / 8) (q : Nat) (fuzzP2 favFactor : BitVec 64) {i : Nat}
    (inside : i < mapSize) :
    Referenced mapSize (pre.contend fsrv miniLen q fuzzP2 favFactor i) where
  counts := referenced.counts.contend small fsrv miniLen q fuzzP2 favFactor inside
  sized := by
    intro e mini present
    rcases Queue.contend_traceMini fsrv miniLen q fuzzP2 favFactor i pre e mini present with
      old | ⟨_, _, _, built⟩
    · exact referenced.sized e _ old
    · rw [built]
      exact fits

end

theorem Referenced.updateBitmapScore {fsrv : Fsrv} (referenced : Referenced fsrv.mapSize pre)
    (small : fsrv.mapSize < 2 ^ 32) (aligned : 8 ∣ fsrv.mapSize) (q : Nat) (haveTrace : Bool) :
    Referenced fsrv.mapSize (updateBitmapScore fsrv q haveTrace pre) := by
  unfold AflPlusPlus.updateBitmapScore
  split
  · exact referenced
  · split
    · apply forUpto_preserves _ _ (Referenced fsrv.mapSize) _ referenced
      intro i below cur ongoing
      split
      · exact ongoing.contend small _ (by omega) q _ _ below
      · exact ongoing
    · exact referenced

theorem Referenced.updateBitmapRescore
    (referenced : Referenced fsrv.mapSize pre) (small : fsrv.mapSize < 2 ^ 32) (q : Nat)
    {idx : Nat} (inside : idx < fsrv.mapSize) :
    Referenced fsrv.mapSize (updateBitmapRescore fsrv q idx pre) := by
  unfold AflPlusPlus.updateBitmapRescore
  split
  · exact referenced
  · exact referenced.contend small _ rfl q _ _ inside

end Steps

theorem rescoreCalls_inside (mapSize : Nat) (queue : Queue) (call : Nat × Nat)
    (mem : call ∈ rescoreCalls mapSize queue) : call.2 < mapSize := by
  unfold rescoreCalls at mem
  rw [List.mem_flatMap] at mem
  obtain ⟨i, inside, mem⟩ := mem
  rw [List.mem_range] at inside
  split at mem
  · cases mem
  · rw [List.mem_map] at mem
    obtain ⟨_, _, rfl⟩ := mem
    exact inside

theorem Referenced.rescoreCalls {queue : Queue}
    (referenced : Referenced fsrv.mapSize queue) (small : fsrv.mapSize < 2 ^ 32)
    (calls : List (Nat × Nat)) (inside : ∀ call ∈ calls, call.2 < fsrv.mapSize) :
    Referenced fsrv.mapSize (runFrom (rescoreCall fsrv) queue calls) := by
  induction calls generalizing queue with
  | nil => exact referenced
  | cons call rest ih =>
    apply ih
    · exact referenced.updateBitmapRescore small call.1 (inside _ List.mem_cons_self)
    · exact fun later mem => inside _ (List.mem_cons_of_mem _ mem)

variable {trace : Nat → Buffer} (s : QueueState) (referenced : Referenced s.fsrv.mapSize s.queue)

include referenced

theorem Referenced.recalculate (small : s.fsrv.mapSize < 2 ^ 32) :
    Referenced s.fsrv.mapSize (recalculateAllScores trace s).queue := by
  have frame := collectCandidates_frame trace s
  have collected : Referenced (collectCandidates trace s).fsrv.mapSize
      (collectCandidates trace s).queue := by
    rw [frame.mapSize, frame.rest]
    exact ⟨⟨referenced.counts.owned, referenced.counts.unowned⟩, referenced.sized⟩
  have rescored := collected.rescoreCalls (by rw [frame.mapSize]; exact small)
    (AflPlusPlus.rescoreCalls (collectCandidates _ _).fsrv.mapSize
      (collectCandidates trace s).queue) (rescoreCalls_inside _ _)
  rw [← frame.mapSize]
  exact rescored

theorem Referenced.step (step : QueueStep)
    (hit : WinnersHit trace s.queue) (small : s.fsrv.mapSize < 2 ^ 32)
    (aligned : 8 ∣ s.fsrv.mapSize) (regular : step.Regular trace s) :
    Referenced s.fsrv.mapSize (queueStep trace s step).queue := by
  cases step with
  | add len => exact referenced.addToQueue (fun i winner held => (hit.winners i _ held).1) _
  | execute q => exact referenced
  | score q =>
    exact @Referenced.updateBitmapScore _ (s.executed (trace q)).fsrv referenced small aligned q _
  | rescore q idx => exact referenced.updateBitmapRescore small q regular.2.1
  | recalculate => exact referenced.recalculate _ small
  | removeDuplicates =>
    have frame := removeDuplicates_frame s.queue
    apply referenced.of_kept
    · change (removeDuplicates s.queue).topRated = _
      rw [frame.rest]
    · intro e
      change ((removeDuplicates s.queue).queueBuf e).tcRef = _
      rw [frame.entries e]
    · intro e mini present
      change ((removeDuplicates s.queue).queueBuf e).traceMini = some mini at present
      rw [frame.entries e] at present
      exact present
  | cull =>
    apply referenced.of_kept
    · exact cullQueue_topRated s.fsrv s.queue
    · intro e
      change ((cullQueue s.fsrv s.queue).queueBuf e).tcRef = _
      rw [cullQueue_entries s.fsrv s.queue e]
    · exact cullQueue_traceMini s.fsrv s.queue
  | abandon q stopSoon =>
    apply referenced.of_kept
    · change (abandonEntry stopSoon q s.queue).topRated = _
      rw [abandonEntry_rest]
    · intro e
      change ((abandonEntry stopSoon q s.queue).queueBuf e).tcRef = _
      rw [abandonEntry_entries]
    · intro e mini present
      change ((abandonEntry stopSoon q s.queue).queueBuf e).traceMini = some mini at present
      rw [abandonEntry_entries] at present
      exact present
  | tighten q =>
    change Referenced _ (stampTightness q s.queue)
    exact referenced.modify q _ (fun _ => rfl) (fun _ => rfl)
  | setScores q scores =>
    change Referenced _ (s.queue.modify q scores.withScores)
    -- `withScores` keeps the bookkeeping fields of the entry it replaces.
    exact referenced.modify q _ (fun _ => rfl) (fun _ => rfl)
  | setSchedule schedule fixedSeed nFuzz =>
    exact ⟨⟨referenced.counts.owned, referenced.counts.unowned⟩, referenced.sized⟩
  | nextCycle => exact ⟨⟨referenced.counts.owned, referenced.counts.unowned⟩, referenced.sized⟩

omit referenced

/-- The map a run is about: a `u32` size that is a multiple of eight. -/
structure Fsrv.Whole (fsrv : Fsrv) : Prop where
  small : fsrv.mapSize < 2 ^ 32
  aligned : 8 ∣ fsrv.mapSize

structure SlotsKept (trace : Nat → Buffer) (s : QueueState) : Prop where
  whole : s.fsrv.Whole
  hit : WinnersHit trace s.queue
  referenced : Referenced s.fsrv.mapSize s.queue

theorem SlotsKept.step (step : QueueStep) (kept : SlotsKept trace s)
    (regular : step.Regular trace s) : SlotsKept trace (queueStep trace s step) := by
  have size := queueStep_mapSize trace s step
  refine ⟨⟨?_, ?_⟩, kept.hit.step _ _ regular, ?_⟩
  · rw [size]
    exact kept.whole.small
  · rw [size]
    exact kept.whole.aligned
  · rw [size]
    exact kept.referenced.step _ _ kept.hit kept.whole.small kept.whole.aligned regular

theorem SlotsKept.run (trace : Nat → Buffer) (fsrv : Fsrv) (whole : fsrv.Whole)
    (schedule : Schedule) (fixedSeed aflDisableRedundant : Bool) (steps : List QueueStep)
    (regular : Along (queueStep trace) (fun s step => step.Regular trace s)
      (QueueState.start fsrv schedule fixedSeed aflDisableRedundant) steps) :
    SlotsKept trace (runFrom (queueStep trace)
      (QueueState.start fsrv schedule fixedSeed aflDisableRedundant) steps) := by
  have start : SlotsKept trace (QueueState.start fsrv schedule fixedSeed aflDisableRedundant) := by
    refine ⟨whole, ⟨nofun, nofun⟩, ⟨⟨?_, fun _ _ => rfl⟩, nofun⟩⟩
    intro q
    symm
    change Nat.count (fun _ => none = some q) fsrv.mapSize = 0
    rw [Nat.count_iff_forall_not]
    exact nofun
  exact runFrom_invariant (SlotsKept _) SlotsKept.step _ start _ regular

end AflPlusPlus
