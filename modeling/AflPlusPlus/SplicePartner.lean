/-
Choosing a partner for splicing (`add_to_queue`, the trimming block and the splice
paths of `fuzz_one`).

`ready_for_splicing_count` counts the entries of more than four bytes.  The partner is drawn
from a list of ids that only grows, of the entries that had more than three bytes.
-/

import AflPlusPlus.QueueScore
import Mathlib.Data.List.GetD
import Mathlib.Data.List.Nodup

namespace AflPlusPlus.Splice

open Machine List

/-- The queue and what splicing keeps beside it. -/
structure Splicing where
  queue : Queue
  trimDone : Nat → Bool
  readyForSplicingCount : Nat
  spliceBufIds : List Nat
  currentEntry : Nat

def Splicing.empty : Splicing := ⟨Queue.empty .explore false false, fun _ => false, 0, [], 0⟩

def Splicing.len (s : Splicing) (id : Nat) : Nat := (s.queue.queueBuf id).len.toNat

def Splicing.addToQueue (s : Splicing) (len : BitVec 32) : Splicing :=
  { s with
    queue := AflPlusPlus.addToQueue len s.queue
    readyForSplicingCount :=
      if 4 < len.toNat then s.readyForSplicingCount + 1 else s.readyForSplicingCount
    trimDone := Function.update s.trimDone s.queue.queuedItems false
    spliceBufIds :=
      if 3 < len.toNat then s.spliceBufIds ++ [s.queue.queuedItems]
      else s.spliceBufIds }

def Splicing.cut (s : Splicing) (newLen : BitVec 32) : Splicing :=
  { s with
    queue := s.queue.modify s.currentEntry fun entry => { entry with len := newLen } }

/-- The trimming block.  If the fuzzer is told to stop meanwhile, the entry keeps its
new length and the bookkeeping is skipped. -/
def Splicing.trim (s : Splicing) (newLen : BitVec 32) (stopSoon : Bool) : Splicing :=
  if s.queue.queuedItems ≤ s.currentEntry || s.trimDone s.currentEntry then s
  else if stopSoon then s.cut newLen
  else
    { s.cut newLen with
      trimDone := Function.update s.trimDone s.currentEntry true
      readyForSplicingCount :=
        if newLen.toNat ≤ 4 ∧ 4 < s.len s.currentEntry then
          u32Pred s.readyForSplicingCount
        else s.readyForSplicingCount }

inductive Action where
  | addToQueue (len : BitVec 32)
  | fuzzOne (id : Nat)
  | trim (newLen : BitVec 32) (stopSoon : Bool)
  | disable (id : Nat)

def step (s : Splicing) : Action → Splicing
  | .addToQueue len => s.addToQueue len
  | .fuzzOne id => { s with currentEntry := id }
  | .trim newLen stopSoon => s.trim newLen stopSoon
  | .disable id =>
    { s with queue := s.queue.modify id fun entry => { entry with disabled := true } }

def NeverGrows (s : Splicing) : Action → Prop
  | .trim newLen _ => newLen.toNat ≤ s.len s.currentEntry
  | _ => True

/-- `do { .. } while (..)`, given up after so many rounds -/
def drawAgain (s : Splicing) (raws : Nat → Nat) : Nat → Nat → Option Nat
  | 0, _ => none
  | fuel + 1, round =>
    let tid := randBelow s.queue.queuedItems (raws round)
    if tid = s.currentEntry ∨ s.len tid < 4 then drawAgain s raws fuel (round + 1)
    else some tid

def selectPartner (fuel : Nat) (s : Splicing) (raws : Nat → Nat) : Option Nat :=
  if 1 < s.spliceBufIds.length then
    let tidx := randBelow s.spliceBufIds.length (raws 0)
    let tid := s.spliceBufIds.getD tidx 0
    if tid = s.currentEntry then
      some (s.spliceBufIds.getD ((tidx + 1) % s.spliceBufIds.length) 0)
    else some tid
  else drawAgain s raws fuel 0

def longNow (queue : Queue) : Nat :=
  Nat.count (fun id => 4 < (queue.queueBuf id).len.toNat) queue.queuedItems

structure Kept (s : Splicing) : Prop where
  notBelow : longNow s.queue ≤ s.readyForSplicingCount
  notAbove : s.readyForSplicingCount ≤ s.spliceBufIds.length
  valid : ∀ id ∈ s.spliceBufIds, id < s.queue.queuedItems
  distinct : s.spliceBufIds.Nodup

private theorem kept_empty : Kept Splicing.empty :=
  ⟨Nat.le_refl _, Nat.le_refl _, fun _ mem => absurd mem not_mem_nil, nodup_nil⟩

private theorem longNow_add (queue : Queue) (len : BitVec 32) :
    longNow (addToQueue len queue) = longNow queue + if 4 < len.toNat then 1 else 0 := by
  have older : ∀ id, id < queue.queuedItems →
      (4 < ((addToQueue len queue).queueBuf id).len.toNat ↔ 4 < (queue.queueBuf id).len.toNat) := by
    intro id below
    rw [show (addToQueue len queue).queueBuf id = queue.queueBuf id from
      Function.update_of_ne (Nat.ne_of_lt below) _ _]
  have newest : (addToQueue len queue).queueBuf queue.queuedItems = QueueEntry.added len :=
    Function.update_self _ _ _
  unfold longNow
  rw [show (addToQueue len queue).queuedItems = queue.queuedItems + 1 from rfl, Nat.count_succ,
    count_congr _ older, newest]
  rfl

variable {s : Splicing} (kept : Kept s)

include kept in
theorem Kept.addToQueue (len : BitVec 32) : Kept (s.addToQueue len) := by
  obtain ⟨notBelow, notAbove, valid, distinct⟩ := kept
  have counted := longNow_add s.queue len
  by_cases long : 3 < len.toNat
  · have listed : (s.spliceBufIds ++ [s.queue.queuedItems]).length = s.spliceBufIds.length + 1 := by
      rw [length_append, length_singleton]
    simp only [Splicing.addToQueue, if_pos long]
    refine ⟨?_, ?_, ?_, ?_⟩
    · rw [counted]
      dsimp only
      split <;> omega
    · dsimp only
      split <;> omega
    · intro id mem
      rcases mem_append.mp mem with older | newest
      · exact Nat.lt_succ_of_lt (valid id older)
      · rw [mem_singleton.mp newest]
        exact Nat.lt_succ_self _
    · refine nodup_append.mpr ⟨distinct, nodup_singleton _, ?_⟩
      intro id older other newest
      rw [mem_singleton.mp newest]
      exact Nat.ne_of_lt (valid id older)
  · have shorter : ¬4 < len.toNat := by omega
    simp only [Splicing.addToQueue, if_neg long, if_neg shorter]
    refine ⟨?_, notAbove, fun id mem => Nat.lt_succ_of_lt (valid id mem), distinct⟩
    rw [counted, if_neg shorter]
    exact notBelow

private theorem longNow_modify {queue : Queue} {id : Nat} (inside : id < queue.queuedItems)
    (change : QueueEntry → QueueEntry) :
    longNow (queue.modify id change) + (if 4 < (queue.queueBuf id).len.toNat then 1 else 0) =
      longNow queue + if 4 < (change (queue.queueBuf id)).len.toNat then 1 else 0 :=
  count_update (fun entry : QueueEntry => 4 < entry.len.toNat) queue.queueBuf inside _

private theorem longNow_disable (queue : Queue) (id : Nat) :
    longNow (queue.modify id fun entry => { entry with disabled := true }) = longNow queue := by
  refine count_congr _ (fun other _ => ?_)
  by_cases same : other = id
  · subst same
    rw [Queue.modify_self]
  · rw [Queue.modify_of_ne same]

include kept

theorem Kept.trim (newLen : BitVec 32) (stopSoon : Bool)
    (shrinks : NeverGrows s (.trim newLen stopSoon)) :
    Kept (s.trim newLen stopSoon) := by
  have shorter : newLen.toNat ≤ s.len s.currentEntry := shrinks
  have notBelow := kept.notBelow
  have notAbove := kept.notAbove
  unfold Splicing.trim
  split
  · exact kept
  case isFalse runs =>
    have inside : s.currentEntry < s.queue.queuedItems := by
      rw [Bool.or_eq_true, decide_eq_true_eq] at runs
      omega
    have counted : longNow (s.cut newLen).queue + (if 4 < s.len s.currentEntry then 1 else 0) =
          longNow s.queue + if 4 < newLen.toNat then 1 else 0 :=
      longNow_modify inside fun entry => { entry with len := newLen }
    have cut (fewer : longNow (s.cut newLen).queue ≤ s.readyForSplicingCount) :
        Kept (s.cut newLen) := ⟨fewer, notAbove, kept.valid, kept.distinct⟩
    split
    · exact cut (by split at counted <;> split at counted <;> omega)
    · by_cases crossed : newLen.toNat ≤ 4 ∧ 4 < s.len s.currentEntry
      · rw [if_pos crossed.2, if_neg (Nat.not_lt.mpr crossed.1)] at counted
        -- the entry was counted, so the counter is not zero
        have filled : s.readyForSplicingCount ≠ 0 := by omega
        rw [if_pos crossed, u32Pred, if_neg filled]
        exact ⟨by dsimp only; omega, by dsimp only [Splicing.cut]; omega, kept.valid, kept.distinct⟩
      · rw [if_neg crossed]
        have kept := cut (by split at counted <;> split at counted <;> omega)
        exact ⟨kept.notBelow, kept.notAbove, kept.valid, kept.distinct⟩

theorem Kept.step (act : Action) (shrinks : NeverGrows s act) :
    Kept (step s act) := by
  cases act with
  | addToQueue len => exact kept.addToQueue _
  | fuzzOne id => exact ⟨kept.notBelow, kept.notAbove, kept.valid, kept.distinct⟩
  | trim newLen stopSoon => exact kept.trim _ _ shrinks
  | disable id =>
    exact ⟨(longNow_disable _ _).trans_le kept.notBelow, kept.notAbove, kept.valid, kept.distinct⟩

omit kept

private theorem getD_next_ne {ids : List Nat} (distinct : ids.Nodup) (several : 1 < ids.length)
    {idx : Nat} (inside : idx < ids.length) :
    ids.getD ((idx + 1) % ids.length) 0 ≠ ids.getD idx 0 := by
  have next : (idx + 1) % ids.length < ids.length := Nat.mod_lt _ (by omega)
  rw [getD_eq_getElem _ 0 next, getD_eq_getElem _ 0 inside]
  intro same
  have index_eq := (List.Nodup.getElem_inj_iff distinct).mp same
  by_cases last : idx + 1 = ids.length
  · rw [last, Nat.mod_self] at index_eq
    omega
  · rw [Nat.mod_eq_of_lt (by omega)] at index_eq
    omega

include kept in
private theorem selectPartner_kept (ready : 1 < s.readyForSplicingCount) (raws : Nat → Nat) :
    ∃ tid, selectPartner 0 s raws = some tid ∧ tid < s.queue.queuedItems ∧
      tid ≠ s.currentEntry := by
  have several : 1 < s.spliceBufIds.length := by
    have enough := kept.notAbove
    omega
  have inside : randBelow s.spliceBufIds.length (raws 0) < s.spliceBufIds.length := by
    have drawn := randBelow_le s.spliceBufIds.length (raws 0)
    omega
  have valid (idx : Nat) (below : idx < s.spliceBufIds.length) :
      s.spliceBufIds.getD idx 0 < s.queue.queuedItems := by
    rw [getD_eq_getElem _ 0 below]
    exact kept.valid _ (getElem_mem _)
  unfold selectPartner
  rw [if_pos several]
  dsimp only
  split
  · rename_i cur
    refine ⟨_, rfl, valid _ (Nat.mod_lt _ (by omega)), ?_⟩
    rw [← cur]
    exact getD_next_ne kept.distinct several inside
  · rename_i other
    exact ⟨_, rfl, valid _ inside, other⟩

/-- Whenever more than one entry counts as ready, the partner is chosen at once, without a
single round of the retry loop; it is in the queue and is not the current entry. -/
theorem splice_partner_of_run (acts : List Action)
    (shrinks : Along step NeverGrows Splicing.empty acts)
    (ready : 1 < (runFrom step Splicing.empty acts).readyForSplicingCount) (raws : Nat → Nat) :
    ∃ tid, selectPartner 0 (runFrom step Splicing.empty acts) raws = some tid ∧
      tid < (runFrom step Splicing.empty acts).queue.queuedItems ∧
      tid ≠ (runFrom step Splicing.empty acts).currentEntry :=
  selectPartner_kept
    (runFrom_invariant Kept (fun _ act kept allowed => kept.step act allowed) Splicing.empty
      kept_empty acts shrinks) ready raws

/-- Three entries; the second is trimmed below the limit and stays in the list of ids. -/
def sampleActions : List Action :=
  [.addToQueue 9, .addToQueue 7, .addToQueue 5, .fuzzOne 1, .trim 3 false, .disable 2]

theorem splice_partner_of_sample :
    Along step NeverGrows Splicing.empty sampleActions ∧
      let ready := runFrom step Splicing.empty sampleActions
      1 < ready.readyForSplicingCount ∧ ∃ tid, selectPartner 0 ready (fun _ => 1) = some tid ∧
        tid < ready.queue.queuedItems ∧ tid ≠ ready.currentEntry := by
  have shrinks : Along step NeverGrows Splicing.empty sampleActions := by
    exact ⟨trivial, trivial, trivial, trivial, by unfold NeverGrows; decide, trivial, trivial⟩
  exact ⟨shrinks, by decide, splice_partner_of_run sampleActions shrinks (by decide) _⟩

end AflPlusPlus.Splice
