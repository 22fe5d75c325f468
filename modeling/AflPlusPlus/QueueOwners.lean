/-
Who can own a slot.

A contest leaves a slot to its holder or gives it to the contender, and the
candidates of an index are the entries that were nominated for it.  So a
property of pairs of entry and index that holds for every contender holds for
every winner and every candidate.
-/

import AflPlusPlus.QueueRun

namespace AflPlusPlus

open Machine Function

def ListedIn (allowed : Nat → Nat → Prop) (lists : Nat → Option Candidates) : Prop :=
  ∀ i list, lists i = some list → ∀ id, id ∈ list.ids → allowed id i

structure Queue.OwnersIn (queue : Queue) (allowed : Nat → Nat → Prop) : Prop where
  winners : ∀ i winner, queue.topRated i = some winner → allowed winner i
  candidates : ListedIn allowed queue.topRatedCandidates

/-- The next `recalculate_all_scores` runs this entry and nominates it. -/
def Queue.Unscored (queue : Queue) (id : Nat) : Prop :=
  queue.lastScoredIdx < (id : Int) ∧ id < queue.queuedItems ∧ (queue.queueBuf id).disabled = false

variable {queue : Queue}

private theorem Queue.contend_topRated {fsrv : Fsrv} {miniLen q : Nat}
    {fuzzP2 favFactor : BitVec 64}
    {i : Nat} {k winner : Nat}
    (held : (queue.contend fsrv miniLen q fuzzP2 favFactor i).topRated k = some winner) :
    queue.topRated k = some winner ∨ k = i ∧ winner = q := by
  have crowned : ∀ cur : Queue, cur.topRated = queue.topRated →
      (cur.crown fsrv miniLen q i).topRated k = some winner →
      queue.topRated k = some winner ∨ k = i ∧ winner = q := by
    intro cur same here
    change update cur.topRated i (some q) k = some _ at here
    rw [same] at here
    by_cases slot : k = i
    · rw [slot, update_self] at here
      exact .inr ⟨slot, (Option.some.inj here).symm⟩
    · rw [update_of_ne slot] at here
      exact .inl here
  unfold Queue.contend at held
  cases present : queue.topRated i with
  | none =>
    rw [present] at held
    exact crowned _ rfl held
  | some holder =>
    rw [present] at held
    dsimp only at held
    split at held
    · exact .inl held
    · exact crowned (queue.modify _ QueueEntry.release) rfl held

theorem mem_rescoreCalls {mapSize : Nat} {call : Nat × Nat}
    (mem : call ∈ rescoreCalls mapSize queue) :
    ∃ list, queue.topRatedCandidates call.2 = some list ∧ call.1 ∈ list.ids := by
  obtain ⟨i, _, here⟩ := List.mem_flatMap.1 mem
  cases present : queue.topRatedCandidates i with
  | none =>
    rw [present] at here
    cases here
  | some list =>
    rw [present] at here
    obtain ⟨_, listed, same⟩ := List.mem_map.1 here
    rw [← same]
    exact ⟨list, present, listed⟩

private theorem Candidates.mem_append {id mem : Nat} {old : Option Candidates}
    (listed : mem ∈ (Candidates.append id old).ids) :
    mem = id ∨ ∃ list, old = some list ∧ mem ∈ list.ids := by
  cases old with
  | none => exact .inl (List.mem_singleton.1 listed)
  | some list =>
    rcases List.mem_append.1 listed with kept | appended
    · exact .inr ⟨list, rfl, kept⟩
    · exact .inl (List.mem_singleton.1 appended)

section Owners

variable {allowed : Nat → Nat → Prop} {pre post : Queue}

theorem Queue.OwnersIn.mono {weaker : Nat → Nat → Prop} (owners : pre.OwnersIn allowed)
    (implies : ∀ q i, allowed q i → weaker q i) : pre.OwnersIn weaker where
  winners := fun i winner held => implies winner i (owners.winners i winner held)
  candidates := fun i list present id mem =>
    implies id i (owners.candidates i list present id mem)

section

variable (owners : pre.OwnersIn allowed)
include owners

theorem Queue.OwnersIn.of_same (slots : post.topRated = pre.topRated)
    (lists : post.topRatedCandidates = pre.topRatedCandidates) : post.OwnersIn allowed where
  winners := by
    rw [slots]
    exact owners.winners
  candidates := by
    rw [lists]
    exact owners.candidates

variable (fsrv : Fsrv)

theorem Queue.OwnersIn.contend (miniLen q : Nat) (fuzzP2 favFactor : BitVec 64) (i : Nat)
    (own : allowed q i) :
    (pre.contend fsrv miniLen q fuzzP2 favFactor i).OwnersIn allowed where
  winners := by
    intro k winner held
    rcases Queue.contend_topRated held with
      old | ⟨slot, isNew⟩
    · exact owners.winners k _ old
    · rw [slot, isNew]
      exact own
  candidates := by
    rw [(Queue.contend_frame _ _ q _ _ i _).rest]
    exact owners.candidates

theorem Queue.OwnersIn.updateBitmapScore (fsrv : Fsrv) (q : Nat) (haveTrace : Bool)
    (own : ∀ i, fsrv.traceBits i ≠ 0 → allowed q i) :
    (updateBitmapScore fsrv q haveTrace pre).OwnersIn allowed := by
  unfold AflPlusPlus.updateBitmapScore
  split
  · exact owners
  · split
    · apply forUpto_preserves _ _ (fun cur => cur.OwnersIn allowed) pre owners
      intro i _ cur ongoing
      split
      · rename_i lit
        exact ongoing.contend _ _ q _ _ i (own i lit)
      · exact ongoing
    · exact owners

theorem Queue.OwnersIn.updateBitmapRescore (q idx : Nat) (own : allowed q idx) :
    (updateBitmapRescore fsrv q idx pre).OwnersIn allowed := by
  unfold AflPlusPlus.updateBitmapRescore
  split
  · exact owners
  · exact owners.contend _ _ q _ _ _ own

private theorem Queue.OwnersIn.rescoreCalls (calls : List (Nat × Nat))
    (own : ∀ call, call ∈ calls → allowed call.1 call.2) :
    (runFrom (rescoreCall fsrv) pre calls).OwnersIn allowed := by
  induction calls generalizing pre with
  | nil => exact owners
  | cons call rest ih =>
    apply ih
    · exact owners.updateBitmapRescore _ call.1 call.2 (own _ (List.mem_cons_self ..))
    · intro other mem
      exact own _ (List.mem_cons_of_mem _ mem)

end

private theorem ListedIn.nominate (fsrv : Fsrv) (listed : ListedIn allowed pre.topRatedCandidates)
    (id : Nat) (own : ∀ i, fsrv.traceBits i ≠ 0 → allowed id i) :
    ListedIn allowed (pre.nominate fsrv id).topRatedCandidates := by
  apply forUpto_preserves _ _ (ListedIn allowed) _ listed
  intro j _ lists ongoing
  split
  · rename_i lit
    intro i list present mem inside
    by_cases slot : i = j
    · rw [slot, update_self] at present
      rw [← Option.some.inj present] at inside
      rw [slot]
      rcases Candidates.mem_append inside with isNew | ⟨_, old, kept⟩
      · rw [isNew]
        exact own j lit
      · exact ongoing j _ old _ kept
    · rw [update_of_ne slot] at present
      exact ongoing i _ present _ inside
  · exact ongoing

variable (s : QueueState) {execute : Nat → Buffer}

theorem ListedIn.collectCandidates (listed : ListedIn allowed s.queue.topRatedCandidates)
    (own : ∀ id i, s.queue.Unscored id → execute id i ≠ 0 → allowed id i) :
    ListedIn allowed (collectCandidates execute s).queue.topRatedCandidates := by
  refine (forUpto_preserves _ _ (fun cur => ListedIn allowed cur.queue.topRatedCandidates ∧
    cur.queue.queueBuf = s.queue.queueBuf) s ⟨listed, rfl⟩ ?_).1
  intro k below cur ongoing
  have frame := collectEntry_frame execute ((s.queue.lastScoredIdx + 1).toNat + k) cur
  constructor
  · unfold collectEntry
    split
    · exact ongoing.1
    · rename_i enabled
      rw [ongoing.2] at enabled
      have unscored : s.queue.Unscored ((s.queue.lastScoredIdx + 1).toNat + k) :=
        ⟨by omega, by omega, Bool.eq_false_of_not_eq_true enabled⟩
      exact ongoing.1.nominate
        (cur.executed (execute ((s.queue.lastScoredIdx + 1).toNat + k))).fsrv _
        (fun i lit => own _ i unscored lit)
  · rw [frame.rest]
    exact ongoing.2

variable (owners : s.queue.OwnersIn allowed)
  (own : ∀ id i, s.queue.Unscored id → execute id i ≠ 0 → allowed id i)

include owners own

private theorem Queue.OwnersIn.collectCandidates :
    (collectCandidates execute s).queue.OwnersIn allowed where
  winners := by
    rw [(collectCandidates_frame execute s).rest]
    exact owners.winners
  candidates := owners.candidates.collectCandidates s own

theorem Queue.OwnersIn.recalculate :
    (recalculateAllScores execute s).queue.OwnersIn allowed := by
  have collected := owners.collectCandidates _ own
  apply collected.rescoreCalls
  intro call mem
  obtain ⟨_, present, listed⟩ := mem_rescoreCalls mem
  exact collected.candidates call.2 _ present call.1 listed

end Owners

end AflPlusPlus
