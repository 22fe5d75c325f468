/-
What the dry run's removal of duplicates keeps.

Of the calibrated entries with one checksum a shortest stays enabled and no other does:
an entry is only disabled in favour of one that is no longer and enabled at that time.
-/

import AflPlusPlus.QueueRun

namespace AflPlusPlus

open Machine

/-- The calibrated entries that have the checksum of `e`. -/
def Queue.Alike (queue : Queue) (e k : Nat) : Prop :=
  k < queue.queuedItems ∧ (queue.queueBuf k).comparable = true ∧
    (queue.queueBuf k).execCksum = (queue.queueBuf e).execCksum

/-- Entry `k` is still there for all that are like `e`. -/
structure Wins (pre cur : Queue) (e k : Nat) : Prop where
  alike : pre.Alike e k
  able : (cur.queueBuf k).comparable = true
  shorter : (pre.queueBuf k).len ≤ (pre.queueBuf e).len

/-- The entries are as they were or have been disabled, and something wins over each. -/
structure Pruned (pre cur : Queue) : Prop where
  items : cur.queuedItems = pre.queuedItems
  entry : ∀ e, cur.queueBuf e = pre.queueBuf e ∨ (cur.queueBuf e).disabled = true ∧ pre.Alike e e
  winner : ∀ e, pre.Alike e e → ∃ k, Wins pre cur e k

def Narrows (cur later : Queue) : Prop :=
  ∀ e, (later.queueBuf e).comparable = true → later.queueBuf e = cur.queueBuf e

variable {pre cur : Queue} {e q : Nat} (pruned : Pruned pre cur)

include pruned in
theorem Pruned.kept (active : (cur.queueBuf e).disabled = false) :
    cur.queueBuf e = pre.queueBuf e := by
  rcases pruned.entry e with same | lost
  · exact same
  · exact absurd (lost.1.symm.trans active) (by decide)

theorem not_comparable_disableDuplicate :
    ¬((disableDuplicate q cur).queueBuf q).comparable = true := by
  intro able
  have enabled := QueueEntry.enabled_of_comparable able
  rw [disableDuplicate_self] at enabled
  cases enabled

private theorem narrows_disableDuplicate : Narrows cur (disableDuplicate q cur) := by
  intro e able
  by_cases here : e = q
  · subst here
    exact absurd able not_comparable_disableDuplicate
  · exact disableDuplicate_of_ne here _

include pruned

/-- Whoever the loser stood for, the winner stands for from now on. -/
private theorem Pruned.disable {k : Nat}
    (able : (cur.queueBuf e).comparable = true) (inside : e < pre.queuedItems)
    (other : k ≠ e) (wins : Wins pre cur e k) : Pruned pre (disableDuplicate e cur) where
  items := by
    rw [(disableDuplicate_frame e _).rest]
    exact pruned.items
  entry := by
    intro loser
    by_cases here : loser = e
    · subst here
      rw [pruned.kept (QueueEntry.enabled_of_comparable able)] at able
      exact .inr ⟨disableDuplicate_self _ _, inside, able, rfl⟩
    · rw [disableDuplicate_of_ne here]
      exact pruned.entry _
  winner := by
    intro loser alike
    obtain ⟨winner, won⟩ := pruned.winner loser alike
    by_cases again : winner = e
    · subst again
      refine ⟨k, ⟨wins.alike.1, wins.alike.2.1, wins.alike.2.2.trans won.alike.2.2⟩, ?_,
        BitVec.le_trans wins.shorter won.shorter⟩
      rw [disableDuplicate_of_ne other]
      exact wins.able
    · refine ⟨winner, won.alike, ?_, won.shorter⟩
      rw [disableDuplicate_of_ne again]
      exact won.able

/-- The inner loop leaves no later entry that is like `q`, or `q` has lost. -/
private theorem Pruned.removeDuplicatesOf (able : (cur.queueBuf q).comparable = true)
    (others : List Nat)
    (later : ∀ p ∈ others, q < p ∧ p < pre.queuedItems) (inside : q < pre.queuedItems) :
    let left := removeDuplicatesOf q others cur
    Pruned pre left ∧ Narrows cur left ∧ ((left.queueBuf q).comparable = true →
      ∀ p ∈ others, (left.queueBuf p).comparable = true →
        (left.queueBuf p).execCksum ≠ (left.queueBuf q).execCksum) := by
  induction others generalizing cur with
  | nil => exact ⟨pruned, fun _ _ => rfl, nofun⟩
  | cons p rest ih =>
    obtain ⟨beyond, within⟩ := later p List.mem_cons_self
    have further := fun other mem => later other (List.mem_cons_of_mem p mem)
    have keptQ := pruned.kept (QueueEntry.enabled_of_comparable able)
    unfold AflPlusPlus.removeDuplicatesOf
    split
    · rename_i same
      rw [Bool.and_eq_true, beq_iff_eq] at same
      have kept := pruned.kept (QueueEntry.enabled_of_comparable same.1)
      have alike := same
      rw [kept, keptQ] at alike
      split
      · rename_i longer
        rw [kept, keptQ] at longer
        have wins : Wins pre cur p q := ⟨⟨inside, keptQ ▸ able, alike.2.symm⟩, able, longer⟩
        have ableQ : ((disableDuplicate p cur).queueBuf q).comparable = true := by
          rw [disableDuplicate_of_ne (Nat.ne_of_lt beyond)]
          exact able
        obtain ⟨post, narrower, clear⟩ :=
          ih (pruned.disable same.1 within (Nat.ne_of_lt beyond) wins) ableQ further
        refine ⟨post, ?_, ?_⟩
        · intro e ableLast
          have last := narrower e ableLast
          rw [last] at ableLast ⊢
          exact narrows_disableDuplicate e ableLast
        · intro ableLast other mem ableOther
          rcases List.mem_cons.1 mem with rfl | behind
          · rw [narrower _ ableOther] at ableOther
            exact absurd ableOther not_comparable_disableDuplicate
          · exact clear ableLast _ behind ableOther
      · rename_i shorter
        rw [kept, keptQ] at shorter
        have wins : Wins pre cur q p :=
          ⟨⟨within, alike⟩, same.1, BitVec.le_of_lt (BitVec.not_le.1 shorter)⟩
        exact ⟨pruned.disable able inside (Nat.ne_of_gt beyond) wins, narrows_disableDuplicate,
          fun ableLast => absurd ableLast not_comparable_disableDuplicate⟩
    · rename_i ne
      obtain ⟨post, narrower, clear⟩ := ih pruned able further
      refine ⟨post, narrower, ?_⟩
      intro ableLast other mem ableOther
      rcases List.mem_cons.1 mem with rfl | behind
      · intro equal
        have sameOther := narrower _ ableOther
        rw [sameOther] at ableOther
        rw [sameOther, narrower _ ableLast] at equal
        exact ne (by rw [ableOther, equal, beq_self_eq_true, Bool.and_self])
      · exact clear ableLast _ behind ableOther

omit pruned

def Single (bound : Nat) (queue : Queue) : Prop :=
  ∀ first second, first < bound → first < second → second < queue.queuedItems →
    (queue.queueBuf first).comparable = true → (queue.queueBuf second).comparable = true →
      (queue.queueBuf second).execCksum ≠ (queue.queueBuf first).execCksum

private theorem removeDuplicates_pruned (queue : Queue) :
    Pruned queue (removeDuplicates queue) ∧
      Single (queue.queuedItems - 1) (removeDuplicates queue) := by
  apply forUpto_invariant _ _ (fun bound cur => Pruned _ cur ∧ Single bound cur)
  · exact ⟨⟨rfl, fun _ => .inl rfl, fun e alike => ⟨e, alike, alike.2.1, BitVec.le_refl _⟩⟩,
      fun _ _ low => absurd low (Nat.not_lt_zero _)⟩
  · intro idx low cur ongoing
    obtain ⟨pruned, single⟩ := ongoing
    split
    · rename_i able
      have later : ∀ p ∈ List.range' (idx + 1) (cur.queuedItems - (idx + 1)),
          idx < p ∧ p < queue.queuedItems := by
        intro p mem
        have bounds := List.mem_range'_1.1 mem
        rw [pruned.items] at bounds
        omega
      obtain ⟨post, narrower, clear⟩ := pruned.removeDuplicatesOf able _ later (by omega)
      refine ⟨post, ?_⟩
      intro first second low beyond within ableFirst ableSecond
      rw [post.items] at within
      rcases Nat.lt_succ_iff_lt_or_eq.1 low with earlier | rfl
      · have sameFirst := narrower _ ableFirst
        have sameSecond := narrower _ ableSecond
        rw [sameFirst] at ableFirst ⊢
        rw [sameSecond] at ableSecond ⊢
        exact single _ _ earlier beyond (pruned.items ▸ within) ableFirst ableSecond
      · refine clear ableFirst _ (List.mem_range'_1.2 ?_) ableSecond
        rw [pruned.items]
        omega
    · rename_i idle
      refine ⟨pruned, ?_⟩
      intro first second low beyond within ableFirst ableSecond
      rcases Nat.lt_succ_iff_lt_or_eq.1 low with earlier | rfl
      · exact single _ _ earlier beyond within ableFirst ableSecond
      · exact absurd ableFirst idle

/-- One shortest entry of each checksum stays enabled; failed and disabled entries,
and those that are alone with their checksum, are left as they are. -/
structure Queue.OneKept (pre post : Queue) : Prop where
  one : ∀ e, pre.Alike e e → ∃ k, pre.Alike e k ∧ (post.queueBuf k).disabled = false ∧
    ∀ other, pre.Alike e other → (pre.queueBuf k).len ≤ (pre.queueBuf other).len ∧
      ((post.queueBuf other).disabled = false → other = k)
  untouched : ∀ e, (pre.Alike e e → ∀ other, pre.Alike e other → other = e) →
    post.queueBuf e = pre.queueBuf e

theorem duplicates_keep_one (queue : Queue) : queue.OneKept (removeDuplicates queue) := by
  obtain ⟨pruned, single⟩ := removeDuplicates_pruned queue
  have unique : ∀ e k other, queue.Alike e k → queue.Alike e other →
      ((removeDuplicates queue).queueBuf k).disabled = false →
        ((removeDuplicates queue).queueBuf other).disabled = false → ¬k < other := by
    intro e k other first second activeK activeOther below
    have sameK := pruned.kept activeK
    have sameOther := pruned.kept activeOther
    have inside := second.1
    refine single k _ (by omega) below (pruned.items ▸ inside) (sameK ▸ first.2.1)
      (sameOther ▸ second.2.1) ?_
    rw [sameK, sameOther, first.2.2, second.2.2]
  constructor
  · intro e own
    obtain ⟨k, wins⟩ := pruned.winner e own
    have active := QueueEntry.enabled_of_comparable wins.able
    have only : ∀ other, queue.Alike e other →
        ((removeDuplicates queue).queueBuf other).disabled = false → other = k := by
      intro other alike activeOther
      have above := unique e k _ wins.alike alike active activeOther
      have below := unique e _ k alike wins.alike activeOther active
      omega
    refine ⟨k, wins.alike, active, ?_⟩
    intro other alike
    obtain ⟨_, won⟩ := pruned.winner other ⟨alike.1, alike.2.1, rfl⟩
    have same := only _ ⟨won.alike.1, won.alike.2.1, won.alike.2.2.trans alike.2.2⟩
      (QueueEntry.enabled_of_comparable won.able)
    exact ⟨same ▸ won.shorter, only _ alike⟩
  · intro e alone
    rcases pruned.entry e with same | ⟨_, own⟩
    · exact same
    · obtain ⟨k, wins⟩ := pruned.winner e own
      rw [alone own k wins.alike] at wins
      exact pruned.kept (QueueEntry.enabled_of_comparable wins.able)

end AflPlusPlus
