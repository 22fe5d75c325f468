/-
What a cull covers when the minimised traces are right.

Where every minimised trace was built from the trace of its own entry, only entries that
hit an index can claim it.
-/

import AflPlusPlus.QueueCover
import AflPlusPlus.QueueTraceMini

namespace AflPlusPlus

open Machine

variable {trace : Nat → Buffer} {mapSize : Nat} {queue : Queue}

private theorem OwnMinis.hits_of_claims (own : OwnMinis trace mapSize queue) {e i : Nat}
    (claims : queue.Claims mapSize e i) : trace e i ≠ 0 := by
  obtain ⟨k, _, _, owned, claimed⟩ := claims
  have present := ((queue.coverOwner_eq_some_iff k e _).1 owned).2
  rw [own e _ present, bitAt_minimizeBits, bitAt_zero, Bool.false_or, decide_eq_true_eq] at claimed
  exact claimed.2

/-- The winner still has its minimised trace, and every slot winner that hits
the index is enabled. -/
structure SlotIntact (trace : Nat → Buffer) (mapSize : Nat) (queue : Queue) (i winner : Nat) :
    Prop where
  held : queue.topRated i = some winner
  keeps : (queue.queueBuf winner).traceMini ≠ none
  enabled : ∀ k e, k < mapSize → queue.topRated k = some e → trace e i ≠ 0 →
    (queue.queueBuf e).disabled = false

private theorem SlotIntact.secured {i winner : Nat}
    (intact : SlotIntact trace mapSize queue i winner)
    (own : OwnMinis trace mapSize queue) (hit : WinnersHit trace queue) (within : i < mapSize) :
    SlotSecured trace mapSize queue i := by
  obtain ⟨mini, present⟩ := Option.ne_none_iff_exists'.1 intact.keeps
  have owned := (queue.coverOwner_eq_some_iff i _ _).2 ⟨intact.held, present⟩
  refine .inr ⟨i, winner, mini, within, owned, ?_⟩
  intro e may
  rcases may with same | claims
  · rw [same]
    have hits := (hit.winners i _ intact.held).2
    exact ⟨intact.enabled i _ within intact.held hits, hits⟩
  · have hits := own.hits_of_claims claims
    obtain ⟨k, _, inside, owner, _⟩ := claims
    have slot := ((queue.coverOwner_eq_some_iff k e _).1 owner).1
    exact ⟨intact.enabled k e inside slot hits, hits⟩

structure SoundOwners (trace : Nat → Buffer) (s : QueueState) : Prop where
  hit : WinnersHit trace s.queue
  own : OwnMinis trace s.fsrv.mapSize s.queue

theorem SoundOwners.step (s : QueueState) (step : QueueStep) (sound : SoundOwners trace s)
    (guard : step.Regular trace s ∧ MiniGuard trace s step) :
    SoundOwners trace (queueStep trace s step) where
  hit := WinnersHit.step s step sound.hit guard.1
  own := OwnMinis.step s step sound.own guard.2

variable (steps : List QueueStep) (schedule : Schedule)

theorem SoundOwners.run (fsrv : Fsrv) (fixedSeed aflDisableRedundant : Bool)
    (admitted : Along (queueStep trace)
      (fun s step => step.Regular trace s ∧ MiniGuard trace s step)
      (QueueState.start fsrv schedule fixedSeed aflDisableRedundant) steps) :
    SoundOwners trace (runFrom (queueStep trace)
      (QueueState.start fsrv schedule fixedSeed aflDisableRedundant) steps) := by
  refine runFrom_invariant (SoundOwners _) (fun s step => SoundOwners.step _ _) _ ?_
    _ admitted
  constructor
  · constructor
    · intro i winner bad
      cases bad
    · intro i list bad
      cases bad
  · intro q mini bad
    cases bad

/-- In every run that rebuilds minimised traces only from own traces, a cull
that is not skipped covers every intact slot. -/
theorem intact_slots_covered (fsrv : Fsrv) (aligned : 8 ∣ fsrv.mapSize)
    (fixedSeed aflDisableRedundant : Bool)
    (admitted : Along (queueStep trace)
      (fun s step => step.Regular trace s ∧ MiniGuard trace s step)
      (QueueState.start fsrv schedule fixedSeed aflDisableRedundant) steps) :
    let pre := runFrom (queueStep trace)
      (QueueState.start fsrv schedule fixedSeed aflDisableRedundant) steps
    pre.queue.cullSkipped = false → ∀ i winner, i < fsrv.mapSize →
      SlotIntact trace fsrv.mapSize pre.queue i winner →
        (queueStep trace pre .cull).queue.CoveredAt trace i := by
  intro pre ran i winner within intact
  have sound : SoundOwners trace pre := SoundOwners.run _ _ _ _ _ admitted
  have size : pre.fsrv.mapSize = fsrv.mapSize := runFrom_mapSize _ _ _
  rw [← size] at aligned within intact
  exact cullQueue_covers aligned pre.queue ran sound.hit i
    (intact.secured sound.own sound.hit within)

theorem intact_slots_covered_three_seeds :
    ((queueStep chainTrace chainScored .cull).queue.queueBuf 1).favored = false ∧
      SlotIntact chainTrace 64 chainScored.queue 1 1 ∧
      (queueStep chainTrace chainScored .cull).queue.CoveredAt chainTrace 1 := by
  have winners : ∀ k, k < 64 → ∀ e ∈ chainScored.queue.topRated k,
      (chainScored.queue.queueBuf e).disabled = false := by decide +kernel
  have intact : SlotIntact chainTrace 64 chainScored.queue 1 1 :=
    ⟨by decide +kernel, Option.isSome_iff_ne_none.1 (by decide +kernel),
      fun k e within held _ => winners k within e held⟩
  refine ⟨by decide +kernel, intact, intact_slots_covered
    [.add 4, .add 4, .add 4, .score 0, .score 1, .score 2] .explore ⟨fun _ => 0, 64, 64⟩
    (by decide) false false ?_ (by decide +kernel) 1 1 (by decide) intact⟩
  exact chainScored_regular.and ⟨trivial, trivial, trivial, trivial, trivial, trivial, trivial⟩

end AflPlusPlus
