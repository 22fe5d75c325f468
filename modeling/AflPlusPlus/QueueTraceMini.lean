/-
Whose trace a minimised trace is.

`update_bitmap_score` runs right after an execution of its entry; `recalculate_all_scores`
rescores only after all its executions, when the buffer belongs to the last entry it ran.
-/

import AflPlusPlus.QueueRun

namespace AflPlusPlus

open Machine

def SameHits (mapSize : Nat) (left right : Buffer) : Prop :=
  ∀ i, i < mapSize → (left i = 0 ↔ right i = 0)

variable {mapSize : Nat}

private theorem minimizeBits_congr {dst left right : Buffer} (same : SameHits mapSize left right) :
    minimizeBits mapSize dst left = minimizeBits mapSize dst right := by
  apply forUpto_congr
  intro i within cur
  have hit : left i ≠ 0 ↔ right i ≠ 0 := not_congr (same i within)
  by_cases here : left i ≠ 0
  · rw [if_pos here, if_pos (hit.1 here)]
  · rw [if_neg here, if_neg (fun there => here (hit.2 there))]

def Queue.takes (queue : Queue) (fuzzP2 favFactor : BitVec 64) (i : Nat) : Bool :=
  match queue.topRated i with
  | none => true
  | some winner => !queue.holds fuzzP2 favFactor winner

/-- A contender that takes the slot has to build its minimised trace when it
has none, or when it displaces itself from the only slot it holds. -/
def Queue.lacksMini (queue : Queue) (q i : Nat) : Prop :=
  (queue.queueBuf q).traceMini = none ∨ queue.topRated i = some q ∧ (queue.queueBuf q).tcRef = 1

private theorem u32Pred_eq_zero_iff (v : Nat) : u32Pred v = 0 ↔ v = 1 := by
  unfold u32Pred
  split <;> omega

variable (fsrv : Fsrv) {trace : Nat → Buffer} (miniLen : Nat)

private theorem enthrone_traceMini (entry : QueueEntry) (mini : TraceMini)
    (kept : (entry.enthrone fsrv miniLen).traceMini = some mini) :
    entry.traceMini = some mini ∨ entry.traceMini = none ∧
      mini = ⟨miniLen, minimizeBits fsrv.mapSize (fun _ => 0) fsrv.traceBits⟩ := by
  unfold QueueEntry.enthrone at kept
  cases present : entry.traceMini with
  | none =>
    rw [present] at kept
    cases kept
    exact .inr ⟨rfl, rfl⟩
  | some old =>
    rw [present] at kept
    exact .inl kept

variable (queue : Queue) (q : Nat)

private theorem crown_traceMini (i : Nat) (queue : Queue) (e : Nat) (mini : TraceMini)
    (kept : ((queue.crown fsrv miniLen q i).queueBuf e).traceMini = some mini) :
    (queue.queueBuf e).traceMini = some mini ∨ e = q ∧ (queue.queueBuf q).traceMini = none ∧
      mini = ⟨miniLen, minimizeBits fsrv.mapSize (fun _ => 0) fsrv.traceBits⟩ := by
  change ((queue.modify q (QueueEntry.enthrone fsrv miniLen)).queueBuf e).traceMini = _ at kept
  by_cases same : e = q
  · rw [same, Queue.modify_self] at kept
    rw [same]
    rcases enthrone_traceMini fsrv miniLen _ mini kept with old | built
    · exact .inl old
    · exact .inr ⟨rfl, built⟩
  · rw [Queue.modify_of_ne same] at kept
    exact .inl kept

private theorem release_traceMini_some (winner e : Nat) (mini : TraceMini)
    (kept : ((queue.modify winner QueueEntry.release).queueBuf e).traceMini = some mini) :
    (queue.queueBuf e).traceMini = some mini := by
  by_cases same : e = winner
  · rw [same, Queue.modify_self, QueueEntry.release_traceMini] at kept
    rw [same]
    split at kept
    · cases kept
    · exact kept
  · rw [Queue.modify_of_ne same] at kept
    exact kept

private theorem release_traceMini_none (winner q : Nat)
    (absent : ((queue.modify winner QueueEntry.release).queueBuf q).traceMini = none) :
    (queue.queueBuf q).traceMini = none ∨ winner = q ∧ (queue.queueBuf q).tcRef = 1 := by
  by_cases same : q = winner
  · rw [same, Queue.modify_self, QueueEntry.release_traceMini] at absent
    rw [same]
    split at absent
    · rename_i last
      exact .inr ⟨rfl, (u32Pred_eq_zero_iff _).1 last⟩
    · exact .inl absent
  · rw [Queue.modify_of_ne same] at absent
    exact .inl absent

theorem Queue.contend_traceMini (fuzzP2 favFactor : BitVec 64) (i : Nat) (queue : Queue) (e : Nat)
    (mini : TraceMini)
    (kept : ((queue.contend fsrv miniLen q fuzzP2 favFactor i).queueBuf e).traceMini = some mini) :
    (queue.queueBuf e).traceMini = some mini ∨
      e = q ∧ queue.takes fuzzP2 favFactor i = true ∧ queue.lacksMini q i ∧
        mini = ⟨miniLen, minimizeBits fsrv.mapSize (fun _ => 0) fsrv.traceBits⟩ := by
  unfold Queue.contend at kept
  unfold Queue.takes Queue.lacksMini
  cases held : queue.topRated i with
  | none =>
    rw [held] at kept
    rcases crown_traceMini fsrv miniLen q i queue e mini kept with old | ⟨same, none, built⟩
    · exact .inl old
    · exact .inr ⟨same, rfl, .inl none, built⟩
  | some winner =>
    rw [held] at kept
    dsimp only at kept
    split at kept
    · exact .inl kept
    · rename_i beaten
      rcases crown_traceMini fsrv miniLen q i _ e mini kept with old | ⟨same, none, built⟩
      · exact .inl (release_traceMini_some _ _ e _ old)
      · refine .inr ⟨same, ?_, ?_, built⟩
        · rw [Bool.not_eq_true']
          exact Bool.eq_false_of_not_eq_true beaten
        · rcases release_traceMini_none queue winner q none with absent | itself
          · exact .inl absent
          · rw [itself.1]
            exact .inr ⟨rfl, itself.2⟩

theorem Queue.contend_traceMini_none (fuzzP2 favFactor : BitVec 64) (i : Nat) (queue : Queue)
    (e : Nat)
    (absent : ((queue.contend fsrv miniLen q fuzzP2 favFactor i).queueBuf e).traceMini = none) :
    (queue.queueBuf e).traceMini = none ∨
      queue.topRated i = some e ∧ (queue.queueBuf e).tcRef = 1 := by
  have crowned : ∀ cur : Queue, ((cur.crown fsrv miniLen q i).queueBuf e).traceMini = none →
      (cur.queueBuf e).traceMini = none := by
    intro cur gone
    change ((cur.modify q (QueueEntry.enthrone fsrv miniLen)).queueBuf e).traceMini = none at gone
    by_cases same : e = q
    · rw [same, Queue.modify_self] at gone
      unfold QueueEntry.enthrone at gone
      dsimp only at gone
      split at gone <;> cases gone
    · rw [Queue.modify_of_ne same] at gone
      exact gone
  unfold Queue.contend at absent
  cases held : queue.topRated i with
  | none =>
    rw [held] at absent
    exact .inl (crowned _ absent)
  | some winner =>
    rw [held] at absent
    dsimp only at absent
    split at absent
    · exact .inl absent
    · rcases release_traceMini_none queue winner e (crowned _ absent) with gone | itself
      · exact .inl gone
      · rw [itself.1]
        exact .inr ⟨rfl, itself.2⟩

def OwnMinis (trace : Nat → Buffer) (mapSize : Nat) (queue : Queue) : Prop :=
  ∀ q mini, (queue.queueBuf q).traceMini = some mini →
    mini.bytes = minimizeBits mapSize (fun _ => 0) (trace q)

theorem OwnMinis.of_kept {pre post : Queue} (own : OwnMinis trace mapSize pre)
    (kept : ∀ q mini, (post.queueBuf q).traceMini = some mini →
      (pre.queueBuf q).traceMini = some mini) :
    OwnMinis trace mapSize post := by
  intro q mini present
  exact own q _ (kept q _ present)

theorem OwnMinis.modify {queue : Queue} (own : OwnMinis trace mapSize queue)
    (q : Nat) (change : QueueEntry → QueueEntry)
    (kept : ∀ mini, (change (queue.queueBuf q)).traceMini = some mini →
      (queue.queueBuf q).traceMini = some mini) :
    OwnMinis trace mapSize (queue.modify q change) := by
  apply own.of_kept
  intro e mini present
  by_cases same : e = q
  · rw [same, Queue.modify_self] at present
    rw [same]
    exact kept _ present
  · rw [Queue.modify_of_ne same] at present
    exact present

/-- A rescoring call that has to build a minimised trace finds a trace buffer
with the hits of its own entry. -/
def BuildsOwn (trace : Nat → Buffer) (fsrv : Fsrv) (queue : Queue) (call : Nat × Nat) : Prop :=
  (queue.queueBuf call.1).disabled = false → queue.takes (queue.fuzzP2 (queue.queueBuf call.1))
      (queue.favFactor (queue.queueBuf call.1)) call.2 = true →
    queue.lacksMini call.1 call.2 →
    SameHits fsrv.mapSize fsrv.traceBits (trace call.1)

theorem OwnMinis.updateBitmapScore {fsrv : Fsrv} {queue : Queue}
    (own : OwnMinis trace fsrv.mapSize queue) (q : Nat) (haveTrace : Bool)
    (ran : fsrv.traceBits = trace q) :
    OwnMinis trace fsrv.mapSize (updateBitmapScore fsrv q haveTrace queue) := by
  unfold AflPlusPlus.updateBitmapScore
  split
  · exact own
  · split
    · apply forUpto_preserves _ _ (OwnMinis _ fsrv.mapSize) _ own
      intro i _ cur ongoing
      split
      · intro e mini present
        rcases Queue.contend_traceMini fsrv _ q _ _ i cur e mini present with
          old | ⟨same, _, _, built⟩
        · exact ongoing e _ old
        · rw [built, same, ran]
      · exact ongoing
    · exact own

theorem OwnMinis.rescoreCall {fsrv : Fsrv} (queue : Queue) (call : Nat × Nat)
    (own : OwnMinis trace fsrv.mapSize queue) (builds : BuildsOwn trace fsrv queue call) :
    OwnMinis trace fsrv.mapSize (rescoreCall fsrv queue call) := by
  unfold AflPlusPlus.rescoreCall updateBitmapRescore
  split
  · exact own
  · rename_i enabled
    intro e mini present
    rcases Queue.contend_traceMini fsrv _ call.1 _ _ call.2 queue e mini present with
      old | ⟨same, takes, lacks, built⟩
    · exact own e _ old
    · have hits := builds (Bool.eq_false_of_not_eq_true enabled) takes lacks
      rw [built, same, minimizeBits_congr hits]

/-- The condition on a step: whatever it rescores builds only own traces. -/
def MiniGuard (trace : Nat → Buffer) (s : QueueState) : QueueStep → Prop
  | .rescore q idx => BuildsOwn trace s.fsrv s.queue (q, idx)
  | .recalculate =>
    let collected := collectCandidates trace s
    Along (rescoreCall collected.fsrv) (BuildsOwn trace collected.fsrv) collected.queue
      (rescoreCalls collected.fsrv.mapSize collected.queue)
  | _ => True

variable (s : QueueState)

theorem OwnMinis.recalculate (own : OwnMinis trace s.fsrv.mapSize s.queue)
    (builds : MiniGuard trace s .recalculate) :
    OwnMinis trace s.fsrv.mapSize (recalculateAllScores trace s).queue := by
  have frame := collectCandidates_frame trace s
  have collected : OwnMinis trace (collectCandidates trace s).fsrv.mapSize
      (collectCandidates trace s).queue := by
    rw [frame.mapSize]
    apply own.of_kept
    intro q mini present
    rw [frame.rest] at present
    exact present
  have rescored := runFrom_invariant (OwnMinis _ (collectCandidates _ _).fsrv.mapSize)
    (fun queue call => OwnMinis.rescoreCall _ _) _ collected _ builds
  rw [← frame.mapSize]
  exact rescored

theorem OwnMinis.step (step : QueueStep)
    (own : OwnMinis trace s.fsrv.mapSize s.queue) (builds : MiniGuard trace s step) :
    OwnMinis trace (queueStep trace s step).fsrv.mapSize (queueStep trace s step).queue := by
  rw [queueStep_mapSize]
  cases step with
  | add len =>
    have fresh := own.modify s.queue.queuedItems (fun _ => QueueEntry.added len) nofun
    exact fun q mini present => fresh q _ present
  | execute q | setSchedule schedule fixedSeed nFuzz | nextCycle => exact own
  | score q =>
    exact @OwnMinis.updateBitmapScore _ (s.executed (trace q)).fsrv _ own q _ rfl
  | rescore q idx => exact OwnMinis.rescoreCall s.queue (q, idx) own builds
  | recalculate => exact own.recalculate _ builds
  | removeDuplicates =>
    apply own.of_kept
    intro q mini present
    change ((removeDuplicates s.queue).queueBuf q).traceMini = some mini at present
    rw [(removeDuplicates_frame s.queue).entries q] at present
    exact present
  | cull =>
    apply own.of_kept
    exact cullQueue_traceMini s.fsrv s.queue
  | abandon q stopSoon =>
    apply own.of_kept
    intro e mini present
    change ((abandonEntry stopSoon q s.queue).queueBuf e).traceMini = some mini at present
    rw [abandonEntry_entries] at present
    exact present
  | tighten q =>
    change OwnMinis trace _ (stampTightness q s.queue)
    apply OwnMinis.modify own
    exact fun mini present => present
  | setScores q scores =>
    apply OwnMinis.modify own
    exact fun mini present => present

end AflPlusPlus
