/-
A custom trimmer and the candidates it offers, byte by byte.

The hooks of a custom mutator are outside code: a trimmer is the list of its
answers.  What `write_to_testcase` makes of a candidate is up to the hooks as well,
so it is part of the answers.  The stage counters are unsigned while the hooks
return signed numbers, and the test of the first one goes through a branch hint.
-/

import AflPlusPlus.TestcacheBytes

namespace AflPlusPlus

open Machine List

/-- The value of `unlikely(x)`: from version 6 on only whether `x` is zero. -/
def unlikely (gnuc : Nat) (x : Int) : Int := if gnuc < 6 then x else if x = 0 then 0 else 1

def mapHash (hash : List Byte → BitVec 64) (mapSize : Nat) (map : Buffer) : BitVec 64 :=
  hash ((List.range mapSize).map map)

theorem mapHash_copyMap (hash : List Byte → BitVec 64) (mapSize : Nat) (dst src : Buffer) :
    mapHash hash mapSize (copyMap mapSize dst src) = mapHash hash mapSize src := by
  unfold mapHash
  congr 1
  exact map_congr_left (fun i inside => if_pos (mem_range.mp inside))

/-- One round: the buffer of `afl_custom_trim`, what `write_to_testcase` makes of
it, the run, and the answer of `afl_custom_post_trim`. -/
structure TrimRound where
  retbuf : Option (List Byte)
  written : List Byte
  run : TargetRun
  postTrim : BitVec 32

structure Trimmer where
  initTrim : BitVec 32
  rounds : Nat → TrimRound

inductive HookCall where
  | initTrim (ret : BitVec 32)
  | trim
  | execute
  | postTrim (ret : BitVec 32)
  deriving DecidableEq

def HookCall.failed : HookCall → Bool
  | .initTrim ret | .postTrim ret => ret.toInt < 0
  | _ => false

def HookCall.drives : HookCall → Bool
  | .trim | .execute => true
  | _ => false

inductive TrimEnd where
  | running
  | fatal
  | aborted
  | finished

structure TrimLoop where
  afl : Afl
  fault : Fault
  stageCur : BitVec 32
  stageMax : BitVec 32
  outBuf : Option (List Byte)
  cleanTrace : Buffer
  trimExec : Nat
  calls : List HookCall

def TrimLoop.called (calls : List HookCall) (loop : TrimLoop) : TrimLoop :=
  { loop with calls := loop.calls ++ calls }

def TrimLoop.answered (round : TrimRound) (loop : TrimLoop) : TrimLoop :=
  { loop.called [.postTrim round.postTrim] with
    stageCur := round.postTrim
    trimExec := loop.trimExec + 1 }

def TrimLoop.keep (round : TrimRound) (loop : TrimLoop) : TrimLoop :=
  { loop with
    outBuf := some round.written
    cleanTrace :=
      if loop.outBuf.isSome then loop.cleanTrace
      else copyMap loop.afl.coverage.fsrv.mapSize loop.cleanTrace loop.afl.coverage.fsrv.traceBits }

/-- What becomes of a candidate before the trimmer is told about it. -/
inductive Delivery where
  | fatal
  | aborted
  | judged (same : Bool)

section Trimming

variable (size : WordSize) (hash64 : Buffer → BitVec 64) (q : Nat)

def deliver (round : TrimRound) (loop : TrimLoop) : Delivery × TrimLoop :=
  match round.retbuf with
  | none => (.fatal, loop.called [.trim])
  | some bytes =>
    if bytes = [] ∨ round.written = [] then (.judged false, loop.called [.trim])
    else
      let executed := { loop.called [.trim, .execute] with fault := round.run.fault }
      let ran := fuzzRunTarget round.run loop.afl
      if ran.stopSoon ∨ round.run.fault = .error then (.aborted, { executed with afl := ran })
      else
        let traced := ran.classify size
        (.judged (hash64 traced.coverage.fsrv.traceBits = (traced.queue.queueBuf q).execCksum),
          { executed with afl := traced })

/-- Only the answer to a failure is tested for an error. -/
def customRound (round : TrimRound) (loop : TrimLoop) : TrimEnd × TrimLoop :=
  match deliver size hash64 q round loop with
  | (.fatal, next) => (.fatal, next)
  | (.aborted, next) => (.aborted, next)
  | (.judged true, next) => (.running, (next.keep round).answered round)
  | (.judged false, next) =>
    if round.postTrim.toInt < 0 then (.fatal, next.called [.postTrim round.postTrim])
    else (.running, next.answered round)

/-- `while (afl->stage_cur < afl->stage_max)`, for at most `fuel` rounds -/
def customLoop (rounds : Nat → TrimRound) : Nat → TrimLoop → TrimEnd × TrimLoop
  | 0, loop => (.running, loop)
  | fuel + 1, loop =>
    if loop.stageCur < loop.stageMax then
      match customRound size hash64 q (rounds loop.trimExec) loop with
      | (.running, next) => customLoop rounds fuel next
      | ended => ended
    else (.finished, loop)

def Trimmer.start (trimmer : Trimmer) (afl : Afl) : TrimLoop where
  afl := afl
  fault := .ok
  stageCur := 0
  stageMax := trimmer.initTrim
  outBuf := none
  cleanTrace := fun _ => 0
  trimExec := 0
  calls := [.initTrim trimmer.initTrim]

def Trimmer.drive (gnuc fuel : Nat) (trimmer : Trimmer) (afl : Afl) : TrimEnd × TrimLoop :=
  if unlikely gnuc trimmer.initTrim.toInt < 0 then (.fatal, trimmer.start afl)
  else customLoop size hash64 q trimmer.rounds fuel (trimmer.start afl)

structure Accepts (start : Afl) (round : TrimRound) : Prop where
  offered : ∃ bytes, round.retbuf = some bytes ∧ bytes ≠ []
  written : round.written ≠ []
  same : hash64 (classifiedTrace size start.coverage.fsrv round.run) =
    (start.queue.queueBuf q).execCksum

/-- Delivering a candidate changes the fuzzer's trace and the record of calls. -/
structure Delivers (round : TrimRound) (loop : TrimLoop) (verdict : Delivery) (next : TrimLoop) :
    Prop where
  rest : next = { loop with afl := next.afl, fault := next.fault, calls := next.calls }
  frame : TrimFrame q loop.afl next.afl
  queue : next.afl.queue = loop.afl.queue
  calls : ∃ more, next.calls = loop.calls ++ .trim :: more ∧ ∀ call ∈ more, call = .execute
  judged : ∀ same, verdict = .judged same → (same = true ↔ Accepts size hash64 q loop.afl round)
  traced : verdict = .judged true →
    next.afl.coverage.fsrv.traceBits = classifiedTrace size loop.afl.coverage.fsrv round.run

variable {size hash64 q}

theorem delivers (round : TrimRound) (loop : TrimLoop) :
    Delivers size hash64 q round loop (deliver size hash64 q round loop).1
      (deliver size hash64 q round loop).2 := by
  unfold deliver
  cases offered : round.retbuf with
  | none =>
    exact ⟨rfl, TrimFrame.refl q _, rfl, ⟨[], by simp [TrimLoop.called]⟩, by simp, by simp⟩
  | some bytes =>
    have frame : TrimFrame q loop.afl ((fuzzRunTarget round.run loop.afl).classify size) :=
      (fuzzRunTarget_trim round.run loop.afl).trans (Afl.classify_trim _ _)
    dsimp only
    split
    · rename_i nothing
      refine ⟨rfl, TrimFrame.refl q _, rfl, ⟨[], by simp [TrimLoop.called]⟩, ?_, by simp⟩
      rintro _ ⟨⟩
      simp only [Bool.false_eq_true, false_iff]
      rintro ⟨⟨_, here, some⟩, written, _⟩
      cases offered.symm.trans here
      exact nothing.elim some written
    · rename_i something
      obtain ⟨some, written⟩ := not_or.mp something
      split
      · exact ⟨rfl, fuzzRunTarget_trim _ _, rfl, ⟨[.execute], by simp [TrimLoop.called]⟩, by simp,
          by simp⟩
      · refine ⟨rfl, frame, rfl, ⟨[.execute], by simp [TrimLoop.called]⟩, ?_, fun _ => rfl⟩
        rintro _ ⟨⟩
        rw [decide_eq_true_iff]
        exact ⟨fun same => ⟨⟨bytes, offered, some⟩, written, same⟩, fun accepts => accepts.same⟩

/-- What holds while the loop goes on, and what holds when it is over. -/
def After (again ended : TrimLoop → Prop) : TrimEnd × TrimLoop → Prop
  | (.running, loop) | (.finished, loop) => again loop
  | (_, loop) => ended loop

variable {again ended : TrimLoop → Prop}

theorem After.elim {P : TrimLoop → Prop} {res : TrimEnd × TrimLoop}
    (post : After again ended res) (goes : ∀ loop, again loop → P loop)
    (ends : ∀ loop, ended loop → P loop) : P res.2 := by
  rcases res with ⟨_ | _ | _ | _, loop⟩
  · exact goes _ post
  · exact ends _ post
  · exact ends _ post
  · exact goes _ post

/-- One rule for a round: what is delivered is accepted, rejected, or the end. -/
theorem After.round {round : TrimRound} {loop : TrimLoop}
    (ends : ∀ next, Delivers size hash64 q round loop .fatal next ∨
      Delivers size hash64 q round loop .aborted next → ended next)
    (keeps : ∀ next, Delivers size hash64 q round loop (.judged true) next →
      again ((next.keep round).answered round))
    (rejects : ∀ next, Delivers size hash64 q round loop (.judged false) next →
      ended (next.called [.postTrim round.postTrim]) ∧ again (next.answered round)) :
    After again ended (customRound size hash64 q round loop) := by
  have res := @delivers size hash64 q round loop
  unfold customRound
  revert res
  generalize deliver size hash64 q round loop = delivered
  rcases delivered with ⟨_ | _ | (_ | _), next⟩ <;> intro res
  · exact ends _ (.inl res)
  · exact ends _ (.inr res)
  · dsimp only
    split
    · exact (rejects _ res).1
    · exact (rejects _ res).2
  · exact keeps _ res

theorem After.loop {rounds : Nat → TrimRound}
    (step : ∀ loop, again loop → loop.stageCur < loop.stageMax →
      After again ended (customRound size hash64 q (rounds loop.trimExec) loop))
    (fuel : Nat) {loop : TrimLoop} (start : again loop) :
    After again ended (customLoop size hash64 q rounds fuel loop) := by
  induction fuel generalizing loop with
  | zero => exact start
  | succ fuel ih =>
    unfold customLoop
    split
    · rename_i goesOn
      have round := step _ start goesOn
      split
      · rename_i next running
        rw [running] at round
        exact ih round
      · exact round
    · exact start

variable (size hash64 q) in
/-- The last accepted candidate among the first `count`. -/
structure LastAccepted (start : Afl) (rounds : Nat → TrimRound) (count k : Nat) : Prop where
  inside : k < count
  accepts : Accepts size hash64 q start (rounds k)
  last : ∀ j, k < j → j < count → ¬ Accepts size hash64 q start (rounds j)

variable (size hash64 q) in
structure Trims (start : Afl) (rounds : Nat → TrimRound) (loop : TrimLoop) : Prop where
  frame : TrimFrame q start loop.afl
  queue : loop.afl.queue = start.queue
  none : loop.outBuf = none → ∀ j, j < loop.trimExec → ¬ Accepts size hash64 q start (rounds j)
  some : ∀ out, loop.outBuf = some out → hash64 loop.cleanTrace =
      (start.queue.queueBuf q).execCksum ∧
    ∃ k, LastAccepted size hash64 q start rounds loop.trimExec k ∧ out = (rounds k).written

variable {start : Afl} {rounds : Nat → TrimRound} {loop : TrimLoop}

private theorem Trims.accepts_iff (trims : Trims size hash64 q start rounds loop)
    (round : TrimRound) :
    Accepts size hash64 q loop.afl round ↔ Accepts size hash64 q start round := by
  constructor
  · rintro ⟨offered, written, same⟩
    rw [trims.frame.classifiedTrace, trims.queue] at same
    exact ⟨offered, written, same⟩
  · rintro ⟨offered, written, same⟩
    rw [← trims.frame.classifiedTrace, ← trims.queue] at same
    exact ⟨offered, written, same⟩

theorem Trims.round {hash : List Byte → BitVec 64}
    (hashes : hash64 = mapHash hash start.coverage.fsrv.mapSize)
    (trims : Trims size hash64 q start rounds loop) :
    After (Trims size hash64 q start rounds) (fun last => last.afl.queue = start.queue)
      (customRound size hash64 q (rounds loop.trimExec) loop) := by
  have queue : ∀ {verdict next}, Delivers size hash64 q (rounds loop.trimExec) loop verdict next →
      next.afl.queue = start.queue := fun res => res.queue.trans trims.queue
  apply After.round
  · rintro next (res | res) <;> exact queue res
  · intro next res
    have accepts := (trims.accepts_iff _).mp ((res.judged _ rfl).mp rfl)
    have same : hash64 next.afl.coverage.fsrv.traceBits = (start.queue.queueBuf q).execCksum := by
      rw [res.traced rfl, trims.frame.classifiedTrace]
      exact accepts.same
    have frame := trims.frame.trans res.frame
    have kept := queue res
    refine ⟨frame, kept, nofun, ?_⟩
    rintro _ ⟨⟩
    rw [res.rest]
    refine ⟨?_, loop.trimExec, ⟨Nat.lt_succ_self _, accepts, fun j later below =>
      absurd later (Nat.not_lt.mpr (Nat.le_of_lt_succ below))⟩, rfl⟩
    -- the trace is saved at the first acceptance only
    change hash64 (if loop.outBuf.isSome then loop.cleanTrace else copyMap
      next.afl.coverage.fsrv.mapSize loop.cleanTrace next.afl.coverage.fsrv.traceBits) = _
    cases out : loop.outBuf with
    | some earlier => exact (trims.some _ out).1
    | none =>
      rw [if_neg (by decide), frame.mapSize, ← same, hashes, mapHash_copyMap]
  · intro next res
    have refused : ¬ Accepts size hash64 q start (rounds loop.trimExec) := fun accepts =>
      absurd ((res.judged _ rfl).mpr ((trims.accepts_iff _).mpr accepts)) (by decide)
    have kept := queue res
    refine ⟨kept, trims.frame.trans res.frame, kept, ?_, ?_⟩
    · rw [res.rest]
      intro empty j below
      rcases Nat.lt_succ_iff_lt_or_eq.mp below with earlier | rfl
      · exact trims.none empty j earlier
      · exact refused
    · rw [res.rest]
      intro out full
      obtain ⟨same, k, ⟨inside, accepts, last⟩, written⟩ := trims.some out full
      refine ⟨same, k, ⟨Nat.lt_succ_of_lt inside, accepts, ?_⟩, written⟩
      intro j later below
      rcases Nat.lt_succ_iff_lt_or_eq.mp below with earlier | rfl
      · exact last j later earlier
      · exact refused

def StopsAfterFailure (calls : List HookCall) : Prop :=
  calls.Pairwise (fun earlier later => earlier.failed = true → later.drives = false)

/-- The limit is no negative number, and while the loop goes on no call has failed. -/
structure Unfailed (loop : TrimLoop) : Prop where
  limit : loop.stageMax.toNat < 2 ^ 31
  stops : StopsAfterFailure loop.calls
  fine : loop.stageCur < loop.stageMax → ∀ call ∈ loop.calls, call.failed = false

private theorem stops_of_fine {calls : List HookCall} (fine : ∀ call ∈ calls, call.failed = false)
    (last : HookCall) : StopsAfterFailure calls ∧ StopsAfterFailure (calls ++ [last]) := by
  have pre : StopsAfterFailure calls :=
    pairwise_of_forall_mem_list (fun _ mem _ _ failed => by simp [fine _ mem] at failed)
  refine ⟨pre, pairwise_append.mpr ⟨pre, pairwise_singleton _ _, ?_⟩⟩
  intro _ mem _ _ failed
  simp [fine _ mem] at failed

theorem Unfailed.round (unfailed : Unfailed loop) (goesOn : loop.stageCur < loop.stageMax)
    (round : TrimRound) :
    After Unfailed (fun last => StopsAfterFailure last.calls)
      (customRound size hash64 q round loop) := by
  have fine : ∀ {verdict next}, Delivers size hash64 q round loop verdict next →
      ∀ call ∈ next.calls, call.failed = false := by
    intro verdict next res call mem
    obtain ⟨_, calls, executes⟩ := res.calls
    rw [calls, mem_append, mem_cons] at mem
    rcases mem with pre | rfl | here
    · exact unfailed.fine goesOn _ pre
    · rfl
    · rw [executes _ here]
      rfl
  -- a negative answer is a large unsigned number, and ends the loop
  have small : round.postTrim < loop.stageMax →
      (HookCall.postTrim round.postTrim).failed = false := by
    intro below
    have limit := unfailed.limit
    rw [BitVec.lt_def] at below
    rw [HookCall.failed, BitVec.toInt_eq_toNat_of_lt (by omega), decide_eq_false_iff_not]
    omega
  have answered : ∀ {verdict next}, Delivers size hash64 q round loop verdict next →
      ∀ next', next'.calls = next.calls ++ [.postTrim round.postTrim] →
      next'.stageCur = round.postTrim → next'.stageMax = loop.stageMax → Unfailed next' := by
    intro verdict next res next' calls cur max
    refine ⟨max ▸ unfailed.limit, calls ▸ (stops_of_fine (fine res) _).2, ?_⟩
    rw [calls, cur, max]
    intro below call mem
    rcases mem_append.mp mem with pre | here
    · exact fine res _ pre
    · rw [mem_singleton.mp here]
      exact small below
  apply After.round
  · rintro next (res | res) <;> exact (stops_of_fine (fine res) .trim).1
  · intro next res
    have max : next.stageMax = loop.stageMax := by rw [res.rest]
    exact answered res _ rfl rfl max
  · intro next res
    have max : next.stageMax = loop.stageMax := by rw [res.rest]
    exact ⟨(stops_of_fine (fine res) _).2, answered res _ rfl rfl max⟩

def Called (called : List HookCall) (loop : TrimLoop) : Prop := called <+: loop.calls

private theorem customRound_calls {called : List HookCall} (pre : called <+: loop.calls ++ [.trim])
    (round : TrimRound) :
    After (Called called) (Called called) (customRound size hash64 q round loop) := by
  have grows : ∀ {verdict next}, Delivers size hash64 q round loop verdict next →
      called <+: next.calls := by
    intro verdict next res
    obtain ⟨_, calls, _⟩ := res.calls
    rw [calls, append_cons]
    exact pre.trans (prefix_append _ _)
  apply After.round
  · rintro next (res | res) <;> exact grows res
  · exact fun next res => (grows res).trans (prefix_append _ _)
  · intro next res
    have answered := (grows res).trans (prefix_append _ [.postTrim round.postTrim])
    exact ⟨answered, answered⟩

variable (trimmer : Trimmer) (afl : Afl) (fuel : Nat)

/-- A trimmer whose first answer is negative is asked for a candidate all the same. -/
private theorem Trimmer.driven_calls (failed : trimmer.initTrim.toInt < 0) :
    [.initTrim trimmer.initTrim, .trim] <+:
      (customLoop size hash64 q trimmer.rounds (fuel + 1) (trimmer.start afl)).2.calls := by
  have goesOn : (trimmer.start afl).stageCur < (trimmer.start afl).stageMax := by
    change 0 % 2 ^ 32 < trimmer.initTrim.toNat
    rw [BitVec.toInt_eq_toNat_cond] at failed
    split at failed <;> omega
  have first := @customRound_calls size hash64 q (trimmer.start afl) _ prefix_rfl (trimmer.rounds 0)
  unfold customLoop
  rw [if_pos goesOn]
  split
  · rename_i next running
    change customRound size hash64 q (trimmer.rounds 0) _ = _ at running
    rw [running] at first
    have asked : Called ((trimmer.start afl).calls ++ [.trim]) next := first
    refine After.elim (After.loop (fun loop grown _ => ?_) _ asked) (fun _ => id) (fun _ => id)
    exact customRound_calls (List.IsPrefix.trans grown (prefix_append _ _)) _
  · exact first.elim (fun _ => id) (fun _ => id)

private theorem Trimmer.driven_stops (fine : 0 ≤ trimmer.initTrim.toInt) :
    StopsAfterFailure
      (customLoop size hash64 q trimmer.rounds fuel (trimmer.start afl)).2.calls := by
  have start : Unfailed (trimmer.start afl) := by
    refine ⟨?_, pairwise_singleton _ _, ?_⟩
    · change trimmer.initTrim.toNat < 2 ^ 31
      rw [BitVec.toInt_eq_toNat_cond] at fine
      split at fine <;> omega
    · intro _ call mem
      rw [mem_singleton.mp mem]
      exact decide_eq_false (Int.not_lt.mpr fine)
  refine After.elim (After.loop ?_ _ start) (fun _ => Unfailed.stops) (fun _ => id)
  exact fun _ unfailed goesOn => unfailed.round goesOn _

/-- A trimmer that has failed is driven no further exactly if the hint keeps the
sign, or its first answer is not negative. -/
theorem failing_trimmer_stopped_iff (size : WordSize) (hash64 : Buffer → BitVec 64)
    (q gnuc fuel : Nat) (trimmer : Trimmer) (afl : Afl) :
    StopsAfterFailure (trimmer.drive size hash64 q gnuc (fuel + 1) afl).2.calls ↔
      gnuc < 6 ∨ 0 ≤ trimmer.initTrim.toInt := by
  unfold Trimmer.drive
  by_cases fine : 0 ≤ trimmer.initTrim.toInt
  · refine ⟨fun _ => .inr fine, fun _ => ?_⟩
    split
    · exact pairwise_singleton _ _
    · exact trimmer.driven_stops _ _ fine
  · have failed := Int.not_le.mp fine
    unfold unlikely
    by_cases old : gnuc < 6
    · rw [if_pos old, if_pos failed]
      exact ⟨fun _ => .inl old, fun _ => pairwise_singleton _ _⟩
    · rw [if_neg old, if_neg (Int.ne_of_lt failed)]
      refine ⟨fun stops => ?_, fun either => (either.elim old fine).elim⟩
      have pair := stops.sublist (trimmer.driven_calls _ _ failed).sublist
      have stopped := pairwise_pair.mp pair (decide_eq_true failed)
      exact (Bool.noConfusion stopped)

def failingTrimmer : Trimmer where
  initTrim := -1
  rounds := fun _ => ⟨some [0], [0], ⟨.ok, fun _ => 0, false⟩, 0⟩

theorem failing_trimmer_driven :
    failingTrimmer.initTrim.toInt < 0 ∧
      (failingTrimmer.drive .size64 (fun _ => 0) 0 6 1 twoSeeds).2.calls =
        [.initTrim (-1), .trim, .execute, .postTrim 0] := by
  decide

end Trimming

end AflPlusPlus
