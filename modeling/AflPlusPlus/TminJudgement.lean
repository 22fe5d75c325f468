/-
Which candidate a run of afl-tmin judges.

A hook may refuse a candidate.  Nothing is delivered then, but the target runs all the
same, on what an earlier candidate left behind, and its verdict counts for the refused
one.
-/

import AflPlusPlus.TminTarget

namespace AflPlusPlus.Tmin

open Machine

variable {Data : Type}

/-- The processed bytes, and whether they still stand in the candidate's own buffer. -/
structure Processed where
  bytes : List Byte
  isMem : Bool

/-- What one hook made: a buffer that it names itself and at least one byte of it. -/
def HookReturn.output (isMem : Bool) (answer : HookReturn) : Option Processed :=
  if answer.newSize ≤ 0 then none
  else
    match answer.outBuf with
    | .untouched => none
    | .null => none
    | .input content => some ⟨block content 0 answer.newSize.toNat, isMem⟩
    | .own content => some ⟨block content 0 answer.newSize.toNat, false⟩

/-- The post-processed form of a candidate, with the mutators as the hooks leave
them.  There is none when a hook makes nothing of it. -/
def postProcessed : List (CustomMutator Data) → Processed →
    Option (Processed × List (CustomMutator Data))
  | [], form => some (form, [])
  | el :: rest, form =>
    match el.postProcess with
    | none => (postProcessed rest form).map (fun post => (post.1, el :: post.2))
    | some hook =>
      let (answer, data) := hook el.data form.bytes
      (answer.output form.isMem).bind (fun form =>
        (postProcessed rest form).map (fun post =>
          (post.1, { el with data := data } :: post.2)))

structure Fits (cfg : Settings) (muts : List (CustomMutator Data)) (form : Processed) :
    Prop where
  sized : form.bytes.length < 2 ^ 32
  copied : form.isMem = false → form.bytes.length ≤ maxFile
  shared : hasSender muts = false → cfg.useShmemFuzz = true → form.bytes.length ≤ maxFile

variable {post : List (CustomMutator Data)} {form : Processed}

variable {muts : List (CustomMutator Data)} {cands : List (List Byte)} {out : Processed}

/-- Only a buffer that the hook itself named makes a form. -/
private theorem accepted_of_output {answer : HookReturn} {newMem : Pointer}
    (output : answer.output newMem.isMem = some form) (newBuf : Option Pointer) :
    ∃ ptr, PostOutcome.accepted ⟨answer.newSize, answer.outBuf.write newMem newBuf⟩ =
        some (ptr, answer.newSize) ∧
      ptr.bytes answer.newSize.toNat = form.bytes ∧ ptr.isMem = form.isMem := by
  obtain ⟨outBuf, size⟩ := answer
  unfold HookReturn.output at output
  by_cases empty : size ≤ 0
  · rw [if_pos empty] at output
    cases output
  · rw [if_neg empty] at output
    cases outBuf with
    | untouched | null => cases output
    | input content | own content =>
      cases output
      exact ⟨_, if_neg empty, rfl, rfl⟩

section

variable (processed : postProcessed muts form = some (out, post))

include processed

theorem postProcessAll_of_processed {newMem : Pointer} {newSize : Nat} (newBuf : Option Pointer)
    (holds : newMem.bytes newSize = form.bytes) (place : newMem.isMem = form.isMem) :
    ∃ last, postProcessAll muts newMem newSize newBuf = (post, some (last, out.bytes.length)) ∧
      last.bytes out.bytes.length = out.bytes ∧ last.isMem = out.isMem := by
  induction muts generalizing form post newMem newSize newBuf with
  | nil =>
    cases processed
    have size : newSize = out.bytes.length := by rw [← holds, length_bytes]
    subst size
    exact ⟨newMem, rfl, holds, place⟩
  | cons el rest ih =>
    unfold postProcessed at processed
    unfold postProcessAll
    cases hooked : el.postProcess with
    | none =>
      rw [hooked] at processed
      obtain ⟨⟨last, others⟩, tail, same⟩ := Option.map_eq_some_iff.mp processed
      cases same
      obtain ⟨ptr, loop, facts⟩ := ih tail newBuf holds place
      refine ⟨ptr, ?_, facts⟩
      rw [loop]
    | some hook =>
      rw [hooked] at processed
      dsimp only at processed ⊢
      rw [holds]
      obtain ⟨made, output, processed⟩ := Option.bind_eq_some_iff.mp processed
      obtain ⟨⟨last, others⟩, tail, same⟩ := Option.map_eq_some_iff.mp processed
      cases same
      rw [← place] at output
      obtain ⟨ptr, accepted, read, kept⟩ := accepted_of_output output newBuf
      obtain ⟨final, loop, facts⟩ := ih tail (some ptr) read kept
      refine ⟨final, ?_, facts⟩
      rw [accepted]
      dsimp only
      rw [loop]

theorem hasSender_of_processed :
    hasSender post = hasSender muts := by
  induction muts generalizing form post with
  | nil =>
    cases processed
    rfl
  | cons el rest ih =>
    unfold postProcessed at processed
    cases hooked : el.postProcess with
    | none =>
      rw [hooked] at processed
      obtain ⟨⟨last, others⟩, tail, same⟩ := Option.map_eq_some_iff.mp processed
      cases same
      exact congrArg (el.fuzzSend.isSome || ·) (ih tail)
    | some hook =>
      rw [hooked] at processed
      obtain ⟨_, _, processed⟩ := Option.bind_eq_some_iff.mp processed
      obtain ⟨⟨last, others⟩, tail, same⟩ := Option.map_eq_some_iff.mp processed
      cases same
      exact congrArg (el.fuzzSend.isSome || ·) (ih tail)

end

private theorem fuzzSend_aflCustomFuzzSend (el : CustomMutator Data) (mem : List Byte) :
    (el.aflCustomFuzzSend mem).fuzzSend = el.fuzzSend := by
  unfold CustomMutator.aflCustomFuzzSend
  split <;> rfl

@[simp] theorem hasSender_fuzzSendAll (muts : List (CustomMutator Data)) (mem : List Byte) :
    hasSender (fuzzSendAll muts mem) = hasSender muts := by
  unfold hasSender fuzzSendAll
  rw [List.any_map]
  simp only [Function.comp_def, fuzzSend_aflCustomFuzzSend]

def Carries (muts : List (CustomMutator Data)) (testcase : List Byte)
    (sent : Option (List Byte)) (bytes : List Byte) : Prop :=
  (if hasSender muts then sent else some testcase) = some bytes

def mutatorsAfter (post : List (CustomMutator Data)) (form : Processed) :
    List (CustomMutator Data) :=
  if hasSender post then fuzzSendAll post form.bytes else post

variable {cfg : Settings} {s : TminState Data} {mem : List Byte}
  (processed : postProcessed s.mutators ⟨mem, true⟩ = some (form, post))

include processed

theorem delivery_of_fits (fits : Fits cfg s.mutators form) :
    ∃ testcase sent, preAflFsrvWriteToTestcase cfg s mem =
        .ok ({ s with mutators := mutatorsAfter post form, testcase := testcase }, sent) ∧
      Carries (mutatorsAfter post form) testcase sent form.bytes := by
  obtain ⟨last, loop, bytes, place⟩ :=
    postProcessAll_of_processed processed none (bytes_ofCandidate mem) rfl
  have roomy : ¬ (last.isMem = false ∧ maxFile < form.bytes.length) := by
    rintro ⟨own, long⟩
    exact Nat.not_lt.mpr (fits.copied (place ▸ own)) long
  unfold preAflFsrvWriteToTestcase mutatorsAfter Carries
  rw [loop]
  dsimp only
  rw [if_neg roomy, Nat.mod_eq_of_lt fits.sized, bytes]
  cases sends : hasSender post with
  | true => exact ⟨s.testcase, some form.bytes, rfl, by simp [sends]⟩
  | false =>
    have whole : aflFsrvWriteToTestcase cfg.useShmemFuzz form.bytes = form.bytes := by
      unfold aflFsrvWriteToTestcase
      split
      · next shmem =>
          have none := (hasSender_of_processed processed).symm.trans sends
          exact List.take_of_length_le (fits.shared none shmem)
      · rfl
    exact ⟨form.bytes, none, by rw [whole]; rfl, by simp [sends]⟩

private theorem fits_of_delivery {next : TminState Data} {sent : Option (List Byte)}
    (delivers : preAflFsrvWriteToTestcase cfg s mem = .ok (next, sent))
    (carries : Carries next.mutators next.testcase sent form.bytes) :
    Fits cfg s.mutators form := by
  obtain ⟨_, loop, _, place⟩ :=
    postProcessAll_of_processed processed none (bytes_ofCandidate mem) rfl
  have senders := hasSender_of_processed processed
  unfold preAflFsrvWriteToTestcase at delivers
  rw [loop] at delivers
  dsimp only at delivers
  split at delivers
  · cases delivers
  · next roomy =>
      have copied : form.isMem = false → form.bytes.length ≤ maxFile := by
        intro own
        by_contra long
        exact roomy ⟨place.trans own, Nat.lt_of_not_le long⟩
      unfold Carries at carries
      -- the length that arrives is the length that was sent
      cases sends : hasSender post with
      | true =>
        rw [sends] at delivers
        cases delivers
        rw [hasSender_fuzzSendAll, sends] at carries
        have lengths := congrArg List.length (Option.some.inj carries)
        rw [length_bytes] at lengths
        refine ⟨by omega, copied, ?_⟩
        intro none
        rw [← senders, sends] at none
        cases none
      | false =>
        rw [sends] at delivers
        cases delivers
        rw [sends] at carries
        have lengths := congrArg List.length (Option.some.inj carries)
        unfold aflFsrvWriteToTestcase at lengths
        by_cases shmem : cfg.useShmemFuzz = true
        · rw [if_pos shmem, List.length_take, length_bytes] at lengths
          exact ⟨by omega, copied, fun _ _ => by omega⟩
        · rw [if_neg shmem, length_bytes] at lengths
          exact ⟨by omega, copied, fun _ present => (shmem present).elim⟩

omit processed

/-- The call answers "keep" only about the processed form of its own candidate. -/
def JudgesOwn (muts : List (CustomMutator Data)) (cand : List Byte) (call : Call Data) :
    Prop :=
  call.kept = true → ∃ form post, postProcessed muts ⟨cand, true⟩ = some (form, post) ∧
      call.delivered = some form.bytes

/-- The dry run and the calls after it, with a target that may do something else in
every run.  A session that ends itself has no further calls. -/
def JudgesAll (cfg : Settings) (hash64 : Buffer → BitVec 64)
    (target : Nat → Delivery → Outcome) : Nat → TminState Data → List (List Byte) → Prop
  | _, _, [] => True
  | run, s, cand :: rest =>
    Ensures (fun call => JudgesOwn s.mutators cand call ∧
        JudgesAll cfg hash64 target (run + 1) call.state rest)
      (tminRunTarget cfg hash64 (target run) s cand (decide (run = 0)))

def Processable (cfg : Settings) : List (CustomMutator Data) → List (List Byte) → Prop
  | _, [] => True
  | muts, cand :: rest => ∃ form post, postProcessed muts ⟨cand, true⟩ = some (form, post) ∧
        Fits cfg muts form ∧ Processable cfg (mutatorsAfter post form) rest

def TminState.start (muts : List (CustomMutator Data)) (testcase : List Byte) :
    TminState Data :=
  { mutators := muts, testcase := testcase, crashMode := false, origCksum := 0 }

variable {hash64 : Buffer → BitVec 64}
  {origCksum : BitVec 64} {outcome : Outcome} {crashMode firstRun : Bool}

private theorem compareCksum_ensures :
    Ensures (fun _ => True) (compareCksum cfg hash64 outcome firstRun crashMode origCksum) := by
  unfold compareCksum
  split
  · rfl
  · trivial

private theorem judge_ensures :
    Ensures (fun _ => True) (judge cfg hash64 outcome firstRun crashMode origCksum) := by
  unfold judge
  split
  · rfl
  · split
    · rfl
    · split
      · trivial
      · split
        · trivial
        · split
          · dsimp only
            split
            · split
              · exact compareCksum_ensures
              · trivial
            · trivial
          · split
            · trivial
            · exact compareCksum_ensures

private theorem judgesAll_of_processable (target : Nat → Delivery → Outcome) (run : Nat)
    (processable : Processable cfg s.mutators cands) :
    JudgesAll cfg hash64 target run s cands := by
  induction cands generalizing run s with
  | nil => trivial
  | cons cand rest ih =>
    obtain ⟨form, post, processed, fits, others⟩ := processable
    obtain ⟨_, _, delivers, carries⟩ := delivery_of_fits processed fits
    unfold JudgesAll tminRunTarget
    rw [delivers, checked_ok_bind]
    refine Ensures.bind (judge_ensures) ?_
    intro judgement _
    exact ⟨fun _ => ⟨form, post, processed, carries⟩, ih _ others⟩

def steadyOutcome (cfg : Settings) : Outcome :=
  { ret := if cfg.hangMode then .tmout else .ok, traceBits := fun _ => 0, stopSoon := false }

def Steady (cfg : Settings) (hash64 : Buffer → BitVec 64) (run : Nat) (s : TminState Data) : Prop :=
  s.crashMode = false ∧ (run = 0 ∨ s.origCksum = cfg.cksum hash64 (steadyOutcome cfg) ∨
      cfg.hangMode = true)

variable {run : Nat} (steady : Steady cfg hash64 run s)

include steady in
private theorem judge_steady :
    ∃ origCksum, judge cfg hash64 (steadyOutcome cfg) (decide (run = 0))
        s.crashMode s.origCksum = .ok ⟨true, false, origCksum⟩ ∧
      (origCksum = cfg.cksum hash64 (steadyOutcome cfg) ∨ cfg.hangMode = true) := by
  obtain ⟨calm, seen⟩ := steady
  rw [calm]
  cases hang : cfg.hangMode with
  | true => exact ⟨s.origCksum, by simp [judge, steadyOutcome, hang], .inr rfl⟩
  | false =>
    have ok : (steadyOutcome cfg).ret = .ok := by simp [steadyOutcome, hang]
    have compares : judge cfg hash64 (steadyOutcome cfg) (decide (run = 0)) false
        s.origCksum = compareCksum cfg hash64 (steadyOutcome cfg)
          (decide (run = 0)) false s.origCksum := by
      simp [judge, hang, steadyOutcome]
    refine ⟨cfg.cksum _ (steadyOutcome _), ?_, .inl rfl⟩
    rw [compares]
    by_cases first : run = 0
    · simp [compareCksum, ok, first]
    · have same : s.origCksum = cfg.cksum hash64 (steadyOutcome cfg) := by
        rcases seen with now | same | bad
        · exact (first now).elim
        · exact same
        · rw [hang] at bad
          cases bad
      simp [compareCksum, ok, first, same]

/-- Delivering does not touch what is remembered of the first run, and the static
buffer is all that can be too small for it. -/
private theorem delivery_frame (cfg : Settings) (s : TminState Data) (mem : List Byte) :
    match preAflFsrvWriteToTestcase cfg s mem with
    | .error trap => trap = .badAccess
    | .ok (next, _) => next.crashMode = s.crashMode ∧ next.origCksum = s.origCksum := by
  unfold preAflFsrvWriteToTestcase
  rcases postProcessAll s.mutators (.ofCandidate mem) mem.length none with
    ⟨muts, _ | ⟨newMem, newSize⟩⟩
  · exact ⟨rfl, rfl⟩
  · by_cases long : newMem.isMem = false ∧ maxFile < newSize
    · simp only [if_pos long]
    · cases sends : hasSender muts with
      | true => simp [if_neg long, sends]
      | false => simp [long, sends]

include steady in
private theorem processable_of_judgesAll
    (judges : JudgesAll cfg hash64 (fun _ _ => steadyOutcome cfg) run s cands) :
    Processable cfg s.mutators cands := by
  induction cands generalizing run s with
  | nil => trivial
  | cons cand rest ih =>
    have frame := delivery_frame cfg s cand
    unfold JudgesAll tminRunTarget at judges
    cases delivers : preAflFsrvWriteToTestcase cfg s cand with
    | error trap =>
      rw [delivers] at judges frame
      cases frame
      cases judges
    | ok delivered =>
      obtain ⟨next, _⟩ := delivered
      rw [delivers] at judges frame
      obtain ⟨modes, cksums⟩ := frame
      have still : Steady cfg hash64 run next := by
        unfold Steady
        rw [modes, cksums]
        exact steady
      obtain ⟨_, judged, remembered⟩ := judge_steady still
      rw [checked_ok_bind] at judges
      dsimp only at judges
      rw [judged] at judges
      -- the target behaves as in the first run, so the call keeps the candidate
      obtain ⟨own, others⟩ := judges
      obtain ⟨form, post, processed, carries⟩ := own rfl
      have fits := fits_of_delivery processed delivers carries
      obtain ⟨_, _', again, _⟩ := delivery_of_fits processed fits
      rw [delivers] at again
      cases again
      exact ⟨form, post, processed, fits, ih ⟨rfl, .inr remembered⟩ others⟩

/-- Whatever the target does, a session of afl-tmin keeps a candidate only for a run
on its own post-processed form: exactly when every candidate has such a form and
the form fits where it is put. -/
theorem candidates_judged_iff (cfg : Settings) (hash64 : Buffer → BitVec 64)
    (muts : List (CustomMutator Data)) (testcase : List Byte)
    (cands : List (List Byte)) :
    (∀ target, JudgesAll cfg hash64 target 0 (.start muts testcase) cands) ↔
      Processable cfg muts cands := by
  constructor
  · intro judges
    have steady : Steady cfg hash64 0 (TminState.start muts testcase) := ⟨rfl, .inl rfl⟩
    exact processable_of_judgesAll steady (judges (fun _ _ => steadyOutcome _))
  · intro processable target
    exact judgesAll_of_processable _ 0 processable

/-- Works in place and does not send inputs of less than two bytes, in the way the
documentation gives: no buffer and size 0. -/
def refusesShort : CustomMutator Unit :=
  { data := ()
    trimHooks := none
    postProcess := some (fun _ bytes =>
      (if bytes.length < 2 then ⟨.null, 0⟩
        else ⟨.input (fun i => bytes.getD i 0), bytes.length⟩, ()))
    fuzzSend := none }

def plainSettings : Settings :=
  { hangMode := false, exactMode := false, edgesOnly := false, useShmemFuzz := true
    mapSize := 8, maskBitmap := none }

/-- The dry run on `AB` and then the candidate `A`, with a target that ends well. -/
def refusedSession : Checked (Call Unit) := do
  let ended : Delivery → Outcome := fun _ =>
    { ret := .ok, traceBits := fun _ => 1, stopSoon := false }
  let dryRun ← tminRunTarget plainSettings (fun _ => 7) ended (.start [refusesShort] [])
    [65, 66] true
  tminRunTarget plainSettings (fun _ => 7) ended dryRun.state [65] false

/-- The hook refuses `A`; the target runs on `AB` once more, and `A` is kept. -/
theorem refused_candidate_kept :
    postProcessed [refusesShort] ⟨[65], true⟩ = none ∧
      refusedSession.map (fun call => (call.kept, call.delivered)) = .ok (true, some [65, 66]) :=
  ⟨rfl, rfl⟩

end AflPlusPlus.Tmin
