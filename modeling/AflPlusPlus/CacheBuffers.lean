/-
The memory behind the cached test cases.

Every `testcase_buf` should hold at least `q->len` bytes.  The default trimmer
takes its result back with a `realloc` that only ever shrinks the buffer, while
a post-processing hook may return any size up to `max_length`.
-/

import AflPlusPlus.CacheAccounting

namespace AflPlusPlus

open Machine Function

structure Fitted (s : CacheState) : Prop where
  sound : CacheInvariant s.cache
  fits : ∀ q, s.cache.testcaseBuf q = true → (s.len q).toNat ≤ s.bufSize q

variable {len : BitVec 32} {q : Nat}

section

variable {s : CacheState} (fitted : Fitted s)
include fitted

theorem Fitted.withCache {call : CacheCall} {cache : Testcache}
    (sound : CacheInvariant cache) (moves : CacheMoves (s.calling call) q s.cache cache) :
    Fitted (s.withCache q cache) := by
  refine ⟨sound, ?_⟩
  intro e cached
  change (s.len e).toNat ≤ (s.withCache q cache).bufSize e
  change cache.testcaseBuf e = true at cached
  unfold CacheState.withCache
  dsimp only
  by_cases same : e = q
  · rw [same] at cached ⊢
    cases already : s.cache.testcaseBuf q with
    | true =>
      rw [cached]
      exact fitted.fits q already
    | false =>
      rw [cached]
      change _ ≤ update s.bufSize q (s.len q).toNat q
      rw [update_self]
  · have pre : s.cache.testcaseBuf e = true := by
      by_contra out
      rw [moves.others e same (Bool.eq_false_of_not_eq_true out)] at cached
      cases cached
    split
    · rw [update_of_ne same]
      exact fitted.fits e pre
    · exact fitted.fits e pre

variable (call : CacheCall)

theorem Fitted.testcaseGet (q : Nat) :
    Ensures (fun res => Fitted res.2) (s.testcaseGet call q) := by
  have sound := fitted.sound
  have got := (sound.queueTestcaseGet (s.calling _) q).and
    (sound.queueTestcaseGet_moves (s.calling call) q)
  exact got.bind (fun res facts => fitted.withCache facts.1.1 facts.2)

private theorem Fitted.testcaseStoreMem (q : Nat) (uncached : s.cache.testcaseBuf q = false) :
    Ensures Fitted (s.testcaseStoreMem call q) := by
  have sound := fitted.sound
  have stored := (sound.queueTestcaseStoreMem (s.calling _) q uncached).and
    (sound.queueTestcaseStoreMem_moves (s.calling call) q uncached)
  exact stored.bind (fun res facts => fitted.withCache facts.1.1 facts.2)

theorem Fitted.copyInto (enough : len.toNat ≤ s.bufSize q) :
    Ensures Fitted (s.copyInto q len) := by
  unfold CacheState.copyInto
  rw [if_pos enough]
  exact fitted

end

section Retake

variable {s : CacheState} (fitted : Fitted s) {afl : Afl} {q : Nat}
  (others : ∀ e, e ≠ q → (afl.queue.queueBuf e).len = s.len e)

include fitted others

theorem Fitted.unresized (enough : s.cache.testcaseBuf q = true →
    ((s.withAfl afl).len q).toNat ≤ s.bufSize q) : Fitted (s.withAfl afl) := by
  refine ⟨fitted.sound, ?_⟩
  intro e cached
  by_cases same : e = q
  · rw [same] at cached ⊢
    exact enough cached
  · change (afl.queue.queueBuf e).len.toNat ≤ s.bufSize e
    rw [others e same]
    exact fitted.fits e cached

variable (cacheSize : BitVec 64)

private theorem Fitted.resized :
    Fitted ((s.withAfl afl).resize q ((s.withAfl afl).len q) cacheSize) := by
  refine ⟨fitted.sound.withSize _, ?_⟩
  intro e cached
  change (afl.queue.queueBuf e).len.toNat ≤ update s.bufSize q (afl.queue.queueBuf q).len.toNat e
  by_cases same : e = q
  · rw [same, update_self]
  · rw [update_of_ne same, others e same]
    exact fitted.fits e cached

theorem Fitted.resized_copyInto :
    Ensures Fitted (((s.withAfl afl).resize q ((s.withAfl afl).len q) cacheSize).copyInto q
      ((s.withAfl afl).len q)) := by
  apply (fitted.resized others _).copyInto
  change _ ≤ update s.bufSize q ((s.withAfl afl).len q).toNat q
  rw [update_self]

theorem Fitted.testcaseRetake (granted : Bool) :
    Ensures Fitted ((s.withAfl afl).testcaseRetake granted q (s.len q)) := by
  unfold CacheState.testcaseRetake
  dsimp only
  by_cases cached : (s.withAfl afl).cache.testcaseBuf q = true
  · rw [if_pos cached]
    split
    · split
      · exact fitted.resized_copyInto others _
      · rfl
    · rename_i unmoved
      have notLonger := BitVec.le_def.1 (BitVec.not_lt.1 (fun longer => unmoved (.inl longer)))
      have enough := notLonger.trans (fitted.fits q cached)
      exact (fitted.unresized others (fun _ => enough)).copyInto enough
  · rw [if_neg cached]
    exact fitted.unresized others (fun bad => absurd bad cached)

theorem Fitted.testcaseRetakeMem (granted inPlace : Bool) (enough : s.cache.testcaseBuf q = true →
      ((s.withAfl afl).len q).toNat ≤ s.bufSize q) :
    Ensures Fitted ((s.withAfl afl).testcaseRetakeMem granted inPlace q
      ((s.withAfl afl).len q) (s.len q)) := by
  have unresized := fitted.unresized others enough
  unfold CacheState.testcaseRetakeMem
  by_cases cached : (s.withAfl afl).cache.testcaseBuf q = true
  · rw [if_pos cached]
    split
    · exact unresized
    · split
      · exact fitted.resized_copyInto others _
      · exact unresized.copyInto (enough cached)
  · rw [if_neg cached]
    exact unresized

end Retake

/-- What the hooks make of a trimmed entry still fits its buffer. -/
def TrimFits (size : WordSize) (hash64 : Buffer → BitVec 64) (call : TrimCall) (q : Nat)
    (s : CacheState) : Prop :=
  (∀ mutator ∈ call.mutators, mutator.customTrim = none) → 5 ≤ (s.len q).toNat →
    TrimMatch size hash64 call.runs q s.afl →
    call.mutators ≠ [] ∧ call.keepOriginal = false →
    if (postProcess call.mutators (.inBuf, 0)).2 = 0 then call.minLength.toNat ≤ s.bufSize q
    else call.clampLength (postProcess call.mutators (.inBuf, 0)).2 ≤ s.bufSize q

variable (call : TrimCall)

private theorem TrimCall.clampLength_range (length : Int) :
    0 ≤ call.clampLength length ∧ call.clampLength length < 2 ^ 32 := by
  unfold TrimCall.clampLength
  split
  · omega
  · split <;> omega

private theorem TrimCall.clampLength_toNat (length : Int) :
    ((BitVec.ofInt 32 (call.clampLength length)).toNat : Int) = call.clampLength length := by
  have range := call.clampLength_range length
  rw [BitVec.toNat_ofInt]
  omega

private theorem TrimCall.postProcessed_le {call : TrimCall} {bound : Nat} (fits : len.toNat ≤ bound)
    (hooks : call.mutators ≠ [] ∧ call.keepOriginal = false →
      if (postProcess call.mutators (.inBuf, 0)).2 = 0 then call.minLength.toNat ≤ bound
      else call.clampLength (postProcess call.mutators (.inBuf, 0)).2 ≤ bound) :
    (call.postProcessed len).2.toNat ≤ bound := by
  by_cases active : call.mutators ≠ [] ∧ call.keepOriginal = false
  · have hooks := hooks active
    by_cases sized : (postProcess call.mutators (.inBuf, 0)).2 = 0
    · rw [if_pos sized] at hooks
      rw [TrimCall.postProcessed_of_unsized active sized]
      have clamped := call.clampLength_toNat len.toNat
      have small : call.clampLength len.toNat ≤ bound := by
        unfold TrimCall.clampLength
        split
        · omega
        · split <;> omega
      dsimp only
      omega
    · rw [if_neg sized] at hooks
      rw [TrimCall.postProcessed_of_sized active sized]
      have clamped := call.clampLength_toNat (postProcess call.mutators (.inBuf, 0)).2
      dsimp only
      omega
  · unfold TrimCall.postProcessed
    rw [if_neg active]
    exact fits

section Trimming

variable {size : WordSize} {hash64 : Buffer → BitVec 64} {call : TrimCall} {q : Nat}
  {s : CacheState} (fitted : Fitted s)

include fitted

private theorem Fitted.writeBack {trimmed : Afl}
    (others : ∀ e, e ≠ q → (trimmed.queue.queueBuf e).len = s.len e)
    (enough : s.cache.testcaseBuf q = true →
      (call.postProcessed ((s.withAfl trimmed).len q)).2.toNat ≤ s.bufSize q) :
    Ensures Fitted ((s.withAfl trimmed).writeBack call q (s.len q)) := by
  have resized : ∀ e, e ≠ q → ((trimmed.modifyEntry q (QueueEntry.withLen
      (call.postProcessed ((s.withAfl trimmed).len q)).2)).queue.queueBuf e).len = s.len e :=
    fun e other => (Afl.withLen_len_of_ne other _ _).trans (others e other)
  have written : (call.postProcessed ((s.withAfl trimmed).len q)).2 =
      (s.withAfl (trimmed.modifyEntry q (QueueEntry.withLen
        (call.postProcessed ((s.withAfl trimmed).len q)).2))).len q :=
    (Afl.withLen_len_self q _ _).symm
  have retaken := fitted.testcaseRetakeMem resized call.granted
    ((call.postProcessed ((s.withAfl trimmed).len q)).1 == .inBuf)
    (by rw [← written]; exact enough)
  rw [← written] at retaken
  refine retaken.bind ?_
  intro taken fittedTaken
  refine ⟨fittedTaken.sound, ?_⟩
  intro e cached
  change ((taken.afl.scoreTrimmed q).queue.queueBuf e).len.toNat ≤ taken.bufSize e
  rw [Afl.scoreTrimmed_len]
  exact fittedTaken.fits e cached

variable (known : s.cache.testcaseBuf q = true → TrimFits size hash64 call q s)

include known

private theorem Fitted.trimDefault (plain : ∀ mutator ∈ call.mutators, mutator.customTrim = none) :
    Ensures (fun res => Fitted res.2) (s.trimDefault size hash64 call q (s.len q)) := by
  unfold CacheState.trimDefault
  have shrinks := trimLoops_shrinks size hash64 call.runs q s.afl
  have progress := TrimProgress.loops size hash64 call.runs q s.afl
  have others : ∀ e, e ≠ q → ((trimLoops size hash64 call.runs q s.afl).2.afl.queue.queueBuf
      e).len = s.len e :=
    fun e other => congrArg QueueEntry.len (shrinks.others e other)
  have enough : s.cache.testcaseBuf q = true →
      ((s.withAfl (trimLoops size hash64 call.runs q s.afl).2.afl).len q).toNat ≤ s.bufSize q :=
    fun cached => shrinks.shorter.trans (fitted.fits q cached)
  split
  · exact fitted
  · rename_i long
    dsimp only
    split
    · rename_i wrote
      refine (fitted.writeBack others ?_).bind (fun written fittedWritten => fittedWritten)
      intro cached
      exact TrimCall.postProcessed_le (enough cached)
        (known cached plain (Nat.le_of_not_lt long) (progress.matched wrote.2))
    · exact fitted.unresized others enough

theorem Fitted.trimCase :
    Ensures (fun res => Fitted res.2) (s.trimCase size hash64 call q) := by
  have shrinks := customTrims_shrinks size hash64 q call.mutators (none, s.afl)
  cases trimmed : (customTrims size hash64 q call.mutators (none, s.afl)).1 with
  | some fault =>
    rw [CacheState.trimCase_custom trimmed]
    exact (fitted.testcaseRetake shrinks.others call.granted).bind
      (fun taken fittedTaken => fittedTaken)
  | none =>
    rw [CacheState.trimCase_default trimmed]
    have without := customTrims_none _ _ q call.mutators s.afl trimmed
    exact fitted.trimDefault known without.2

end Trimming

def BytesStep.Fits (size : WordSize) (hash64 : Buffer → BitVec 64) (s : CacheState)
    (step : BytesStep) : Prop :=
  step.Admissible s ∧ ∀ call q, step = .trim call q → s.cache.testcaseBuf q = true →
    TrimFits size hash64 call q s

private theorem Fitted.apply {size : WordSize} {hash64 : Buffer → BitVec 64} {s : CacheState}
    (fitted : Fitted s) (step : BytesStep) (fits : step.Fits size hash64 s) :
    Ensures Fitted (step.apply size hash64 s) := by
  cases step with
  | get call q => exact (fitted.testcaseGet _ q).bind (fun res done => done)
  | storeMem call q => exact fitted.testcaseStoreMem _ q fits.1
  | trim call q => exact (fitted.trimCase (fits.2 _ q rfl)).bind (fun res done => done)
  | elsewhere afl =>
    refine ⟨fitted.sound, ?_⟩
    intro q cached
    change (afl.queue.queueBuf q).len.toNat ≤ s.bufSize q
    rw [fits.1 q cached]
    exact fitted.fits q cached

/-- As long as what the hooks make of a trimmed cached entry fits its buffer, no
copy goes past the end of a buffer and every buffer holds its entry. -/
theorem cached_buffers_large_enough_of_run (size : WordSize) (hash64 : Buffer → BitVec 64)
    (entries : Nat) (maxCacheSize : BitVec 64) (afl : Afl) (served : entries * 8 ≤ maxAlloc)
    (steps : List BytesStep)
    (admitted : Along (bytesStep size hash64) (stepGuard (BytesStep.Fits size hash64))
      (.ok (CacheState.fresh entries maxCacheSize afl)) steps) :
    Ensures (fun s => ∀ q, s.cache.testcaseBuf q = true → (s.len q).toNat ≤ s.bufSize q)
      (runFrom (bytesStep size hash64) (.ok (CacheState.fresh entries maxCacheSize afl))
        steps) := by
  have start : Fitted (CacheState.fresh entries maxCacheSize afl) :=
    ⟨Testcache.fresh_invariant served, nofun⟩
  have fitted := runFrom_invariant (Ensures Fitted) (by
      intro s step fitted fits
      cases s with
      | ok reached => exact fitted.apply _ fits
      | error trap => exact fitted)
    (.ok (CacheState.fresh _ _ _)) start _ admitted
  exact fitted.mono (fun s fitted => fitted.fits)

/-- A mutator that answers every post-processing with `size` bytes of its own. -/
def rewriter (size : Int) : Mutator where
  customTrim := none
  postProcess := some ⟨size, some .own⟩

/-- Entry 0 is cached and trimmed; the hook shrinks the result to two bytes. -/
theorem cached_buffers_large_enough_of_run_small_hook :
    2 * 8 ≤ maxAlloc ∧ Ensures (fun s => ∀ q, s.cache.testcaseBuf q = true →
          (s.len q).toNat ≤ s.bufSize q)
        (runFrom (bytesStep .size64 (fun _ => 0)) (.ok (CacheState.fresh 2 4096 twoSeeds))
          [.get (callFor 0) 0, .trim (quietTrim [rewriter 2]) 0]) := by
  refine ⟨by decide, cached_buffers_large_enough_of_run .size64 (fun _ => 0) 2 4096 twoSeeds
    (by decide) _ ?_⟩
  refine ⟨⟨trivial, nofun⟩, ⟨trivial, ?_⟩, trivial⟩
  rintro call q ⟨⟩ _ _ _ _ _
  decide +kernel

/-- The hook answers with 100 bytes for an entry that was cached with 16: the
copy into `testcase_buf` writes past its end. -/
theorem hook_overflows_cached_buffer :
    runFrom (bytesStep .size64 (fun _ => 0)) (.ok (CacheState.fresh 2 4096 twoSeeds))
        [.get (callFor 0) 0, .trim (quietTrim [rewriter 100]) 0] matches .error .badAccess := by
  decide +kernel

end AflPlusPlus
