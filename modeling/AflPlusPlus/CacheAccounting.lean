/-
The byte count of the testcase cache.

`q_testcase_cache_size` should be the sum of the lengths of the cached entries.  A trimmed
entry is weighed again only where its buffer is reallocated, and never when the cached
buffer itself was trimmed in place.
-/

import AflPlusPlus.TestcacheBytes

namespace AflPlusPlus

open Machine BitVec

/-- `q_testcase_cache_size` is the sum of the given lengths, as a `u64`. -/
def Testcache.Weighs (len : Nat → BitVec 32) (cache : Testcache) : Prop :=
  cache.cacheSize = BitVec.ofNat 64
    (tableWeight (fun q => (len q).toNat) cache.maxCacheEntries cache.slots)

theorem addBytes (total : Nat) (len : BitVec 32) :
    BitVec.ofNat 64 total + len.setWidth 64 = BitVec.ofNat 64 (len.toNat + total) := by
  apply eq_of_toNat_eq
  rw [toNat_add, toNat_ofNat, toNat_ofNat, toNat_setWidth]
  omega

variable {len : BitVec 32}

theorem dropBytes {total : Nat} :
    BitVec.ofNat 64 (len.toNat + total) - len.setWidth 64 = BitVec.ofNat 64 total := by
  rw [← addBytes, add_sub_cancel]

/-- What a call for entry `q` does to the sum and to who is cached. -/
structure CacheMoves (call : CacheCall) (q : Nat) (pre post : Testcache) : Prop where
  weighs : pre.Weighs call.len → post.Weighs call.len
  others : ∀ e, e ≠ q → pre.testcaseBuf e = false → post.testcaseBuf e = false

theorem CacheMoves.refl (call : CacheCall) (q : Nat) (cache : Testcache) :
    CacheMoves call q cache cache := ⟨id, fun _ _ => id⟩

variable {call : CacheCall} {q : Nat}

theorem CacheMoves.trans {first second third : Testcache}
    (left : CacheMoves call q first second) (right : CacheMoves call q second third) :
    CacheMoves call q first third :=
  ⟨right.weighs ∘ left.weighs, fun e other out => right.others e other (left.others e other out)⟩

section Moves

variable {cache : Testcache} (sound : CacheInvariant cache) (call : CacheCall) (q : Nat)

include sound

private theorem CacheInvariant.learnEntries_moves (len : BitVec 32) :
    Ensures (CacheMoves call q cache) (cache.learnEntries call len) := by
  refine (sound.learnEntries _ _).mono ?_
  intro learned facts
  obtain ⟨soundLearned, sameBuf, sameSize, _⟩ := facts
  constructor
  · intro weighs
    have seated := soundLearned.seated
    rw [sameBuf] at seated
    unfold Testcache.Weighs tableWeight at *
    rw [sameSize, sound.seated.occupants_eq seated]
    exact weighs
  · intro e _ out
    rw [sameBuf]
    exact out

private theorem CacheInvariant.evict_moves (tid : Nat) (inside : tid < cache.maxCacheEntries)
    (evictable : call.evictable (cache.slots tid) = true) :
    Ensures (CacheMoves call q cache) (cache.evict call tid) := by
  simp only [CacheCall.evictable, Bool.and_eq_true] at evictable
  obtain ⟨old, held⟩ := Option.isSome_iff_exists.1 evictable.1
  rw [sound.evict_eq inside held]
  constructor
  · intro weighs
    have lighter := sound.seated.tableWeight_clear inside (fun q => (call.len q).toNat) held
    rw [weighs, ← lighter]
    exact dropBytes
  · intro e _ out
    dsimp only
    by_cases same : e = old
    · rw [same, Function.update_self]
    · rw [Function.update_of_ne same]
      exact out

private theorem CacheInvariant.evictLoop_moves (fuel tid : Nat) (len : BitVec 32)
    (enough : cache.cacheCount < fuel) :
    Ensures (fun res => CacheMoves call q cache res.2) (cache.evictLoop call len fuel tid) := by
  have looped := @CacheInvariant.evictLoop_rule (CacheMoves _ q) _ _
    (CacheMoves.refl _ q) CacheMoves.trans
    (fun sound => sound.learnEntries_moves _ q len)
    (fun tid sound => sound.evict_moves call q _) _ tid _ sound enough
  exact looped.mono (fun _ facts => facts.2)

private theorem CacheInvariant.register_moves (tid : Nat) (inside : tid < cache.maxCacheEntries)
    (empty : cache.slots tid = none) (uncached : cache.testcaseBuf q = false) :
    Ensures (CacheMoves call q cache) (cache.register q (call.len q) tid) := by
  unfold Testcache.register
  rw [if_pos (Nat.lt_of_lt_of_le inside sound.allocated)]
  constructor
  · intro weighs
    have heavier := sound.seated.tableWeight_fill inside (fun q => (call.len q).toNat) empty
      uncached
    unfold Testcache.Weighs at weighs ⊢
    rw [heavier, weighs]
    exact addBytes _ _
  · intro e other out
    dsimp only
    rw [Function.update_of_ne other]
    exact out

theorem CacheInvariant.place_moves (start : Nat) (uncached : cache.testcaseBuf q = false) :
    Ensures (fun placed => CacheMoves call q cache placed.2)
      (cache.place q (call.len q) start) := by
  refine (sound.freeFrom _ _ rfl).bind ?_
  intro tid vacant
  split
  · exact CacheMoves.refl _ q _
  · rename_i inside
    have inside := Nat.lt_of_not_le inside
    exact (sound.register_moves _ q _ inside (vacant inside) uncached).bind
      (fun stored moves => moves)

theorem CacheInvariant.queueTestcaseGet_moves :
    Ensures (fun res => CacheMoves call q cache res.2)
      (AflPlusPlus.queueTestcaseGet call q cache) := by
  unfold AflPlusPlus.queueTestcaseGet
  split
  · exact CacheMoves.refl _ q _
  · rename_i missing
    split
    · exact CacheMoves.refl _ q _
    · have enough := Nat.lt_succ_self cache.cacheCount
      refine ((sound.evictLoop _ (call.len q) _ cache.maxCacheCount enough).and
        (sound.evictLoop_moves _ q _ cache.maxCacheCount (call.len q) enough)).bind ?_
      intro evicted facts
      obtain ⟨⟨soundEvicted, keeps⟩, moves⟩ := facts
      refine (soundEvicted.place_moves _ q _
        (keeps.unbuffered q (Bool.eq_false_of_not_eq_true missing))).bind ?_
      intro placed placing
      exact moves.trans placing

theorem CacheInvariant.queueTestcaseStoreMem_moves (uncached : cache.testcaseBuf q = false) :
    Ensures (CacheMoves call q cache) (AflPlusPlus.queueTestcaseStoreMem call q cache) := by
  unfold AflPlusPlus.queueTestcaseStoreMem
  split
  · exact CacheMoves.refl _ q _
  · exact (sound.place_moves _ q _ uncached).bind (fun placed moves => moves)

end Moves

def CacheState.cachedBytes (s : CacheState) : Nat :=
  tableWeight (fun q => (s.len q).toNat) s.cache.maxCacheEntries s.cache.slots

structure Accounted (s : CacheState) : Prop where
  sound : CacheInvariant s.cache
  weighs : s.cache.Weighs s.len

variable {s : CacheState}

section

variable (accounted : Accounted s)

include accounted

private theorem Accounted.toNat_eq :
    s.cache.cacheSize.toNat = s.cachedBytes := by
  have small : s.cachedBytes ≤ s.cache.maxCacheEntries * 2 ^ 32 :=
    tableWeight_le _ (2 ^ 32) (fun q => Nat.le_of_lt (s.len q).isLt)
  have entries := accounted.sound.entries_lt
  rw [accounted.weighs]
  change s.cachedBytes % 2 ^ 64 = s.cachedBytes
  apply Nat.mod_eq_of_lt
  omega

private theorem Accounted.zero_of_empty
    (empty : ∀ q, s.cache.testcaseBuf q = false) : s.cache.cacheSize = 0 := by
  have nobody : occupants s.cache.maxCacheEntries s.cache.slots = ∅ := by
    apply Finset.eq_empty_of_forall_notMem
    intro q present
    rw [accounted.sound.seated.mem_occupants, empty q] at present
    cases present
  have weighs := accounted.weighs
  unfold Testcache.Weighs tableWeight at weighs
  rw [nobody] at weighs
  exact weighs

theorem Accounted.withAfl {afl : Afl}
    (same : ∀ q, s.cache.testcaseBuf q = true → (afl.queue.queueBuf q).len = s.len q) :
    Accounted (s.withAfl afl) := by
  refine ⟨accounted.sound, ?_⟩
  have weighs := accounted.weighs
  unfold Testcache.Weighs at weighs ⊢
  rw [show (s.withAfl afl).cache = s.cache from rfl, weighs]
  congr 1
  symm
  apply tableWeight_congr
  intro q present
  exact congrArg BitVec.toNat (same q ((accounted.sound.seated.mem_occupants q).1 present))

end

variable {cache : Testcache}

theorem CacheInvariant.withSize (sound : CacheInvariant cache)
    (cacheSize : BitVec 64) : CacheInvariant { cache with cacheSize := cacheSize } :=
  ⟨⟨sound.allocated, sound.count, sound.once, sound.owner, sound.tail, sound.free⟩, sound.within,
    sound.served⟩

section

variable (accounted : Accounted s)

include accounted

theorem Accounted.withCache (sound : CacheInvariant cache)
    (moves : CacheMoves (s.calling call) q s.cache cache) :
    Accounted (s.withCache q cache) :=
  ⟨sound, moves.weighs accounted.weighs⟩

theorem Accounted.testcaseGet (call : CacheCall) (q : Nat) :
    Yields (fun res => Accounted res.2) (s.testcaseGet call q) := by
  have sound := accounted.sound
  have got := (sound.queueTestcaseGet (s.calling _) q).and
    (sound.queueTestcaseGet_moves (s.calling call) q)
  exact got.yields.bind (fun res facts => accounted.withCache facts.1.1 facts.2)

private theorem Accounted.testcaseStoreMem (call : CacheCall) (q : Nat)
    (uncached : s.cache.testcaseBuf q = false) :
    Yields Accounted (s.testcaseStoreMem call q) := by
  have sound := accounted.sound
  have stored := (sound.queueTestcaseStoreMem (s.calling _) q uncached).and
    (sound.queueTestcaseStoreMem_moves (s.calling call) q uncached)
  exact stored.yields.bind (fun res facts => accounted.withCache facts.1.1 facts.2)

end

variable {s : CacheState}

theorem copyInto_yields {holds : CacheState → Prop} (held : holds s) :
    Yields holds (s.copyInto q len) := by
  unfold CacheState.copyInto
  split
  · exact held
  · trivial

section Retake

variable {s : CacheState} (accounted : Accounted s) {afl : Afl} {q : Nat}
  (others : ∀ e, e ≠ q → (afl.queue.queueBuf e).len = s.len e)

include accounted others

variable (cached : s.cache.testcaseBuf q = true)

include cached

theorem Accounted.reweighed :
    (s.len q).toNat + (s.withAfl afl).cachedBytes =
      ((s.withAfl afl).len q).toNat + s.cachedBytes := by
  have present := (accounted.sound.seated.mem_occupants q).2 cached
  have same : ∀ e, e ≠ q → ((s.withAfl afl).len e).toNat = (s.len e).toNat :=
    fun e other => congrArg BitVec.toNat (others e other)
  exact tableWeight_reweigh (fun e => (s.len e).toNat) present same

private theorem Accounted.grown (longer : s.len q ≤ (s.withAfl afl).len q) :
    Accounted ((s.withAfl afl).resize q ((s.withAfl afl).len q)
      (s.cache.cacheSize + ((s.withAfl afl).len q - s.len q).setWidth 64)) := by
  refine ⟨accounted.sound.withSize _, ?_⟩
  have reweighed := accounted.reweighed others cached
  have longer := le_def.1 longer
  have difference : ((s.withAfl afl).len q - s.len q).toNat =
      ((s.withAfl afl).len q).toNat - (s.len q).toNat := by
    rw [toNat_sub]
    omega
  change s.cache.cacheSize + _ = BitVec.ofNat 64 (s.withAfl afl).cachedBytes
  rw [accounted.weighs, addBytes]
  congr 1
  change _ + s.cachedBytes = _
  omega

theorem Accounted.shrunk (shorter : (s.withAfl afl).len q ≤ s.len q) :
    Accounted ((s.withAfl afl).resize q ((s.withAfl afl).len q)
      (s.cache.cacheSize - (s.len q - (s.withAfl afl).len q).setWidth 64)) := by
  refine ⟨accounted.sound.withSize _, ?_⟩
  have reweighed := accounted.reweighed others cached
  have shorter := le_def.1 shorter
  have difference : (s.len q - (s.withAfl afl).len q).toNat =
      (s.len q).toNat - ((s.withAfl afl).len q).toNat := by
    rw [toNat_sub]
    omega
  have total : s.cachedBytes =
      (s.len q - (s.withAfl afl).len q).toNat + (s.withAfl afl).cachedBytes := by
    omega
  rw [show s.cache.cacheSize = BitVec.ofNat 64 s.cachedBytes from accounted.weighs, total]
  exact dropBytes

omit cached

theorem Accounted.unresized
    (same : s.cache.testcaseBuf q = true → (s.withAfl afl).len q = s.len q) :
    Accounted (s.withAfl afl) := by
  apply accounted.withAfl
  intro e cached
  by_cases here : e = q
  · rw [here] at cached ⊢
    exact same cached
  · exact others e here

theorem Accounted.testcaseRetake (granted : Bool) (known : s.cache.testcaseBuf q = true →
      (s.withAfl afl).len q = s.len q ∨ s.len q < (s.withAfl afl).len q ∨
        (s.withAfl afl).len q + 4096 < s.len q) :
    Yields Accounted ((s.withAfl afl).testcaseRetake granted q (s.len q)) := by
  unfold CacheState.testcaseRetake
  dsimp only
  by_cases cached : (s.withAfl afl).cache.testcaseBuf q = true
  · rw [if_pos cached]
    split
    · split
      · split
        · rename_i longer
          exact copyInto_yields (accounted.grown others cached longer)
        · rename_i shorter
          exact copyInto_yields (accounted.shrunk others cached
            (BitVec.le_of_lt (BitVec.not_le.1 shorter)))
      · trivial
    · rename_i unmoved
      apply copyInto_yields
      exact accounted.unresized others (fun cached => (known cached).resolve_right unmoved)
  · rw [if_neg cached]
    exact accounted.unresized others (fun bad => absurd bad cached)

theorem Accounted.testcaseRetakeMem (granted inPlace : Bool) (known : s.cache.testcaseBuf q = true →
      (s.withAfl afl).len q = s.len q ∨ inPlace = false ∧ granted = true ∧
        ((s.withAfl afl).len q).toNat + 4096 < (s.len q).toNat) :
    Yields Accounted ((s.withAfl afl).testcaseRetakeMem granted inPlace q
      ((s.withAfl afl).len q) (s.len q)) := by
  unfold CacheState.testcaseRetakeMem
  by_cases cached : (s.withAfl afl).cache.testcaseBuf q = true
  · rw [if_pos cached]
    have notLonger : (s.withAfl afl).len q ≤ s.len q := by
      rw [le_def]
      rcases known cached with same | ⟨_, _, shorter⟩
      · exact Nat.le_of_eq (congrArg BitVec.toNat same)
      · omega
    split
    · rename_i inPlace
      refine accounted.unresized others (fun cached => (known cached).resolve_right ?_)
      rintro ⟨elsewhere, _⟩
      rw [inPlace] at elsewhere
      cases elsewhere
    · split
      · exact copyInto_yields (accounted.shrunk others cached notLonger)
      · rename_i unmoved
        apply copyInto_yields
        refine accounted.unresized others (fun cached => (known cached).resolve_right ?_)
        rintro ⟨_, granted, shorter⟩
        refine unmoved ⟨?_, granted⟩
        change (((s.withAfl afl).len q).toNat + 4096) % 2 ^ 32 < _
        omega
  · rw [if_neg cached]
    exact accounted.unresized others (fun bad => absurd bad cached)

end Retake

/-- The hooks put a new length on record that the retake accounts for. -/
structure HooksReweigh (call : TrimCall) (origLen : BitVec 32) : Prop where
  orderly : OrderlyRuns call.runs
  active : call.mutators ≠ [] ∧ call.keepOriginal = false
  sized : (postProcess call.mutators (.inBuf, 0)).2 ≠ 0
  length : ∀ len, len = BitVec.ofInt 32
      (call.clampLength (postProcess call.mutators (.inBuf, 0)).2) →
    len = origLen ∨ (postProcess call.mutators (.inBuf, 0)).1 = .own ∧ call.granted = true ∧
      len.toNat + 4096 < origLen.toNat

/-- A cached entry may be trimmed without upsetting the sum: a custom trimmer
returns the old length, more, or over 4096 bytes less; the default trimmer has
nothing to remove or is overruled by the hooks. -/
structure TrimReweighs (size : WordSize) (hash64 : Buffer → BitVec 64) (call : TrimCall) (q : Nat)
    (s : CacheState) : Prop where
  custom : ∀ round ∈ customTrimRounds call.mutators, round.retLen ≠ 0 →
    ∀ len, len = BitVec.ofNat 32 round.retLen → len = s.len q ∨ s.len q < len ∨ len + 4096 < s.len q
  default : (∀ mutator ∈ call.mutators, mutator.customTrim = none) →
    (s.len q).toNat < 5 ∨ ¬TrimMatch size hash64 call.runs q s.afl ∨ HooksReweigh call (s.len q)

section Trimming

variable {size : WordSize} {hash64 : Buffer → BitVec 64} {call : TrimCall} {q : Nat}
  {s : CacheState} (accounted : Accounted s)

include accounted

private theorem Accounted.writeBack {trimmed : Afl}
    (others : ∀ e, e ≠ q → (trimmed.queue.queueBuf e).len = s.len e)
    (hooks : s.cache.testcaseBuf q = true → HooksReweigh call (s.len q)) :
    Yields Accounted ((s.withAfl trimmed).writeBack call q (s.len q)) := by
  have written : ∀ len, (call.postProcessed len).2 = ((s.withAfl (trimmed.modifyEntry q
        (QueueEntry.withLen (call.postProcessed len).2))).len q) := by
    intro len
    exact (Afl.withLen_len_self q _ _).symm
  have resized : ∀ e, e ≠ q → ((trimmed.modifyEntry q (QueueEntry.withLen
      (call.postProcessed ((s.withAfl trimmed).len q)).2)).queue.queueBuf e).len = s.len e :=
    fun e other => (Afl.withLen_len_of_ne other _ _).trans (others e other)
  have retaken := accounted.testcaseRetakeMem resized call.granted
    ((call.postProcessed ((s.withAfl trimmed).len q)).1 == .inBuf) (by
      intro cached
      have reweigh := hooks cached
      rw [← written, TrimCall.postProcessed_of_sized reweigh.active reweigh.sized]
      rcases reweigh.length _ rfl with same | ⟨own, granted, shorter⟩
      · exact .inl same
      · refine .inr ⟨?_, granted, shorter⟩
        rw [own]
        rfl)
  rw [← written] at retaken
  refine retaken.bind ?_
  intro taken accountedTaken
  exact accountedTaken.withAfl (fun e _ => Afl.scoreTrimmed_len q taken.afl e)

private theorem Accounted.trimDefault (known : s.cache.testcaseBuf q = true → (s.len q).toNat < 5 ∨
      ¬TrimMatch size hash64 call.runs q s.afl ∨ HooksReweigh call (s.len q)) :
    Yields (fun res => Accounted res.2) (s.trimDefault size hash64 call q (s.len q)) := by
  unfold CacheState.trimDefault
  have shrinks := trimLoops_shrinks size hash64 call.runs q s.afl
  have progress := TrimProgress.loops size hash64 call.runs q s.afl
  have others : ∀ e, e ≠ q → ((trimLoops size hash64 call.runs q s.afl).2.afl.queue.queueBuf
      e).len = s.len e :=
    fun e other => congrArg QueueEntry.len (shrinks.others e other)
  split
  · exact accounted
  · rename_i long
    dsimp only
    split
    · rename_i wrote
      refine (accounted.writeBack others ?_).bind (fun written accountedWritten => accountedWritten)
      intro cached
      exact ((known cached).resolve_left long).resolve_left
        (fun unmatched => unmatched (progress.matched wrote.2))
    · rename_i unwritten
      apply accounted.unresized others
      intro cached
      -- a cached entry leaves the loops either unmatched or in good order
      have clean : (trimLoops size hash64 call.runs q s.afl).2.needsWrite = false := by
        rcases (known cached).resolve_left long with unmatched | reweigh
        · exact Bool.eq_false_of_not_eq_true (fun wrote => unmatched (progress.matched wrote))
        · exact Bool.eq_false_of_not_eq_true (fun wrote =>
            unwritten ⟨trimPasses_orderly _ _ reweigh.orderly q _ _ _, wrote⟩)
      change ((trimLoops size hash64 call.runs q s.afl).2.afl.queue.queueBuf q).len = _
      rw [shrinks.untouched clean]
      rfl

theorem Accounted.trimCase
    (known : s.cache.testcaseBuf q = true → TrimReweighs size hash64 call q s) :
    Yields (fun res => Accounted res.2) (s.trimCase size hash64 call q) := by
  have shrinks := customTrims_shrinks size hash64 q call.mutators (none, s.afl)
  cases trimmed : (customTrims size hash64 q call.mutators (none, s.afl)).1 with
  | some fault =>
    rw [CacheState.trimCase_custom trimmed]
    have retaken := accounted.testcaseRetake shrinks.others call.granted (by
      intro cached
      rcases shrinks.own with same | ⟨_, mem, some, len⟩
      · exact .inl same
      · exact (known cached).custom _ mem some _ len)
    exact retaken.bind (fun taken accountedTaken => accountedTaken)
  | none =>
    rw [CacheState.trimCase_default trimmed]
    have without := customTrims_none _ _ q call.mutators s.afl trimmed
    exact accounted.trimDefault (fun cached => (known cached).default without.2)

end Trimming

def BytesStep.Reweighs (size : WordSize) (hash64 : Buffer → BitVec 64) (s : CacheState)
    (step : BytesStep) : Prop :=
  step.Admissible s ∧ ∀ call q, step = .trim call q → s.cache.testcaseBuf q = true →
    TrimReweighs size hash64 call q s

private theorem Accounted.apply {size : WordSize} {hash64 : Buffer → BitVec 64}
    (accounted : Accounted s) (step : BytesStep) (reweighs : step.Reweighs size hash64 s) :
    Yields Accounted (step.apply size hash64 s) := by
  cases step with
  | get call q => exact (accounted.testcaseGet _ q).bind (fun res done => done)
  | storeMem call q => exact accounted.testcaseStoreMem _ q reweighs.1
  | trim call q =>
    exact (accounted.trimCase (reweighs.2 _ q rfl)).bind (fun res done => done)
  | elsewhere afl => exact accounted.withAfl reweighs.1

private theorem CacheState.fresh_accounted {entries : Nat} (maxCacheSize : BitVec 64) (afl : Afl)
    (served : entries * 8 ≤ maxAlloc) : Accounted (CacheState.fresh entries maxCacheSize afl) := by
  refine ⟨Testcache.fresh_invariant served, ?_⟩
  have nobody : occupants entries (fun _ => (none : Option Nat)) = ∅ := by
    apply Finset.eq_empty_of_forall_notMem
    intro q present
    obtain ⟨_, _, bad⟩ := (mem_occupants q).1 present
    cases bad
  change (0 : BitVec 64) = BitVec.ofNat 64 (∑ q ∈ occupants entries (fun _ => none), _)
  rw [nobody]
  rfl

/-- As long as no trimming of a cached entry changes its length unnoticed, the
cache size is the sum of the lengths of the cached entries, and an empty cache
has size 0. -/
theorem cache_size_exact_of_run (size : WordSize) (hash64 : Buffer → BitVec 64) (entries : Nat)
    (maxCacheSize : BitVec 64) (afl : Afl) (served : entries * 8 ≤ maxAlloc)
    (steps : List BytesStep)
    (admitted : Along (bytesStep size hash64) (stepGuard (BytesStep.Reweighs size hash64))
      (.ok (CacheState.fresh entries maxCacheSize afl)) steps) :
    Yields (fun s => s.cache.cacheSize.toNat = s.cachedBytes ∧
        ((∀ q, s.cache.testcaseBuf q = false) → s.cache.cacheSize = 0))
      (runFrom (bytesStep size hash64) (.ok (CacheState.fresh entries maxCacheSize afl))
        steps) := by
  have accounted := runFrom_invariant (Yields Accounted) (by
      intro s step accounted reweighs
      cases s with
      | ok reached => exact accounted.apply _ reweighs
      | error trap => trivial)
    (.ok (CacheState.fresh _ _ _))
    (CacheState.fresh_accounted _ _ served) _ admitted
  exact accounted.mono (fun s accounted => ⟨accounted.toNat_eq, accounted.zero_of_empty⟩)

/-- Entry 0 is cached and trimmed in vain, then entry 1 takes its place. -/
theorem cache_size_exact_of_run_in_vain :
    2 * 8 ≤ maxAlloc ∧ Yields (fun s => s.cache.cacheSize.toNat = s.cachedBytes ∧
          ((∀ q, s.cache.testcaseBuf q = false) → s.cache.cacheSize = 0))
        (runFrom (bytesStep .size64 (fun _ => 1)) (.ok (CacheState.fresh 2 4096 twoSeeds))
          [.get (callFor 0) 0, .trim (quietTrim []) 0, .get (callFor 1) 1]) := by
  refine ⟨by decide, cache_size_exact_of_run .size64 (fun _ => 1) 2 4096 twoSeeds (by decide) _ ?_⟩
  refine ⟨⟨trivial, nofun⟩, ?_, ?_, trivial⟩
  · refine (bytesStep_get_afl _ (callFor 0) 0).mono ?_
    intro reached same
    refine ⟨trivial, ?_⟩
    rintro call q ⟨⟩ _
    refine ⟨nofun, fun _ => .inr (.inl ?_)⟩
    rw [same]
    rintro ⟨k, same⟩
    change (1 : BitVec 64) = 0 at same
    cases same
  · exact Yields.of_forall (fun _ => ⟨trivial, nofun⟩) _

/-- Entry 0 is cached with 16 bytes and trimmed in place to 4 bytes.  The cache
size stays at 16, and when entry 1 evicts it, 12 bytes too many remain. -/
theorem cache_size_drifts :
    let cached := runFrom (bytesStep .size64 (fun _ => 0))
      (.ok (CacheState.fresh 2 4096 twoSeeds)) [.get (callFor 0) 0, .trim (quietTrim []) 0]
    let evicted := bytesStep .size64 (fun _ => 0) cached (.get (callFor 1) 1)
    cached.toOption.map (fun s => (s.cache.cacheSize.toNat, s.cachedBytes)) = some (16, 4) ∧
      evicted.toOption.map (fun s => (s.cache.cacheSize.toNat, s.cachedBytes)) = some (28, 16) := by
  decide +kernel

end AflPlusPlus
