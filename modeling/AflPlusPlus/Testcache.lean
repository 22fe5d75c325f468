/-
The testcase cache.

The slot array is filled by appending, by refilling evicted slots, and by a search from
the smallest slot that may be free.  Every slot is read and written through a bounds
check against the allocation, so a run that goes wrong is visible.
-/

import AflPlusPlus.Common
import AflPlusPlus.Machine.Checked
import AflPlusPlus.Machine.GuardedRun
import AflPlusPlus.Machine.SlotTable

namespace AflPlusPlus

open Machine Function

def maxAlloc : Nat := 0x40000000

/-- The `q_testcase_*` fields, the array behind `q_testcase_cache`, and which
queue entries own a `testcase_buf`.  Entries are named by number. -/
structure Testcache where
  slots : Nat → Option Nat
  allocated : Nat
  maxCacheSize : BitVec 64
  maxCacheEntries : Nat
  cacheSize : BitVec 64
  maxCacheCount : Nat
  cacheCount : Nat
  smallestFree : Nat
  evictions : Nat
  doOnce : Bool
  testcaseBuf : Nat → Bool

/-- What a call reads besides the cache: the entry being fuzzed, lengths,
which weights are below 1.0, the random numbers of each eviction round, and
what the heap holds behind a grown array. -/
structure CacheCall where
  queueCur : Option Nat
  len : Nat → BitVec 32
  light : Nat → Bool
  draw : Nat → Nat → Nat
  heap : Nat → Option Nat

inductive Fetch where
  | cached
  | testcaseBuf
  | splicecaseBuf
  deriving DecidableEq, Repr

def Testcache.fresh (entries : Nat) (maxCacheSize : BitVec 64) : Testcache where
  slots := fun _ => none
  allocated := entries
  maxCacheSize := maxCacheSize
  maxCacheEntries := entries
  cacheSize := 0
  maxCacheCount := 0
  cacheCount := 0
  smallestFree := 0
  evictions := 0
  doOnce := false
  testcaseBuf := fun _ => false

def Testcache.slotAt (cache : Testcache) (tid : Nat) : Checked (Option Nat) :=
  if tid < cache.allocated then .ok (cache.slots tid) else .error .badAccess

/-- `q_testcase_cache_size + len >= q_testcase_max_cache_size` -/
def Testcache.fullBySize (cache : Testcache) (len : BitVec 32) : Bool :=
  decide (cache.maxCacheSize ≤ cache.cacheSize + len.setWidth 64)

/-- `q_testcase_cache_count >= q_testcase_max_cache_entries - 1` -/
def Testcache.fullByCount (cache : Testcache) : Bool :=
  decide (u32Pred cache.maxCacheEntries ≤ cache.cacheCount)

def Testcache.crowded (cache : Testcache) (len : BitVec 32) : Bool :=
  cache.fullBySize len && decide (1 < cache.cacheCount) || cache.fullByCount

/-- The one-time learning of `q_testcase_max_cache_entries`.  `ck_realloc`
keeps the common part and does not clear the rest. -/
def Testcache.learnEntries (call : CacheCall) (len : BitVec 32) (cache : Testcache) :
    Checked Testcache :=
  if cache.fullBySize len = true ∧ cache.cacheCount < cache.maxCacheEntries ∧
      cache.maxCacheCount < cache.maxCacheEntries ∧ cache.doOnce = false then
    let entries :=
      if cache.cacheCount < cache.maxCacheCount then u32 (cache.maxCacheCount + 1)
      else u32 (cache.cacheCount + 1)
    let bytes := u32 (u32 (entries + 1) * 8)
    if maxAlloc < bytes then .error .aborted
    else .ok { cache with
      maxCacheEntries := entries
      doOnce := true
      slots := fun i => if i < cache.allocated then cache.slots i else call.heap i
      allocated := bytes / 8 }
  else .ok cache

def CacheCall.evictable (call : CacheCall) (slot : Option Nat) : Bool :=
  slot.isSome && slot != call.queueCur

/-- The random search.  `more` is how often it may still be repeated. -/
def Testcache.randomPick (call : CacheCall) (round : Nat) (cache : Testcache) :
    Nat → Checked Nat
  | 0 => do
    let tid := randBelow cache.maxCacheCount (call.draw round 0)
    let _ ← cache.slotAt tid
    return tid
  | more + 1 => do
    let tid := randBelow cache.maxCacheCount (call.draw round (more + 1))
    let slot ← cache.slotAt tid
    if call.evictable slot then return tid else cache.randomPick call round more

/-- The linear scan over the used slots, `rest` of them from `k` on. -/
def Testcache.scanPick (call : CacheCall) (cache : Testcache) :
    Nat → Nat → Checked (Option Nat)
  | 0, _ => return none
  | rest + 1, k => do
    let slot ← cache.slotAt k
    if call.evictable slot then return some k else cache.scanPick call rest (k + 1)

/-- The slot number the search ends on, and whether it is to be evicted. -/
def Testcache.pickVictim (call : CacheCall) (round : Nat) (cache : Testcache) :
    Checked (Nat × Bool) := do
  let tid ← cache.randomPick call round (u32 (cache.maxCacheCount * 4) - 1)
  let slot ← cache.slotAt tid
  if call.evictable slot then return (tid, true)
  else
    let scanned ← cache.scanPick call cache.maxCacheCount 0
    match scanned with
    | some k => return (k, true)
    | none => return (tid, false)

def Testcache.evict (call : CacheCall) (tid : Nat) (cache : Testcache) : Checked Testcache := do
  let slot ← cache.slotAt tid
  match slot with
  | none => .error .badAccess
  | some oldCached =>
    return { cache with
      testcaseBuf := update cache.testcaseBuf oldCached false
      cacheSize := cache.cacheSize - (call.len oldCached).setWidth 64
      slots := update cache.slots tid none
      cacheCount := u32Pred cache.cacheCount
      evictions := u32 (cache.evictions + 1)
      smallestFree := if tid < cache.smallestFree then tid else cache.smallestFree }

/-- The eviction loop; it also ends when nothing but `queue_cur` is left. -/
def Testcache.evictLoop (call : CacheCall) (len : BitVec 32) :
    Nat → Nat → Testcache → Checked (Nat × Testcache)
  | 0, _, _ => .error .outOfFuel
  | fuel + 1, tid, cache =>
    if cache.crowded len then do
      let learned ← cache.learnEntries call len
      let picked ← learned.pickVictim call fuel
      if picked.2 then
        let evicted ← learned.evict call picked.1
        evictLoop call len fuel picked.1 evicted
      else return (picked.1, learned)
    else return (tid, cache)

/-- `while (tid < max_cache_entries && q_testcase_cache[tid] != NULL) ++tid` -/
def Testcache.freeFrom (cache : Testcache) : Nat → Nat → Checked Nat
  | 0, tid => return tid
  | rest + 1, tid => do
    let slot ← cache.slotAt tid
    match slot with
    | none => return tid
    | some _ => cache.freeFrom rest (tid + 1)

/-- `Register testcase as cached` -/
def Testcache.register (cache : Testcache) (q : Nat) (len : BitVec 32) (tid : Nat) :
    Checked Testcache :=
  if tid < cache.allocated then
    .ok { cache with
      testcaseBuf := update cache.testcaseBuf q true
      slots := update cache.slots tid (some q)
      cacheSize := cache.cacheSize + len.setWidth 64
      cacheCount := u32 (cache.cacheCount + 1)
      maxCacheCount :=
        if cache.maxCacheCount ≤ tid then u32 (tid + 1) else cache.maxCacheCount
      smallestFree :=
        if cache.maxCacheCount ≤ tid then cache.smallestFree
        else if tid = cache.smallestFree then u32 (tid + 1)
        else cache.smallestFree }
  else .error .badAccess

/-- The free-slot search and the registration that both entry points share.
The flag tells whether the entry was cached. -/
def Testcache.place (cache : Testcache) (q : Nat) (len : BitVec 32) (start : Nat) :
    Checked (Bool × Testcache) := do
  let tid ← cache.freeFrom (cache.maxCacheEntries - start) start
  if cache.maxCacheEntries ≤ tid then return (false, cache)
  else
    let stored ← cache.register q len tid
    return (true, stored)

def CacheCall.scratch (call : CacheCall) (q : Nat) : Fetch :=
  if call.queueCur = some q then .testcaseBuf else .splicecaseBuf

def queueTestcaseGet (call : CacheCall) (q : Nat) (cache : Testcache) :
    Checked (Fetch × Testcache) :=
  if cache.testcaseBuf q then return (.cached, cache)
  else if call.light q || cache.maxCacheSize == 0 then return (call.scratch q, cache)
  else do
    let evicted ← cache.evictLoop call (call.len q) (cache.cacheCount + 1) cache.maxCacheCount
    let start :=
      if evicted.2.maxCacheEntries ≤ evicted.1 then evicted.2.smallestFree else evicted.1
    let placed ← evicted.2.place q (call.len q) start
    return (if placed.1 then .cached else call.scratch q, placed.2)

def queueTestcaseStoreMem (call : CacheCall) (q : Nat) (cache : Testcache) :
    Checked Testcache :=
  if call.light q || cache.fullBySize (call.len q) || cache.fullByCount then return cache
  else do
    let start :=
      if cache.maxCacheEntries ≤ cache.maxCacheCount then cache.smallestFree
      else cache.maxCacheCount
    let placed ← cache.place q (call.len q) start
    return placed.2

/-- What the counters say about the slots.  A slot is an index below
`q_testcase_max_cache_entries`; the array may have one more cell, which no
operation touches. -/
structure SlotStructure (cache : Testcache) : Prop where
  allocated : cache.maxCacheEntries ≤ cache.allocated
  count : cache.cacheCount =
    Nat.count (fun i => (cache.slots i).isSome = true) cache.maxCacheEntries
  once : ∀ i j q, i < cache.maxCacheEntries → j < cache.maxCacheEntries →
    cache.slots i = some q → cache.slots j = some q → i = j
  owner : ∀ q, cache.testcaseBuf q = true ↔ ∃ i, i < cache.maxCacheEntries ∧ cache.slots i = some q
  tail : ∀ i, i < cache.maxCacheEntries → cache.maxCacheCount ≤ i → cache.slots i = none
  free : ∀ i, i < cache.maxCacheEntries → cache.slots i = none → cache.smallestFree ≤ i

/-- The inductive form: the sizes also stay within the allocator's range. -/
structure CacheInvariant (cache : Testcache) : Prop extends SlotStructure cache where
  within : cache.maxCacheCount ≤ cache.maxCacheEntries
  served : cache.maxCacheEntries * 8 ≤ maxAlloc

theorem Testcache.fresh_invariant {entries : Nat} {maxCacheSize : BitVec 64}
    (served : entries * 8 ≤ maxAlloc) : CacheInvariant (Testcache.fresh entries maxCacheSize) where
  allocated := Nat.le_refl entries
  count := by
    symm
    change Nat.count (fun _ => (none : Option Nat).isSome = true) entries = 0
    rw [Nat.count_iff_forall_not]
    intro i _ bad
    cases bad
  once := by
    intro i j q _ _ bad
    cases bad
  owner := by
    intro q
    constructor
    · intro bad
      cases bad
    · intro found
      obtain ⟨_, _, bad⟩ := found
      cases bad
  tail := fun _ _ _ => rfl
  free := fun i _ _ => Nat.zero_le i
  within := Nat.zero_le entries
  served := served

variable {cache : Testcache}

theorem SlotStructure.seated (slots : SlotStructure cache) :
    Seated cache.maxCacheEntries cache.slots cache.testcaseBuf := ⟨slots.once, slots.owner⟩

section Operations

variable {cache : Testcache} (sound : CacheInvariant cache)

include sound

theorem CacheInvariant.count_le : cache.cacheCount ≤ cache.maxCacheCount := by
  have short := @count_shorten (fun i => (cache.slots i).isSome = true) _
    cache.maxCacheCount cache.maxCacheEntries sound.within (by
      intro i past inside occupied
      rw [sound.tail i inside past] at occupied
      cases occupied)
  have bound := Nat.count_le (p := fun i => (cache.slots i).isSome = true)
    (n := cache.maxCacheCount)
  have count := sound.count
  omega

theorem CacheInvariant.entries_lt : cache.maxCacheEntries < 2 ^ 27 + 1 := by
  have served := sound.served
  unfold maxAlloc at served
  omega

theorem CacheInvariant.slotAt_eq (tid : Nat) (inside : tid < cache.maxCacheEntries) :
    cache.slotAt tid = .ok (cache.slots tid) := by
  unfold Testcache.slotAt
  rw [if_pos (Nat.lt_of_lt_of_le inside sound.allocated)]

theorem CacheInvariant.entries_pos_of_crowded (len : BitVec 32)
    (crowded : cache.crowded len = true) : 0 < cache.maxCacheEntries := by
  have few := sound.count_le
  have within := sound.within
  rcases Nat.eq_zero_or_pos cache.maxCacheEntries with none | some
  · simp only [Testcache.crowded, Testcache.fullByCount, none, u32Pred, if_true, Bool.or_eq_true,
      Bool.and_eq_true, decide_eq_true_eq] at crowded
    omega
  · exact some

theorem CacheInvariant.cut {slots : Nat → Option Nat} {allocated : Nat}
    (smaller : cache.maxCacheCount < cache.maxCacheEntries)
    (enough : cache.maxCacheCount + 1 ≤ allocated)
    (same : ∀ i, i < cache.maxCacheCount + 1 → slots i = cache.slots i) :
    CacheInvariant { cache with
      maxCacheEntries := cache.maxCacheCount + 1
      doOnce := true
      slots := slots
      allocated := allocated } := by
  have past : ∀ i, cache.maxCacheCount + 1 ≤ i → i < cache.maxCacheEntries →
      cache.slots i = none := fun i beyond inside => sound.tail i inside (Nat.le_of_succ_le beyond)
  have seated := sound.seated.cut smaller same past
  refine ⟨⟨enough, ?_, seated.once, seated.owner, ?_, ?_⟩, Nat.le_succ _, ?_⟩
  · rw [sound.count, count_shorten (cache.maxCacheCount + 1) cache.maxCacheEntries smaller]
    · apply count_congr
      intro i inside
      dsimp only
      rw [same i inside]
    · intro i beyond inside occupied
      rw [past i beyond inside] at occupied
      cases occupied
  · intro i inside beyond
    exact (same i inside).trans (sound.tail i (Nat.lt_of_lt_of_le inside smaller) beyond)
  · intro i inside empty
    exact sound.free i (Nat.lt_of_lt_of_le inside smaller) ((same i inside).symm.trans empty)
  · have served := sound.served
    change (cache.maxCacheCount + 1) * 8 ≤ maxAlloc
    omega

section

variable (call : CacheCall)

theorem CacheInvariant.learnEntries (len : BitVec 32) :
    Ensures (fun learned => CacheInvariant learned ∧
        learned.testcaseBuf = cache.testcaseBuf ∧ learned.cacheSize = cache.cacheSize ∧
        learned.cacheCount = cache.cacheCount ∧ learned.evictions = cache.evictions ∧
        (0 < cache.maxCacheEntries → 0 < learned.maxCacheEntries) ∧
        ∀ i q, i < cache.maxCacheEntries → cache.slots i = some q →
          i < learned.maxCacheEntries ∧ learned.slots i = some q)
      (cache.learnEntries call len) := by
  unfold Testcache.learnEntries
  split
  · rename_i learning
    have few := sound.count_le
    have small := sound.entries_lt
    have enough := sound.allocated
    have entriesEq : (if cache.cacheCount < cache.maxCacheCount then
        u32 (cache.maxCacheCount + 1) else u32 (cache.cacheCount + 1)) =
          cache.maxCacheCount + 1 := by
      unfold u32
      split <;> omega
    have bytesEq : u32 (u32 (cache.maxCacheCount + 1 + 1) * 8) = (cache.maxCacheCount + 2) * 8 := by
      unfold u32
      omega
    dsimp only
    rw [entriesEq]
    split
    · rfl
    · have same : ∀ i, i < cache.maxCacheCount + 1 →
          (if i < cache.allocated then cache.slots i else call.heap i) = cache.slots i := by
        intro i inside
        rw [if_pos (by omega)]
      refine ⟨sound.cut learning.2.2.1 (by omega) same, rfl, rfl, rfl, rfl,
        fun _ => Nat.succ_pos _, ?_⟩
      intro i q inside here
      have used : i < cache.maxCacheCount + 1 := by
        by_contra past
        rw [sound.tail i inside (by omega)] at here
        cases here
      exact ⟨used, (same i used).trans here⟩
  · exact ⟨sound, rfl, rfl, rfl, rfl, id, fun i q inside here => ⟨inside, here⟩⟩

theorem CacheInvariant.randBelow_lt (some : 0 < cache.maxCacheEntries) (draw : Nat) :
    randBelow cache.maxCacheCount draw < cache.maxCacheEntries := by
  have within := sound.within
  unfold randBelow
  split
  · exact some
  · have below := Nat.mod_lt draw (y := cache.maxCacheCount) (by omega)
    omega

theorem CacheInvariant.randomPick (round more : Nat) (some : 0 < cache.maxCacheEntries) :
    Ensures (fun tid => tid < cache.maxCacheEntries) (cache.randomPick call round more) := by
  induction more with
  | zero =>
    have inside := sound.randBelow_lt some (call.draw round 0)
    unfold Testcache.randomPick
    dsimp only
    rw [sound.slotAt_eq _ inside]
    exact inside
  | succ more ih =>
    have inside := sound.randBelow_lt some (call.draw round (more + 1))
    unfold Testcache.randomPick
    dsimp only
    rw [sound.slotAt_eq _ inside]
    change Ensures _ (if _ then _ else _)
    split
    · exact inside
    · exact ih

theorem CacheInvariant.scanPick (rest k : Nat) (inside : k + rest ≤ cache.maxCacheEntries) :
    Ensures (fun found => ∀ tid, found = some tid →
        tid < cache.maxCacheEntries ∧ call.evictable (cache.slots tid) = true)
      (cache.scanPick call rest k) := by
  induction rest generalizing k with
  | zero =>
    intro tid bad
    cases bad
  | succ rest ih =>
    unfold Testcache.scanPick
    rw [sound.slotAt_eq k (by omega)]
    change Ensures _ (if _ then _ else _)
    split
    · rename_i evictable
      intro tid here
      cases here
      exact ⟨by omega, evictable⟩
    · exact ih (k + 1) (by omega)

theorem CacheInvariant.pickVictim (round : Nat) (some : 0 < cache.maxCacheEntries) :
    Ensures (fun picked => picked.1 < cache.maxCacheEntries ∧
        (picked.2 = true → call.evictable (cache.slots picked.1) = true))
      (cache.pickVictim call round) := by
  refine (sound.randomPick _ _ _ some).bind ?_
  intro tid inside
  rw [sound.slotAt_eq _ inside]
  change Ensures _ (if _ then _ else _)
  split
  · rename_i evictable
    exact ⟨inside, fun _ => evictable⟩
  · refine (sound.scanPick _ cache.maxCacheCount 0 (by have := sound.within; omega)).bind ?_
    intro scanned found
    cases scanned with
    | none => exact ⟨inside, fun bad => by cases bad⟩
    | some k => exact ⟨(found k rfl).1, fun _ => (found k rfl).2⟩

theorem CacheInvariant.evict_eq {call : CacheCall} {tid : Nat}
    (inside : tid < cache.maxCacheEntries) {old : Nat} (held : cache.slots tid = some old) :
    cache.evict call tid = .ok { cache with
      testcaseBuf := update cache.testcaseBuf old false
      cacheSize := cache.cacheSize - (call.len old).setWidth 64
      slots := update cache.slots tid none
      cacheCount := u32Pred cache.cacheCount
      evictions := u32 (cache.evictions + 1)
      smallestFree := if tid < cache.smallestFree then tid else cache.smallestFree } := by
  unfold Testcache.evict
  rw [sound.slotAt_eq _ inside, held]
  rfl

theorem CacheInvariant.evict (tid : Nat)
    (inside : tid < cache.maxCacheEntries) (evictable : call.evictable (cache.slots tid) = true) :
    Ensures (fun evicted => CacheInvariant evicted ∧ evicted.cacheCount + 1 = cache.cacheCount ∧
        evicted.evictions = u32 (cache.evictions + 1) ∧
        evicted.maxCacheEntries = cache.maxCacheEntries ∧
        (∀ q, cache.testcaseBuf q = false → evicted.testcaseBuf q = false) ∧
        ∀ i q, call.queueCur = some q → cache.slots i = some q → evicted.slots i = some q)
      (cache.evict call tid) := by
  simp only [CacheCall.evictable, Bool.and_eq_true, bne_iff_ne, ne_eq] at evictable
  obtain ⟨old, held⟩ := Option.isSome_iff_exists.1 evictable.1
  rw [sound.evict_eq inside held]
  have fewer := count_update (fun slot => slot.isSome = true) cache.slots inside none
  rw [held, Option.isSome_some, if_pos rfl, if_neg (by decide)] at fewer
  have seated := sound.seated.clear inside held
  have count := sound.count
  have countEq : u32Pred cache.cacheCount + 1 = cache.cacheCount := u32Pred_add_one (by omega)
  refine ⟨⟨⟨sound.allocated, ?_, seated.once, seated.owner, ?_, ?_⟩, sound.within, sound.served⟩,
    countEq, rfl, rfl, ?_, ?_⟩
  · exact Nat.succ.inj (countEq.trans (count.trans fewer.symm))
  · intro i below past
    change update cache.slots tid none i = none
    by_cases same : i = tid
    · rw [same, update_self]
    · rw [update_of_ne same]
      exact sound.tail i below past
  · intro i below empty
    change (if tid < cache.smallestFree then tid else cache.smallestFree) ≤ i
    by_cases same : i = tid
    · split <;> omega
    · change update cache.slots tid none i = none at empty
      rw [update_of_ne same] at empty
      have least := sound.free i below empty
      split <;> omega
  · intro q without
    change update cache.testcaseBuf old false q = false
    by_cases same : q = old
    · rw [same, update_self]
    · rw [update_of_ne same]
      exact without
  · intro i q current here
    refine (cleared_eq_some_iff i q).2 ⟨?_, here⟩
    intro same
    rw [same] at here
    exact evictable.2 (here.trans current.symm)

end

theorem CacheInvariant.freeFrom (rest tid : Nat) (span : cache.maxCacheEntries - tid = rest) :
    Ensures (fun found => found < cache.maxCacheEntries → cache.slots found = none)
      (cache.freeFrom rest tid) := by
  induction rest generalizing tid with
  | zero =>
    intro inside
    omega
  | succ rest ih =>
    unfold Testcache.freeFrom
    rw [sound.slotAt_eq _ (by omega)]
    cases held : cache.slots tid with
    | none => exact fun _ => held
    | some q => exact ih (tid + 1) (by omega)

theorem CacheInvariant.register (q : Nat) (len : BitVec 32) (tid : Nat)
    (inside : tid < cache.maxCacheEntries) (empty : cache.slots tid = none)
    (uncached : cache.testcaseBuf q = false) :
    Ensures (fun stored => CacheInvariant stored ∧ stored.maxCacheEntries = cache.maxCacheEntries ∧
        stored.cacheCount = cache.cacheCount + 1 ∧ stored.evictions = cache.evictions ∧
        stored.testcaseBuf = update cache.testcaseBuf q true ∧
        ∀ i other, cache.slots i = some other → stored.slots i = some other)
      (cache.register q len tid) := by
  unfold Testcache.register
  rw [if_pos (Nat.lt_of_lt_of_le inside sound.allocated)]
  have small := sound.entries_lt
  have few := sound.count_le
  have within := sound.within
  have more := count_update (fun slot => slot.isSome = true) cache.slots inside (some q)
  rw [empty, Option.isSome_some] at more
  have seated := sound.seated.fill inside empty uncached
  have count := sound.count
  have countEq : u32 (cache.cacheCount + 1) = cache.cacheCount + 1 := by
    unfold u32
    omega
  have tidEq : u32 (tid + 1) = tid + 1 := by
    unfold u32
    omega
  refine ⟨⟨⟨sound.allocated, ?_, seated.once, seated.owner, ?_, ?_⟩, ?_, sound.served⟩, rfl,
    countEq, rfl, rfl, ?_⟩
  · rw [countEq, count]
    exact more.symm
  · intro i below past
    change (if cache.maxCacheCount ≤ tid then u32 (tid + 1) else cache.maxCacheCount) ≤ i at past
    change update cache.slots tid (some q) i = none
    split at past
    · rw [update_of_ne (by omega)]
      exact sound.tail i below (by omega)
    · rw [update_of_ne (by omega)]
      exact sound.tail i below past
  · intro i below vacant
    change update cache.slots tid (some q) i = none at vacant
    change (if cache.maxCacheCount ≤ tid then cache.smallestFree
      else if tid = cache.smallestFree then u32 (tid + 1) else cache.smallestFree) ≤ i
    have ne : i ≠ tid := by
      intro same
      rw [same, update_self] at vacant
      cases vacant
    rw [update_of_ne ne] at vacant
    have least := sound.free i below vacant
    split
    · exact least
    · split <;> omega
  · change (if cache.maxCacheCount ≤ tid then u32 (tid + 1) else cache.maxCacheCount) ≤
      cache.maxCacheEntries
    split <;> omega
  · intro i other here
    refine (filled_eq_some_iff i _).2 (.inr ⟨?_, here⟩)
    intro same
    rw [same, empty] at here
    cases here

theorem CacheInvariant.place (q : Nat) (len : BitVec 32) (start : Nat)
    (uncached : cache.testcaseBuf q = false) :
    Ensures (fun placed => CacheInvariant placed.2 ∧
        placed.2.maxCacheEntries = cache.maxCacheEntries ∧
        placed.2.cacheCount = cache.cacheCount + placed.1.toNat ∧
        placed.2.evictions = cache.evictions ∧
        placed.2.testcaseBuf = update cache.testcaseBuf q placed.1 ∧
        ∀ i other, cache.slots i = some other → placed.2.slots i = some other)
      (cache.place q len start) := by
  refine (sound.freeFrom _ _ rfl).bind ?_
  intro tid vacant
  split
  · refine ⟨sound, rfl, rfl, rfl, ?_, fun _ _ here => here⟩
    rw [← uncached, update_eq_self]
  · rename_i inside
    have inside := Nat.lt_of_not_le inside
    exact (sound.register q _ _ inside (vacant inside) uncached).bind (fun stored done => done)

end Operations

/-- Whatever learning the capacity and each single eviction keep, the loop
keeps.  It ends within one round for each cached entry. -/
theorem CacheInvariant.evictLoop_rule {kept : Testcache → Testcache → Prop} (call : CacheCall)
    (len : BitVec 32) (refl : ∀ cache, kept cache cache)
    (trans : ∀ {first second third}, kept first second → kept second third → kept first third)
    (learning : ∀ {cache}, CacheInvariant cache →
      Ensures (kept cache) (cache.learnEntries call len))
    (evicting : ∀ {cache} tid, CacheInvariant cache → tid < cache.maxCacheEntries →
      call.evictable (cache.slots tid) = true → Ensures (kept cache) (cache.evict call tid))
    (fuel tid : Nat) {cache : Testcache} (sound : CacheInvariant cache)
    (enough : cache.cacheCount < fuel) :
    Ensures (fun res => CacheInvariant res.2 ∧ kept cache res.2)
      (cache.evictLoop call len fuel tid) := by
  induction fuel generalizing tid cache with
  | zero => omega
  | succ fuel ih =>
    unfold Testcache.evictLoop
    split
    · rename_i crowded
      refine ((sound.learnEntries _ _).and (learning sound)).bind ?_
      intro learned facts
      obtain ⟨⟨soundLearned, _, _, _, _, stillSome, _⟩, first⟩ := facts
      have some := stillSome (sound.entries_pos_of_crowded _ crowded)
      refine (soundLearned.pickVictim _ _ some).bind ?_
      intro picked victim
      split
      · rename_i found
        have evictable := victim.2 found
        refine ((soundLearned.evict _ picked.1 victim.1 evictable).and
          (evicting picked.1 soundLearned victim.1 evictable)).bind ?_
        intro evicted facts
        obtain ⟨⟨soundEvicted, _, _⟩, second⟩ := facts
        refine (ih picked.1 soundEvicted (by omega)).mono ?_
        intro res facts
        exact ⟨facts.1, trans (trans first second) facts.2⟩
      · exact ⟨soundLearned, first⟩
    · exact ⟨sound, refl _⟩

/-- What evictions do: nobody enters the cache, every departure is counted, and
`queue_cur` keeps its slot. -/
structure EvictKeeps (call : CacheCall) (cache post : Testcache) : Prop where
  unbuffered : ∀ q, cache.testcaseBuf q = false → post.testcaseBuf q = false
  accounting : ∃ rounds, post.cacheCount + rounds = cache.cacheCount ∧
    u32 post.evictions = u32 (cache.evictions + rounds)
  current : ∀ i q, call.queueCur = some q → i < cache.maxCacheEntries →
    cache.slots i = some q → i < post.maxCacheEntries ∧ post.slots i = some q

variable (sound : CacheInvariant cache)

section

variable (call : CacheCall)

theorem EvictKeeps.refl (cache : Testcache) : EvictKeeps call cache cache :=
  ⟨fun _ without => without, ⟨0, rfl, rfl⟩, fun _ _ _ inside here => ⟨inside, here⟩⟩

theorem EvictKeeps.trans {call : CacheCall} {first second third : Testcache}
    (left : EvictKeeps call first second) (right : EvictKeeps call second third) :
    EvictKeeps call first third where
  unbuffered := fun q without => right.unbuffered q (left.unbuffered q without)
  accounting := by
    obtain ⟨pre, _, _⟩ := left.accounting
    obtain ⟨post, _, _⟩ := right.accounting
    refine ⟨pre + post, by omega, ?_⟩
    unfold u32 at *
    omega
  current := by
    intro i q current inside here
    have moved := left.current i q current inside here
    exact right.current i q current moved.1 moved.2

include sound in
theorem CacheInvariant.evictLoop (len : BitVec 32) (fuel tid : Nat)
    (enough : cache.cacheCount < fuel) :
    Ensures (fun res => CacheInvariant res.2 ∧ EvictKeeps call cache res.2)
      (cache.evictLoop call len fuel tid) := by
  refine evictLoop_rule _ _ (EvictKeeps.refl _) EvictKeeps.trans ?_ ?_ _ _ sound enough
  · intro cache sound
    refine (sound.learnEntries _ _).mono ?_
    intro learned facts
    obtain ⟨_, sameBuf, _, sameCount, sameEvictions, _, stay⟩ := facts
    refine ⟨?_, ⟨0, sameCount, by rw [sameEvictions]; rfl⟩, fun i q _ => stay i q⟩
    intro q without
    rw [sameBuf]
    exact without
  · intro cache tid sound inside evictable
    refine (sound.evict _ _ inside evictable).mono ?_
    intro evicted facts
    obtain ⟨_, fewer, oneMore, sameEntries, noNewBuf, keepCur⟩ := facts
    refine ⟨noNewBuf, ⟨1, fewer, ?_⟩, ?_⟩
    · rw [oneMore]
      exact Nat.mod_mod _ _
    · intro i q current inside here
      exact ⟨by rw [sameEntries]; exact inside, keepCur i q current here⟩

/-- What one call may do to a cache that has the slot structure: the number of
entries that lose their place is the number of evictions, and `queue_cur` keeps
its slot. -/
structure CacheCallKeeps (call : CacheCall) (cache post : Testcache) : Prop where
  accounting : ∃ rounds stored, stored ≤ 1 ∧ post.cacheCount + rounds = cache.cacheCount + stored ∧
    u32 post.evictions = u32 (cache.evictions + rounds)
  current : ∀ i q, call.queueCur = some q → i < cache.maxCacheEntries →
    cache.slots i = some q → i < post.maxCacheEntries ∧ post.slots i = some q

theorem CacheCallKeeps.refl (cache : Testcache) :
    CacheCallKeeps call cache cache where
  accounting := ⟨0, 0, Nat.zero_le 1, rfl, rfl⟩
  current := fun _ _ _ inside here => ⟨inside, here⟩

include sound

theorem CacheInvariant.queueTestcaseGet (q : Nat) :
    Ensures (fun res => CacheInvariant res.2 ∧ CacheCallKeeps call cache res.2)
      (queueTestcaseGet call q cache) := by
  unfold AflPlusPlus.queueTestcaseGet
  split
  · exact ⟨sound, CacheCallKeeps.refl _ _⟩
  · rename_i missing
    split
    · exact ⟨sound, CacheCallKeeps.refl _ _⟩
    · refine (sound.evictLoop _ (call.len q) _ cache.maxCacheCount (Nat.lt_succ_self _)).bind ?_
      intro evicted facts
      obtain ⟨soundEvicted, keeps⟩ := facts
      obtain ⟨rounds, _, counted⟩ := keeps.accounting
      refine (soundEvicted.place q (call.len q) _
        (keeps.unbuffered q (Bool.eq_false_of_not_eq_true missing))).bind ?_
      intro placed facts
      obtain ⟨soundPlaced, sameEntries, _, sameEvictions, _, stay⟩ := facts
      refine ⟨soundPlaced, ⟨rounds, placed.1.toNat, Bool.toNat_le placed.1, ?_, ?_⟩, ?_⟩
      · change placed.2.cacheCount + rounds = _
        omega
      · rw [sameEvictions]
        exact counted
      · intro i cur current inside here
        have moved := keeps.current i _ current inside here
        exact ⟨by rw [sameEntries]; exact moved.1, stay i _ moved.2⟩

theorem CacheInvariant.queueTestcaseStoreMem (q : Nat) (uncached : cache.testcaseBuf q = false) :
    Ensures (fun stored => CacheInvariant stored ∧ CacheCallKeeps call cache stored)
      (queueTestcaseStoreMem call q cache) := by
  unfold AflPlusPlus.queueTestcaseStoreMem
  split
  · exact ⟨sound, CacheCallKeeps.refl _ _⟩
  · refine (sound.place q (call.len q) _ uncached).bind ?_
    intro placed facts
    obtain ⟨soundPlaced, sameEntries, sameCount, sameEvictions, _, stay⟩ := facts
    refine ⟨soundPlaced, ⟨0, placed.1.toNat, Bool.toNat_le placed.1, sameCount, ?_⟩, ?_⟩
    · rw [sameEvictions]
      rfl
    · intro i cur _ inside here
      exact ⟨by rw [sameEntries]; exact inside, stay i _ here⟩

end

inductive CacheStep where
  | get (call : CacheCall) (q : Nat)
  | storeMem (call : CacheCall) (q : Nat)

def CacheStep.call : CacheStep → CacheCall
  | .get call _ => call
  | .storeMem call _ => call

def CacheStep.apply : CacheStep → Testcache → Checked Testcache
  | .get call q, cache => do
    let res ← queueTestcaseGet call q cache
    return res.2
  | .storeMem call q, cache => queueTestcaseStoreMem call q cache

/-- `queue_testcase_store_mem` is for entries that are not cached yet. -/
def CacheStep.Admissible (cache : Testcache) : CacheStep → Prop
  | .get _ _ => True
  | .storeMem _ q => cache.testcaseBuf q = false

def cacheStep (s : Checked Testcache) (step : CacheStep) : Checked Testcache :=
  s >>= step.apply

def cacheGuard (s : Checked Testcache) (step : CacheStep) : Prop :=
  Ensures (fun cache => step.Admissible cache) s

include sound in
theorem CacheInvariant.apply (step : CacheStep) (admissible : step.Admissible cache) :
    Ensures (fun post => CacheInvariant post ∧ CacheCallKeeps step.call cache post)
      (step.apply cache) := by
  cases step with
  | get call q => exact (sound.queueTestcaseGet _ q).bind (fun res done => done)
  | storeMem call q => exact sound.queueTestcaseStoreMem _ q admissible

private theorem cacheStep_invariant (s : Checked Testcache) (step : CacheStep)
    (sound : Ensures CacheInvariant s) (admissible : cacheGuard s step) :
    Ensures CacheInvariant (cacheStep s step) := by
  cases s with
  | ok cache => exact (sound.apply _ admissible).mono (fun _ done => done.1)
  | error trap => exact sound

/-- The slot structure holds after every run of cache calls.  No call reads or
writes outside the array, and every eviction loop ends.  Learning the capacity
drops no entry, and no call takes the slot of the current entry. -/
theorem testcache_run_law (entries : Nat) (maxCacheSize : BitVec 64)
    (served : entries * 8 ≤ maxAlloc) (steps : List CacheStep)
    (admitted : Along cacheStep cacheGuard (.ok (Testcache.fresh entries maxCacheSize)) steps) :
    Ensures (fun cache => SlotStructure cache ∧
        (∀ call len, Ensures (fun learned => SlotStructure learned ∧
            ∀ i q, i < cache.maxCacheEntries → cache.slots i = some q →
              i < learned.maxCacheEntries ∧ learned.slots i = some q)
          (cache.learnEntries call len)) ∧
        ∀ step : CacheStep, step.Admissible cache →
          Ensures (CacheCallKeeps step.call cache) (step.apply cache))
      (runFrom cacheStep (.ok (Testcache.fresh entries maxCacheSize)) steps) := by
  have sound := runFrom_invariant (Ensures CacheInvariant) cacheStep_invariant
    (.ok (Testcache.fresh _ _)) (Testcache.fresh_invariant served)
    _ admitted
  refine sound.mono ?_
  intro cache sound
  refine ⟨sound.toSlotStructure, ?_, ?_⟩
  · intro call len
    refine (sound.learnEntries _ _).mono ?_
    intro learned facts
    obtain ⟨soundLearned, _, _, _, _, _, stay⟩ := facts
    exact ⟨soundLearned.toSlotStructure, stay⟩
  · intro step admissible
    exact (sound.apply _ admissible).mono (fun _ done => done.2)

def sampleCall : CacheCall where
  queueCur := some 7
  len := fun _ => 16
  light := fun _ => false
  draw := fun round tries => round + tries
  heap := fun _ => none

/-- With two slots the second call finds only the current entry, the third
evicts its predecessor. -/
theorem testcache_run_law_two_slots :
    Ensures (fun cache => SlotStructure cache ∧ cache.slots 0 = some 7)
      (runFrom cacheStep (.ok (Testcache.fresh 2 4096))
        [.get sampleCall 7, .get sampleCall 3, .get sampleCall 5]) := by
  have law := testcache_run_law 2 4096 (by decide)
    [.get sampleCall 7, .get sampleCall 3, .get sampleCall 5] ⟨trivial, trivial, trivial, trivial⟩
  exact ⟨law.1, rfl⟩

end AflPlusPlus
