/-
Novelty of a trace against a virgin map.

The scan works on machine words with an early, saturating verdict.  Its
meaning is a statement about single bytes: which bits of the virgin map
survive, and whether some byte was untouched or merely not yet seen at this
hit count.
-/

import AflPlusPlus.CoverageMap

namespace AflPlusPlus

open Machine
open Machine.LaneWord

inductive VirginMap where
  | bits
  | tmout
  | crash
  deriving DecidableEq, Repr

structure Coverage where
  fsrv : Fsrv
  virginBits : Buffer
  virginTmout : Buffer
  virginCrash : Buffer
  bitmapChanged : Bool

variable (cov : Coverage)

namespace Coverage

def virgin (cov : Coverage) : VirginMap → Buffer
  | .bits => cov.virginBits
  | .tmout => cov.virginTmout
  | .crash => cov.virginCrash

def setVirgin (cov : Coverage) (map : VirginMap) (bytes : Buffer) : Coverage :=
  match map with
  | .bits => { cov with virginBits := bytes }
  | .tmout => { cov with virginTmout := bytes }
  | .crash => { cov with virginCrash := bytes }

def withTrace (cov : Coverage) (trace : Buffer) : Coverage :=
  { cov with fsrv := { cov.fsrv with traceBits := trace } }

variable (map : VirginMap)

@[simp] theorem virgin_setVirgin (bytes : Buffer) :
    (cov.setVirgin map bytes).virgin map = bytes := by
  cases map <;> rfl

private theorem virgin_setVirgin_of_ne (other : VirginMap) (bytes : Buffer) (ne : other ≠ map) :
    (cov.setVirgin map bytes).virgin other = cov.virgin other := by
  cases map <;> cases other <;> first | rfl | exact absurd rfl ne

@[simp] theorem setVirgin_fsrv {cov : Coverage} {map : VirginMap} {bytes : Buffer} :
    (cov.setVirgin map bytes).fsrv = cov.fsrv := by
  cases map <;> rfl

variable (trace : Buffer)

@[simp] theorem withTrace_virgin :
    (cov.withTrace trace).virgin map = cov.virgin map := by
  cases map <;> rfl

@[simp] theorem withTrace_traceBits :
    (cov.withTrace trace).fsrv.traceBits = trace := rfl

@[simp] theorem withTrace_realMapSize :
    (cov.withTrace trace).fsrv.realMapSize = cov.fsrv.realMapSize := rfl

/-- The maps as start-up leaves them: nothing traced, everything virgin. -/
def initial (mapSize realMapSize : Nat) : Coverage :=
  { fsrv := { traceBits := fun _ => 0, mapSize := mapSize, realMapSize := realMapSize }
    virginBits := fun _ => 0xff
    virginTmout := fun _ => 0xff
    virginCrash := fun _ => 0xff
    bitmapChanged := false }

end Coverage

variable (size : WordSize)

/-- `discover_word`: the verdict so far and the virgin map after one word. -/
def discoverWord (current : Buffer) (base : Nat) (s : Nat × Buffer) : Nat × Buffer :=
  let cur := load size.bytes current base
  let vir := load size.bytes s.2 base
  if cur &&& vir ≠ 0 then
    let verdict :=
      if s.1 < 2 then
        if ∃ k, k < size.bytes ∧ current (base + k) ≠ 0 ∧ s.2 (base + k) = 0xff then 2
        else 1
      else s.1
    (verdict, store size.bytes s.2 base (vir &&& ~~~cur))
  else s

def WordSize.realWords (size : WordSize) (realMapSize : Nat) : Nat :=
  match size with
  | .size64 => (realMapSize + 7) >>> 3
  | .size32 => (realMapSize + 3) >>> 2

def discoverStep (current : Buffer) (idx : Nat) (s : Nat × Buffer) : Nat × Buffer :=
  if load size.bytes current (size.bytes * idx) ≠ 0 then
    discoverWord size current (size.bytes * idx) s
  else s

def discoverWords (realMapSize : Nat) (current virgin : Buffer) : Nat × Buffer :=
  forUpto (size.realWords realMapSize) (discoverStep size current) (0, virgin)

def hasNewBits (cov : Coverage) (map : VirginMap) : Nat × Coverage :=
  let scan := discoverWords size cov.fsrv.realMapSize cov.fsrv.traceBits (cov.virgin map)
  let post := cov.setVirgin map scan.2
  if scan.1 ≠ 0 ∧ map = .bits then (scan.1, { post with bitmapChanged := true })
  else (scan.1, post)

/-- Some byte below the bound is hit where the virgin map is untouched. -/
def Pristine (trace virgin : Buffer) (bound : Nat) : Prop :=
  ∃ i, i < bound ∧ trace i ≠ 0 ∧ virgin i = 0xff

/-- Some byte below the bound shows a bit the virgin map still has. -/
def Meets (trace virgin : Buffer) (bound : Nat) : Prop :=
  ∃ i, i < bound ∧ trace i &&& virgin i ≠ 0

instance (trace virgin : Buffer) (bound : Nat) : Decidable (Pristine trace virgin bound) :=
  inferInstanceAs (Decidable (∃ i, i < bound ∧ trace i ≠ 0 ∧ virgin i = 0xff))

instance (trace virgin : Buffer) (bound : Nat) : Decidable (Meets trace virgin bound) :=
  inferInstanceAs (Decidable (∃ i, i < bound ∧ trace i &&& virgin i ≠ 0))

def novelty (trace virgin : Buffer) (bound : Nat) : Nat :=
  if Pristine trace virgin bound then 2
  else if Meets trace virgin bound then 1
  else 0

theorem Pristine.meets {trace virgin : Buffer} {bound : Nat}
    (pristine : Pristine trace virgin bound) : Meets trace virgin bound := by
  obtain ⟨i, within, hit, untouched⟩ := pristine
  refine ⟨i, within, ?_⟩
  rw [untouched]
  have full : trace i &&& 0xff = trace i := BitVec.and_allOnes
  rw [full]
  exact hit

variable (size : WordSize) (realMapSize : Nat) (trace : Buffer) (cov : Coverage) (virgin : Buffer)
  (map : VirginMap) (bound : Nat)

theorem novelty_eq_two_iff : novelty trace virgin bound = 2 ↔ Pristine trace virgin bound := by
  unfold novelty
  split
  · rename_i pristine
    exact ⟨fun _ => pristine, fun _ => rfl⟩
  · rename_i absent
    split <;> exact ⟨fun bad => (by cases bad), fun found => absurd found absent⟩

theorem novelty_eq_one_iff :
    novelty trace virgin bound = 1 ↔ ¬ Pristine trace virgin bound ∧ Meets trace virgin bound := by
  unfold novelty
  split
  · rename_i pristine
    exact ⟨fun bad => (by cases bad), fun both => absurd pristine both.1⟩
  · rename_i absent
    split
    · rename_i meets
      exact ⟨fun _ => ⟨absent, meets⟩, fun _ => rfl⟩
    · rename_i apart
      exact ⟨fun bad => (by cases bad), fun both => absurd both.2 apart⟩

theorem novelty_eq_zero_iff : novelty trace virgin bound = 0 ↔ ¬ Meets trace virgin bound := by
  unfold novelty
  split
  · rename_i pristine
    exact ⟨fun bad => (by cases bad), fun apart => absurd pristine.meets apart⟩
  · split
    · rename_i meets
      exact ⟨fun bad => (by cases bad), fun apart => absurd meets apart⟩
    · rename_i apart
      exact ⟨fun _ => apart, fun _ => rfl⟩

private theorem novelty_congr {trace virgin trace' virgin' : Buffer} {bound bound' : Nat}
    (pristine : Pristine trace virgin bound ↔ Pristine trace' virgin' bound')
    (meets : Meets trace virgin bound ↔ Meets trace' virgin' bound') :
    novelty trace virgin bound = novelty trace' virgin' bound' := by
  unfold novelty
  simp only [pristine, meets]

theorem exists_block_iff (holds : Nat → Prop) (bound w : Nat) :
    (∃ i, i < bound + w ∧ holds i) ↔
      (∃ i, i < bound ∧ holds i) ∨ ∃ k, k < w ∧ holds (bound + k) := by
  constructor
  · rintro ⟨i, within, found⟩
    by_cases earlier : i < bound
    · exact .inl ⟨i, earlier, found⟩
    · refine .inr ⟨i - bound, by omega, ?_⟩
      rw [show bound + (i - bound) = i by omega]
      exact found
  · rintro (⟨i, within, found⟩ | ⟨k, within, found⟩)
    · exact ⟨i, by omega, found⟩
    · exact ⟨bound + k, by omega, found⟩

private theorem novelty_block (w : Nat)
    (meets : ∃ k, k < w ∧ trace (bound + k) &&& virgin (bound + k) ≠ 0) :
    novelty trace virgin (bound + w) =
      if novelty trace virgin bound < 2 then
        if ∃ k, k < w ∧ trace (bound + k) ≠ 0 ∧ virgin (bound + k) = 0xff then 2 else 1
      else novelty trace virgin bound := by
  have pristine : Pristine trace virgin (bound + w) ↔ Pristine trace virgin bound ∨
      ∃ k, k < w ∧ trace (bound + k) ≠ 0 ∧ virgin (bound + k) = 0xff :=
    exists_block_iff _ _ _
  have grown : Meets trace virgin (bound + w) := (exists_block_iff _ _ _).2 (.inr meets)
  by_cases earlier : Pristine trace virgin bound
  · have two := (novelty_eq_two_iff _ _ _).2 earlier
    rw [two, if_neg (Nat.lt_irrefl 2), novelty_eq_two_iff, pristine]
    exact .inl earlier
  · have small : novelty trace virgin bound < 2 := by
      unfold novelty
      rw [if_neg earlier]
      split <;> decide
    rw [if_pos small]
    split
    · rename_i found
      rw [novelty_eq_two_iff, pristine]
      exact .inr found
    · rename_i missing
      rw [novelty_eq_one_iff, pristine]
      exact ⟨fun either => either.elim earlier missing, grown⟩

/-- What the words before the one at `bound` have done. -/
structure Scanned (trace virgin : Buffer) (bound : Nat) (s : Nat × Buffer) : Prop where
  verdict : s.1 = novelty trace virgin bound
  cleared : ∀ i, s.2 i = if i < bound then virgin i &&& ~~~(trace i) else virgin i

private theorem byte_clear_of_apart (trace virgin : Byte) (apart : trace &&& virgin = 0) :
    virgin &&& ~~~trace = virgin := by
  apply BitVec.eq_of_getLsbD_eq
  intro bit inside
  have both := congrArg (fun word => word.getLsbD bit) apart
  simp only [BitVec.getLsbD_and] at both
  simp only [BitVec.getLsbD_and, BitVec.getLsbD_not, inside, decide_true, Bool.true_and]
  cases traced : trace.getLsbD bit with
  | false => simp
  | true =>
    rw [traced] at both
    simpa using both

section

variable {trace virgin : Buffer} {bound : Nat} {s : Nat × Buffer}
  (scanned : Scanned trace virgin bound s)

include scanned

private theorem Scanned.skip {w : Nat}
    (apart : ∀ k, k < w → trace (bound + k) &&& virgin (bound + k) = 0) :
    Scanned trace virgin (bound + w) s := by
  have noMeet : ¬ ∃ k, k < w ∧ trace (bound + k) &&& virgin (bound + k) ≠ 0 := by
    rintro ⟨k, within, lit⟩
    exact lit (apart k within)
  have noPristine :
      ¬ ∃ k, k < w ∧ trace (bound + k) ≠ 0 ∧ virgin (bound + k) = 0xff := by
    rintro ⟨k, within, hit, untouched⟩
    have missed := apart k within
    rw [untouched] at missed
    exact hit ((BitVec.and_allOnes (x := trace (bound + k))).symm.trans missed)
  constructor
  · rw [scanned.verdict]
    apply novelty_congr
    · unfold Pristine
      rw [exists_block_iff, or_iff_left noPristine]
    · unfold Meets
      rw [exists_block_iff, or_iff_left noMeet]
  · intro i
    rw [scanned.cleared]
    by_cases earlier : i < bound
    · rw [if_pos earlier, if_pos (by omega)]
    · rw [if_neg earlier]
      by_cases inside : i < bound + w
      · rw [if_pos inside]
        have missed := apart (i - bound) (by omega)
        rw [show bound + (i - bound) = i by omega] at missed
        exact (byte_clear_of_apart _ _ missed).symm
      · rw [if_neg inside]

private theorem Scanned.store_cleared {size : WordSize} (i : Nat) :
    store size.bytes s.2 bound (load size.bytes s.2 bound &&& ~~~(load size.bytes trace bound)) i =
      if i < bound + size.bytes then virgin i &&& ~~~(trace i) else virgin i := by
  by_cases inside : bound ≤ i ∧ i < bound + size.bytes
  · obtain ⟨k, rfl⟩ : ∃ k, i = bound + k := ⟨i - bound, by omega⟩
    have within : k < size.bytes := by omega
    rw [store_inside within, laneAt_and, laneAt_not _ _ within,
      laneAt_load _ _ _ _ within, laneAt_load _ _ _ _ within, scanned.cleared,
      if_neg (by omega), if_pos inside.2]
  · rw [store_outside (by omega), scanned.cleared]
    by_cases earlier : i < bound
    · rw [if_pos earlier, if_pos (by omega)]
    · rw [if_neg earlier, if_neg (by omega)]

end

private theorem discoverWord_scanned (s : Nat × Buffer) (scanned : Scanned trace virgin bound s) :
    Scanned trace virgin (bound + size.bytes) (discoverWord size trace bound s) := by
  -- the bytes of this word have not been touched by the words before it
  have fresh : ∀ k, s.2 (bound + k) = virgin (bound + k) := by
    intro k
    rw [scanned.cleared, if_neg (by omega)]
  unfold discoverWord
  by_cases lit : load size.bytes trace bound &&& load size.bytes s.2 bound ≠ 0
  · simp only [if_pos lit]
    rw [load_and_ne_zero_iff] at lit
    simp only [fresh] at lit ⊢
    constructor
    · rw [novelty_block _ _ _ size.bytes lit, ← scanned.verdict]
    · exact scanned.store_cleared
  · simp only [if_neg lit]
    rw [load_and_ne_zero_iff] at lit
    simp only [fresh, not_exists, not_and, ne_eq, not_not] at lit
    exact scanned.skip lit

private theorem discoverStep_scanned (idx : Nat) (s : Nat × Buffer)
    (scanned : Scanned trace virgin (size.bytes * idx) s) :
    Scanned trace virgin (size.bytes * (idx + 1)) (discoverStep size trace idx s) := by
  unfold discoverStep
  by_cases lit : load size.bytes trace (size.bytes * idx) ≠ 0
  · rw [if_pos lit]
    exact discoverWord_scanned _ _ _ _ _ scanned
  · rw [if_neg lit]
    rw [load_ne_zero_iff] at lit
    simp only [not_exists, not_and, ne_eq, not_not] at lit
    apply scanned.skip
    intro k within
    rw [lit k within]
    exact BitVec.zero_and

theorem discoverWords_scanned :
    Scanned trace virgin (size.bytes * size.realWords realMapSize)
      (discoverWords size realMapSize trace virgin) := by
  apply forUpto_invariant (size.realWords _) (discoverStep _ _)
    (fun idx s => Scanned _ _ (size.bytes * idx) s)
  · constructor
    · symm
      rw [novelty_eq_zero_iff]
      rintro ⟨i, within, _lit⟩
      cases within
    · intro i
      rw [Nat.mul_zero, if_neg (Nat.not_lt_zero i)]
  · intro idx _within s scanned
    exact discoverStep_scanned _ _ _ _ _ scanned

theorem WordSize.realMapSize_le_scanned :
    realMapSize ≤ size.bytes * size.realWords realMapSize := by
  cases size <;> simp only [bytes, realWords, Nat.shiftRight_eq_div_pow] <;> omega

@[simp] theorem hasNewBits_verdict (size : WordSize) (cov : Coverage) (map : VirginMap) :
    (hasNewBits size cov map).1 = novelty cov.fsrv.traceBits (cov.virgin map)
        (size.bytes * size.realWords cov.fsrv.realMapSize) := by
  rw [← (discoverWords_scanned _ _ _ _).verdict]
  unfold hasNewBits
  dsimp only
  split <;> rfl

@[simp] theorem hasNewBits_fsrv (size : WordSize) (cov : Coverage) (map : VirginMap) :
    (hasNewBits size cov map).2.fsrv = cov.fsrv := by
  unfold hasNewBits
  dsimp only
  split <;> exact Coverage.setVirgin_fsrv

theorem hasNewBits_virgin (i : Nat) :
    (hasNewBits size cov map).2.virgin map i =
      if i < size.bytes * size.realWords cov.fsrv.realMapSize then
        cov.virgin map i &&& ~~~(cov.fsrv.traceBits i)
      else cov.virgin map i := by
  rw [← (discoverWords_scanned _ _ _ _).cleared]
  unfold hasNewBits
  dsimp only
  split
  · rename_i changed
    rw [changed.2]
    rfl
  · rw [Coverage.virgin_setVirgin]

theorem hasNewBits_virgin_of_ne (other : VirginMap) (ne : other ≠ map) :
    (hasNewBits size cov map).2.virgin other = cov.virgin other := by
  unfold hasNewBits
  dsimp only
  split
  · rw [← Coverage.virgin_setVirgin_of_ne cov _ _ _ ne]
    cases other <;> rfl
  · exact Coverage.virgin_setVirgin_of_ne _ _ _ _ ne

def Padded (realMapSize : Nat) (trace : Buffer) : Prop :=
  ∀ i, realMapSize ≤ i → trace i = 0

section PaddedTrace

variable {size : WordSize} {cov : Coverage} {map : VirginMap}
variable (padded : Padded cov.fsrv.realMapSize cov.fsrv.traceBits)

include padded

theorem hasNewBits_virgin_of_padded (i : Nat) :
    (hasNewBits size cov map).2.virgin map i = cov.virgin map i &&& ~~~(cov.fsrv.traceBits i) := by
  rw [hasNewBits_virgin]
  split
  · rfl
  · have covered := size.realMapSize_le_scanned cov.fsrv.realMapSize
    rw [padded i (by omega)]
    exact (byte_clear_of_apart 0 _ BitVec.zero_and).symm

theorem pristine_scanned_iff :
    Pristine cov.fsrv.traceBits (cov.virgin map)
        (size.bytes * size.realWords cov.fsrv.realMapSize) ↔
      ∃ i, cov.fsrv.traceBits i ≠ 0 ∧ cov.virgin map i = 0xff := by
  have covered := size.realMapSize_le_scanned cov.fsrv.realMapSize
  constructor
  · rintro ⟨i, _within, found⟩
    exact ⟨i, found⟩
  · rintro ⟨i, hit, untouched⟩
    refine ⟨i, ?_, hit, untouched⟩
    by_contra outside
    exact hit (padded i (by omega))

theorem meets_scanned_iff :
    Meets cov.fsrv.traceBits (cov.virgin map) (size.bytes * size.realWords cov.fsrv.realMapSize) ↔
      ∃ i, cov.fsrv.traceBits i &&& cov.virgin map i ≠ 0 := by
  have covered := size.realMapSize_le_scanned cov.fsrv.realMapSize
  constructor
  · rintro ⟨i, _within, found⟩
    exact ⟨i, found⟩
  · rintro ⟨i, lit⟩
    refine ⟨i, ?_, lit⟩
    by_contra outside
    apply lit
    rw [padded i (by omega)]
    exact BitVec.zero_and

end PaddedTrace

private theorem coverage_ext {left right : Coverage} (fsrv : left.fsrv = right.fsrv)
    (maps : ∀ map, left.virgin map = right.virgin map)
    (changed : left.bitmapChanged = right.bitmapChanged) : left = right := by
  cases left
  cases right
  simp only [Coverage.mk.injEq]
  exact ⟨fsrv, maps .bits, maps .tmout, maps .crash, changed⟩

theorem hasNewBits_bitmapChanged :
    (hasNewBits size cov map).2.bitmapChanged =
      if (hasNewBits size cov map).1 ≠ 0 ∧ map = .bits then true else cov.bitmapChanged := by
  unfold hasNewBits
  dsimp only
  split
  · rfl
  · cases map <;> rfl

theorem hasNewBits_flavour_agree (padded : Padded cov.fsrv.realMapSize cov.fsrv.traceBits) :
    hasNewBits .size32 cov map = hasNewBits .size64 cov map := by
  have verdict : (hasNewBits .size32 cov map).1 = (hasNewBits .size64 cov map).1 := by
    rw [hasNewBits_verdict, hasNewBits_verdict]
    apply novelty_congr
    · rw [pristine_scanned_iff padded, pristine_scanned_iff padded]
    · rw [meets_scanned_iff padded, meets_scanned_iff padded]
  apply Prod.ext verdict
  apply coverage_ext
  · rw [hasNewBits_fsrv, hasNewBits_fsrv]
  · intro other
    by_cases same : other = map
    · subst same
      funext i
      rw [hasNewBits_virgin_of_padded padded, hasNewBits_virgin_of_padded padded]
    · rw [hasNewBits_virgin_of_ne _ _ _ _ same, hasNewBits_virgin_of_ne _ _ _ _ same]
  · rw [hasNewBits_bitmapChanged, hasNewBits_bitmapChanged, verdict]

theorem hasNewBits_eq_self_of_zero (zero : (hasNewBits size cov map).1 = 0) :
    (hasNewBits size cov map).2 = cov := by
  have apart := (novelty_eq_zero_iff _ _ _).mp ((hasNewBits_verdict _ _ _).symm.trans zero)
  apply coverage_ext
  · exact hasNewBits_fsrv _ _ _
  · intro other
    by_cases same : other = map
    · subst same
      funext i
      rw [hasNewBits_virgin]
      split
      · rename_i within
        apply byte_clear_of_apart
        by_contra lit
        exact apart ⟨i, within, lit⟩
      · rfl
    · exact hasNewBits_virgin_of_ne _ _ _ _ same
  · rw [hasNewBits_bitmapChanged, zero, if_neg (fun both => both.1 rfl)]

private theorem hasNewBits_again : (hasNewBits size (hasNewBits size cov map).2 map).1 = 0 := by
  rw [hasNewBits_verdict, novelty_eq_zero_iff]
  rintro ⟨i, within, lit⟩
  rw [hasNewBits_fsrv] at within lit
  rw [hasNewBits_virgin, if_pos within] at lit
  apply lit
  apply BitVec.eq_of_getLsbD_eq
  intro bit inside
  simp only [BitVec.getLsbD_and, BitVec.getLsbD_not, inside, decide_true, Bool.true_and]
  cases (cov.fsrv.traceBits i).getLsbD bit <;> simp

def novelRun (size : WordSize) (map : VirginMap) (cov : Coverage) (traces : List Buffer) :
    Coverage :=
  traces.foldl (fun current trace => (hasNewBits size (current.withTrace trace) map).2) cov

@[simp] theorem novelRun_realMapSize (size : WordSize) (map : VirginMap) (cov : Coverage)
    (traces : List Buffer) :
    (novelRun size map cov traces).fsrv.realMapSize = cov.fsrv.realMapSize := by
  induction traces generalizing cov with
  | nil => rfl
  | cons trace rest ih =>
    have step := ih (hasNewBits size (cov.withTrace trace) map).2
    rw [hasNewBits_fsrv] at step
    exact step

private theorem novelRun_flavour_agree (traces : List Buffer)
    (padded : ∀ trace ∈ traces, Padded cov.fsrv.realMapSize trace) :
    novelRun .size32 map cov traces = novelRun .size64 map cov traces := by
  induction traces generalizing cov with
  | nil => rfl
  | cons trace rest ih =>
    have first : hasNewBits .size32 (cov.withTrace trace) map =
        hasNewBits .size64 (cov.withTrace trace) map :=
      hasNewBits_flavour_agree _ _ (padded _ (List.mem_cons_self ..))
    change novelRun .size32 map (hasNewBits .size32 (cov.withTrace trace) map).2 rest =
      novelRun .size64 map (hasNewBits .size64 (cov.withTrace trace) map).2 rest
    rw [first]
    apply ih
    intro later mem
    rw [hasNewBits_fsrv]
    exact padded _ (List.mem_cons_of_mem _ mem)

/-- Novelty over whole runs.  After any run of traces from any virgin map, the
next call clears the bits of its trace, answers by the per-byte reading, and
leaves nothing for a repetition; the two word sizes cannot be told apart. -/
theorem hasNewBits_run_law (cov : Coverage) (map : VirginMap) (traces : List Buffer)
    (trace : Buffer) (padded : ∀ item ∈ trace :: traces, Padded cov.fsrv.realMapSize item)
    (size : WordSize) :
    let pre := (novelRun size map cov traces).withTrace trace
    let call := hasNewBits size pre map
    (∀ i, call.2.virgin map i = pre.virgin map i &&& ~~~(trace i)) ∧
      (call.1 = 2 ↔ ∃ i, trace i ≠ 0 ∧ pre.virgin map i = 0xff) ∧
      (call.1 = 1 ↔ (¬ ∃ i, trace i ≠ 0 ∧ pre.virgin map i = 0xff) ∧
        ∃ i, trace i &&& pre.virgin map i ≠ 0) ∧
      (call.1 = 0 ↔ (¬ ∃ i, trace i ≠ 0 ∧ pre.virgin map i = 0xff) ∧
        ¬ ∃ i, trace i &&& pre.virgin map i ≠ 0) ∧
      hasNewBits size call.2 map = (0, call.2) ∧
      novelRun .size32 map cov traces = novelRun .size64 map cov traces ∧
      hasNewBits .size32 pre map = hasNewBits .size64 pre map := by
  intro pre call
  have last : Padded pre.fsrv.realMapSize pre.fsrv.traceBits := by
    have real : pre.fsrv.realMapSize = cov.fsrv.realMapSize := novelRun_realMapSize _ _ _ _
    rw [real]
    exact padded _ (List.mem_cons_self ..)
  have pristine := @pristine_scanned_iff size _ map last
  have meets := @meets_scanned_iff size _ map last
  have verdict : call.1 = novelty pre.fsrv.traceBits (pre.virgin map)
      (size.bytes * size.realWords pre.fsrv.realMapSize) := hasNewBits_verdict _ _ _
  refine ⟨?_, ?_, ?_, ?_, ?_, ?_, ?_⟩
  · intro i
    exact hasNewBits_virgin_of_padded last i
  · rw [verdict, novelty_eq_two_iff, pristine]
    rfl
  · rw [verdict, novelty_eq_one_iff, pristine, meets]
    rfl
  · rw [verdict, novelty_eq_zero_iff, meets]
    constructor
    · intro apart
      refine ⟨?_, apart⟩
      intro found
      exact apart (meets.mp (pristine.mpr found).meets)
    · intro both
      exact both.2
  · have again := hasNewBits_again size pre map
    exact Prod.ext again (hasNewBits_eq_self_of_zero _ _ _ again)
  · exact novelRun_flavour_agree _ _ _ (fun item mem => padded _ (List.mem_cons_of_mem _ mem))
  · exact hasNewBits_flavour_agree _ _ last

def singleHit (tuple : Nat) : Buffer :=
  fun i => if i = tuple then 1 else 0

theorem singleHit_padded (tuple : Nat) (inside : tuple < realMapSize) :
    Padded realMapSize (singleHit tuple) := by
  intro i outside
  unfold singleHit
  rw [if_neg (by omega)]

theorem hasNewBits_run_law_second_tuple :
    (hasNewBits .size64 ((novelRun .size64 .bits (Coverage.initial 64 3)
      [singleHit 0]).withTrace (singleHit 1)) .bits).1 = 2 := by
  have law := hasNewBits_run_law (Coverage.initial 64 3) .bits [singleHit 0] (singleHit 1) (by
      intro item mem
      rcases List.mem_cons.mp mem with last | earlier
      · rw [last]
        exact singleHit_padded 3 1 (by decide)
      · rw [List.mem_singleton.mp earlier]
        exact singleHit_padded 3 0 (by decide)) .size64
  exact law.2.1.mpr ⟨1, by decide, by decide⟩

section Runs

variable {size : WordSize} {cov : Coverage} {map : VirginMap} {traces : List Buffer} {i bit : Nat}

private theorem novelRun_virgin (padded : ∀ trace ∈ traces, Padded cov.fsrv.realMapSize trace)
    (inside : bit < 8) :
    ((novelRun size map cov traces).virgin map i).getLsbD bit = true ↔
      (cov.virgin map i).getLsbD bit = true ∧ ∀ trace ∈ traces, (trace i).getLsbD bit = false := by
  induction traces generalizing cov with
  | nil => simp [novelRun]
  | cons trace rest ih =>
    obtain ⟨first, others⟩ := List.forall_mem_cons.1 padded
    refine (@ih (hasNewBits size (cov.withTrace trace) map).2 ?_).trans ?_
    · rwa [hasNewBits_fsrv]
    · rw [hasNewBits_virgin_of_padded first]
      simp [inside, and_assoc]

/-- A trace is reported exactly if it has a bit that the map had at the start of the
run and no trace of the run has set. -/
theorem reported_iff_new_bit {trace : Buffer}
    (padded : ∀ item ∈ trace :: traces, Padded cov.fsrv.realMapSize item) :
    (hasNewBits size ((novelRun size map cov traces).withTrace trace) map).1 ≠ 0 ↔
      ∃ i bit, (trace i).getLsbD bit = true ∧ (cov.virgin map i).getLsbD bit = true ∧
        ∀ earlier ∈ traces, (earlier i).getLsbD bit = false := by
  obtain ⟨last, others⟩ := List.forall_mem_cons.1 padded
  rw [← novelRun_realMapSize size map cov traces] at last
  rw [hasNewBits_verdict, Ne, novelty_eq_zero_iff, not_not, meets_scanned_iff last]
  constructor
  · rintro ⟨i, lit⟩
    by_contra none
    apply lit
    apply BitVec.eq_of_getLsbD_eq
    intro bit inside
    refine Eq.trans ?_ BitVec.getLsbD_zero.symm
    rw [BitVec.getLsbD_and, Coverage.withTrace_virgin, ← Bool.not_eq_true, Bool.and_eq_true,
      novelRun_virgin others inside]
    exact fun new => none ⟨i, bit, new⟩
  · rintro ⟨i, bit, hit, fresh⟩
    refine ⟨i, fun zero => ?_⟩
    have kept := (@novelRun_virgin size _ map _ _ _ others (BitVec.lt_of_getLsbD hit)).2 fresh
    have dark := congrArg (BitVec.getLsbD · bit) zero
    simp [hit, kept] at dark

theorem reported_iff_new_bit_second_tuple :
    (hasNewBits .size64 ((novelRun .size64 .bits (Coverage.initial 64 3)
      [singleHit 0]).withTrace (singleHit 1)) .bits).1 ≠ 0 := by
  have padded : ∀ item ∈ [singleHit 1, singleHit 0], Padded 3 item := by
    simp [singleHit_padded]
  exact (@reported_iff_new_bit _ (Coverage.initial 64 3) _ _ _ padded).2 ⟨1, 0, by decide⟩

end Runs

end AflPlusPlus
