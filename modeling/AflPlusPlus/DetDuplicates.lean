/-
Whether the candidates that a deterministic pass passes over are executed by it.

A candidate that an earlier stage can produce is executed there, or passed over there as
well for a narrower reason, down to the bit flips.  The one gap is a pattern across a
byte boundary, which counts as a flip and is none.
-/

import AflPlusPlus.DetPatterns
import Mathlib.Data.Nat.Bitwise

namespace AflPlusPlus

open Machine List BitVec
open Machine.LaneWord

variable {xorVal : BitVec 32} {scan : LaneScan} {worthwhile : Bool}

/-- How the content with `v` at `i` differs from the input there. -/
def changeAt (w : Nat) (buf : Buffer) (i : Nat) (v : BitVec (8 * w)) : BitVec 32 :=
  (load w buf i ^^^ v).setWidth 32

/-- The content with `v` at `i` is executed. -/
abbrev Hit (w len : Nat) (buf : Buffer) (i : Nat) (v : BitVec (8 * w)) : Prop :=
  Reached false len buf i (changeAt w buf i v)

def steps {w : Nat} (orig : BitVec w) (j : Nat) : List (BitVec w) :=
  [orig + BitVec.ofNat w j, orig - BitVec.ofNat w j]

/-- No step of 32 and no interesting value changes the input by a pattern across a
byte boundary. -/
structure NoStraddle (len : Nat) (buf : Buffer) : Prop where
  step : ∀ i, i + 2 ≤ len → ∀ v ∈ steps (load 2 buf i) 32, ¬ Straddles (changeAt 2 buf i v)
  value16 : ∀ i, i + 2 ≤ len → ∀ v ∈ interesting16, ∀ written ∈ [v, swap16 v],
    ¬ Straddles (changeAt 2 buf i written)
  value32 : ∀ i, i + 4 ≤ len → ∀ v ∈ interesting32, ∀ written ∈ [v, swap32 v],
    ¬ Straddles (changeAt 4 buf i written)

variable {part j skip : Nat}

section Change

variable {len w : Nat} {buf : Buffer} {i : Nat}

theorem changeAt_lt (short : w ≤ 4) (v : BitVec (8 * w)) :
    (changeAt w buf i v).toNat < 2 ^ (8 * w) := by
  unfold changeAt
  rw [BitVec.toNat_setWidth_of_le (by omega)]
  exact BitVec.isLt _

private theorem changeAt_same : changeAt w buf i (load w buf i) = 0 := by
  unfold changeAt
  rw [BitVec.xor_self]
  exact BitVec.setWidth_zero _ _

theorem straddles_large (straddles : Straddles xorVal) :
    256 ≤ xorVal.toNat :=
  straddles.elim (fun v => 256 ≤ v) (by decide)

theorem changeAt_straight {v : BitVec 8} : ¬ Straddles (changeAt 1 buf i v) := by
  intro straddles
  have large := straddles_large straddles
  have bound := @changeAt_lt 1 buf i (by decide) v
  omega

theorem reached_part {v : BitVec (8 * part)} (fits : skip + part ≤ 4)
    (reached : Hit part len buf (i + skip) v) :
    Reached false len buf i (changeAt part buf (i + skip) v <<< (8 * skip)) := by
  apply reached.shift
  have small := @changeAt_lt _ buf (i + skip) (by omega) v
  calc (changeAt part buf (i + skip) v).toNat * 2 ^ (8 * skip)
      < 2 ^ (8 * part) * 2 ^ (8 * skip) := Nat.mul_lt_mul_of_pos_right small (Nat.two_pow_pos _)
    _ = 2 ^ (8 * part + 8 * skip) := (Nat.pow_add _ _ _).symm
    _ ≤ 2 ^ 32 := Nat.pow_le_pow_right (by decide) (by omega)

theorem reached_trial {trial : Trial w} (short : w ≤ 4) (inside : i + w ≤ len)
    (mem : trial ∈ trials false w (load w buf i)) (worthwhile : trial.worthwhile = true)
    (dup : trial.duplicate = true → Hit w len buf i trial.value) :
    Hit w len buf i trial.value := by
  cases kind : trial.duplicate with
  | true => exact dup kind
  | false =>
    have tried := Tried.trial inside mem worthwhile
    rw [kind, store_eq_xorAt short] at tried
    exact tried

theorem reached_arith {v : BitVec (8 * w)} (short : w ≤ 4) (inside : i + w ≤ len)
    (mem : ⟨v, worthwhile, couldBeBitflip (changeAt w buf i v)⟩ ∈ trials false w (load w buf i))
    (straight : worthwhile = true → ¬ Straddles (changeAt w buf i v))
    (narrow : worthwhile = false → Hit w len buf i v) :
    Hit w len buf i v := by
  cases worthwhile with
  | false => exact narrow rfl
  | true =>
    refine @reached_trial _ _ _ i ⟨v, true, _⟩ short inside mem rfl ?_
    intro flips
    exact reached_flip inside (changeAt_lt short _) flips (straight rfl)

theorem mem_stepTrials {list : BitVec (8 * w) → Nat → List (Trial w)}
    {orig : BitVec (8 * w)} {trial : Trial w} (pos : 0 < j)
    (small : j ≤ arithMax) (mem : trial ∈ list orig j) :
    trial ∈ stepTrials w list orig := by
  obtain ⟨k, rfl⟩ : ∃ k, j = k + 1 := ⟨j - 1, by omega⟩
  exact mem_flatMap.2 ⟨k, mem_range.2 small, mem⟩

theorem steps_zero {orig v : BitVec w} (mem : v ∈ steps orig 0) : v = orig := by
  simpa [steps] using mem

theorem hit_same : Hit w len buf i (load w buf i) := by
  rw [Hit, changeAt_same]
  exact reached_zero

end Change

/-- What a step does to a word whose lower part has `narrow` bits: it overflows into
the upper part, or it is a step of the lower part. -/
structure StepSplit {wide : Nat} (narrow : Nat) (word v : BitVec wide) (j : Nat)
    (worthwhile : Bool) : Prop where
  far : worthwhile = true → (word ^^^ v).toNat % 2 ^ narrow / 2 ^ 6 = 2 ^ (narrow - 6) - 1
  near : worthwhile = false → ∃ part ∈ steps (word.setWidth narrow) j, ∀ total, wide ≤ total →
    (word ^^^ v).setWidth total = (word.setWidth narrow ^^^ part).setWidth total

variable {narrow wide : Nat}

private theorem stepSplit_add (word : BitVec wide) (small : j ≤ arithMax)
    (least : 6 ≤ narrow) (shorter : narrow ≤ wide) :
    StepSplit narrow word (word + BitVec.ofNat wide j) j
      (2 ^ narrow - 1 < word.toNat % 2 ^ narrow + j) where
  far worthwhile := by
    have wraps := of_decide_eq_true worthwhile
    exact overflow_add _ j least shorter (Nat.lt_of_le_of_lt small (by decide)) (by omega)
  near calm := by
    have below := of_decide_eq_false calm
    refine ⟨_, mem_cons_self, fun total fits => ?_⟩
    exact calm_add _ j fits shorter (by omega)

private theorem stepSplit_sub (word : BitVec wide) (small : j ≤ arithMax)
    (least : 6 ≤ narrow) (shorter : narrow ≤ wide) :
    StepSplit narrow word (word - BitVec.ofNat wide j) j (word.toNat % 2 ^ narrow < j) where
  far worthwhile :=
    overflow_sub word j least shorter (Nat.lt_of_le_of_lt small (by decide))
      (of_decide_eq_true worthwhile)
  near calm := by
    refine ⟨_, mem_cons_of_mem _ mem_cons_self, fun total fits => ?_⟩
    exact calm_sub _ j fits shorter (Nat.not_lt.1 (of_decide_eq_false calm))

variable {w : Nat}

section Arith

variable {len : Nat} {buf : Buffer} {i j : Nat}

theorem reached_arith8 (inside : i + 1 ≤ len) (small : j ≤ arithMax) {v : BitVec 8}
    (mem : v ∈ steps (load 1 buf i) j) :
    Hit 1 len buf i v := by
  rcases Nat.eq_zero_or_pos j with rfl | pos
  · rw [steps_zero mem]
    exact hit_same
  · have listed : ⟨v, true, couldBeBitflip (changeAt 1 buf i v)⟩ ∈
        arith8Trials (load 1 buf i) j := mem_map.2 ⟨v, mem, rfl⟩
    exact reached_arith (by decide) inside (mem_append_left _ (mem_stepTrials pos small listed))
      (fun _ => changeAt_straight) nofun

private theorem setWidth_load (fits : part ≤ w) (short : w ≤ 4) :
    (load w buf i).setWidth (8 * part) = load part buf i := by
  have whole := setWidth_shift_load buf i 0 (show 0 + part ≤ w by omega) short
  rw [ushiftRight_zero, setWidth_setWidth_of_le _ (by omega)] at whole
  exact whole

theorem toNat_low (word mask : BitVec w) (ones : mask.toNat = 2 ^ narrow - 1) :
    (word &&& mask).toNat = word.toNat % 2 ^ narrow := by
  rw [toNat_and, ones, Nat.and_two_pow_sub_one_eq_mod]

private theorem step_of_straddles {word v : BitVec 16} (pos : 0 < j) (small : j ≤ arithMax)
    (mem : v ∈ steps word j) (straddles : Straddles ((word ^^^ v).setWidth 32)) :
    j = 32 := by
  have pattern : (word ^^^ v).toNat % 2 ^ 5 = 0 := by
    have zeros := straddles.elim (fun v => v % 2 ^ 5 = 0) (by decide)
    exact zeros
  rw [toNat_xor, Nat.xor_mod_two_pow, Nat.xor_eq_zero_iff] at pattern
  have most : j ≤ 35 := small
  simp only [steps, mem_cons, not_mem_nil, or_false] at mem
  rcases mem with rfl | rfl
  · rw [toNat_add, toNat_ofNat] at pattern
    omega
  · rw [toNat_sub, toNat_ofNat] at pattern
    omega

section Words

/- A step in one byte order, read by `view`, of a stage over words of two parts. -/
variable {w part low : Nat} {swap view : BitVec (8 * w) → BitVec (8 * w)}
  {lowLe lowBe : BitVec (8 * w) → Nat} {v : BitVec (8 * w)}
  (order : view = id ∧ low = lowLe (load w buf i) ∨ view = swap ∧ low = lowBe (load w buf i))
  (lowest : low = (view (load w buf i)).toNat % 2 ^ (8 * part)) (pos : 0 < part)
  (whole : w = 2 * part) (small : j ≤ arithMax)
  (mem : v ∈ steps (view (load w buf i)) j)
include order lowest pos whole small mem

theorem arithWordTrials_step :
    ∃ worthwhile, ⟨view v, worthwhile, couldBeBitflip (changeAt w buf i (view v))⟩ ∈
        arithWordTrials w swap lowLe lowBe (2 ^ (8 * part) - 1) (load w buf i) j ∧
      StepSplit (8 * part) (view (load w buf i)) v j worthwhile := by
  simp only [steps, mem_cons, not_mem_nil, or_false] at mem
  rcases mem with rfl | rfl
  · refine ⟨_, ?_, lowest ▸ stepSplit_add _ small (by omega) (by omega)⟩
    rcases order with ⟨rfl, rfl⟩ | ⟨rfl, rfl⟩ <;> simp [arithWordTrials, changeAt]
  · refine ⟨_, ?_, lowest ▸ stepSplit_sub _ small (by omega) (by omega)⟩
    rcases order with ⟨rfl, rfl⟩ | ⟨rfl, rfl⟩ <;> simp [arithWordTrials, changeAt]

theorem reached_steps (twice : ∀ word, view (view word) = word) (short : part ≤ 2)
    (inside : i + w ≤ len)
    (included : ∀ trial ∈ stepTrials w (arithWordTrials w swap lowLe lowBe
      (2 ^ (8 * part) - 1)) (load w buf i), trial ∈ trials false w (load w buf i))
    (far : 0 < j → StepSplit (8 * part) (view (load w buf i)) v j true →
      ¬ Straddles (changeAt w buf i (view v)))
    (near : StepSplit (8 * part) (view (load w buf i)) v j false → Hit w len buf i (view v)) :
    Hit w len buf i (view v) := by
  rcases Nat.eq_zero_or_pos j with rfl | some
  · rw [steps_zero mem, twice]
    exact hit_same
  · obtain ⟨worthwhile, listed, split⟩ := arithWordTrials_step order lowest pos whole small mem
    refine reached_arith (by omega) inside (included _ (mem_stepTrials some small listed)) ?_ ?_
    · rintro rfl
      exact far some split
    · rintro rfl
      exact near split

end Words

section Halves

variable {w part : Nat} {swap : BitVec (8 * w) → BitVec (8 * w)}
  {turn : BitVec (8 * part) → BitVec (8 * part)} {v : BitVec (8 * w)}

theorem hit_lower (whole : w = 2 * part) (short : part ≤ 2)
    (split : StepSplit (8 * part) (load w buf i) v j false)
    (lower : ∀ step ∈ steps (load part buf i) j, Hit part len buf i step) :
    Hit w len buf i v := by
  obtain ⟨step, mem, same⟩ := split.near rfl
  rw [setWidth_load (by omega) (by omega)] at mem same
  have changes : changeAt w buf i v = changeAt part buf i step := same 32 (by omega)
  rw [Hit, changes]
  exact lower _ mem

theorem hit_upper (reverses : Reverses w swap) (inner : Reverses part turn)
    (whole : w = 2 * part) (pos : 0 < part) (short : part ≤ 2)
    (split : StepSplit (8 * part) (swap (load w buf i)) v j false)
    (upper : ∀ step ∈ steps (turn (load part buf (i + part))) j,
      Hit part len buf (i + part) (turn step)) :
    Hit w len buf i (swap v) := by
  obtain ⟨step, mem, same⟩ := split.near rfl
  rw [reverses.load_half inner whole] at mem same
  have moved : changeAt w buf i (swap v) =
      changeAt part buf (i + part) (turn step) <<< (8 * part) := by
    have all := same (8 * w) (Nat.le_refl _)
    rw [setWidth_eq] at all
    unfold changeAt
    rw [← reverses.swap_swap (load w buf i), ← reverses.swap_xor, all,
      reverses.half inner whole pos short, inner.swap_xor, inner.swap_swap]
  rw [Hit, moved]
  exact reached_part (by omega) (upper _ mem)

end Halves

theorem reached_arith16 (straight : NoStraddle len buf) (inside : i + 2 ≤ len)
    (small : j ≤ arithMax) {v : BitVec 16} (mem : v ∈ steps (load 2 buf i) j) :
    Hit 2 len buf i v := by
  refine @reached_steps len buf i j 2 1 _ swap16 id _ _ v (.inl ⟨rfl, rfl⟩) (toNat_low _ _ rfl)
    (by decide) rfl small mem (fun _ => rfl) (by decide) inside (fun _ => mem_append_left _) ?_ ?_
  · intro pos _ straddles
    have large := step_of_straddles pos small mem straddles
    subst large
    exact straight.step i inside _ mem straddles
  · intro split
    exact @hit_lower len buf i j 2 1 _ rfl (by decide) split
      (fun _ => reached_arith8 (by omega) small)

theorem toNat_high16 (word : BitVec 16) : (word >>> 8).toNat = (swap16 word).toNat % 2 ^ 8 := by
  have lane := congrArg BitVec.toNat (reverses16 word 0 (by decide))
  rw [toNat_laneAt, toNat_laneAt, Nat.pow_zero] at lane
  rw [toNat_ushiftRight]
  omega

theorem reached_arith16_be (inside : i + 2 ≤ len) (small : j ≤ arithMax) {v : BitVec 16}
    (mem : v ∈ steps (swap16 (load 2 buf i)) j) :
    Hit 2 len buf i (swap16 v) := by
  refine @reached_steps len buf i j 2 1 _ swap16 swap16 _ _ v (.inr ⟨rfl, rfl⟩) (toNat_high16 _)
    (by decide) rfl small mem reverses16.swap_swap (by decide) inside
    (fun _ => mem_append_left _) ?_ ?_
  · intro _ split straddles
    have other := straddles.elim (fun v => v < 2 ^ 16 →
      (swap16 (BitVec.ofNat 16 v)).toNat % 2 ^ 8 / 2 ^ 6 ≠ 2 ^ (8 - 6) - 1) (by decide)
    unfold changeAt at other
    rw [toNat_setWidth_of_le (by decide), ofNat_toNat, setWidth_eq, reverses16.swap_xor,
      reverses16.swap_swap] at other
    exact other (BitVec.isLt _) (split.far rfl)
  · intro split
    exact hit_upper reverses16 reverses8 rfl (by decide) (by decide) split
      (fun _ => reached_arith8 (by omega) small)

theorem reached_arith32 (straight : NoStraddle len buf) (inside : i + 4 ≤ len)
    (small : j ≤ arithMax) {v : BitVec 32} (mem : v ∈ steps (load 4 buf i) j) :
    Hit 4 len buf i v := by
  refine @reached_steps len buf i j 4 2 _ swap32 id _ _ v (.inl ⟨rfl, rfl⟩) (toNat_low _ _ rfl)
    (by decide) rfl small mem (fun _ => rfl) (by decide) inside (fun _ => mem_append_left _) ?_ ?_
  · intro _ split straddles
    have other := straddles.elim (fun v => v % 2 ^ 16 / 2 ^ 6 ≠ 2 ^ (16 - 6) - 1) (by decide)
    exact other (split.far rfl)
  · intro split
    exact @hit_lower len buf i j 4 2 _ rfl (by decide) split
      (fun _ => reached_arith16 straight (by omega) small)

theorem reached_arith32_be (inside : i + 4 ≤ len) (small : j ≤ arithMax) {v : BitVec 32}
    (mem : v ∈ steps (swap32 (load 4 buf i)) j) :
    Hit 4 len buf i (swap32 v) := by
  refine @reached_steps len buf i j 4 2 _ swap32 swap32 _ _ v (.inr ⟨rfl, rfl⟩) (toNat_low _ _ rfl)
    (by decide) rfl small mem reverses32.swap_swap (by decide) inside
    (fun _ => mem_append_left _) ?_ ?_
  · intro _ split straddles
    have other := straddles.elim (fun v =>
      (swap32 (BitVec.ofNat 32 v)).toNat % 2 ^ 16 / 2 ^ 6 ≠ 2 ^ (16 - 6) - 1) (by decide)
    unfold changeAt at other
    rw [toNat_setWidth_of_le (by decide), ofNat_toNat, setWidth_eq, reverses32.swap_xor,
      reverses32.swap_swap] at other
    exact other (split.far rfl)
  · intro split
    exact hit_upper reverses32 reverses16 rfl (by decide) (by decide) split
      (fun _ => reached_arith16_be (by omega) small)

end Arith

structure SingleLane (lane count : Nat) (oldVal newVal : BitVec 32) (scan : LaneScan) (k : Nat) :
    Prop where
  inside : k < count
  others : ∀ other, other < count → other ≠ k → laneAt lane oldVal other = laneAt lane newVal other
  ov : scan.ov = (laneAt lane oldVal k).setWidth 32
  nv : scan.nv = (laneAt lane newVal k).setWidth 32

private theorem scanLanes_single {lane count : Nat} {oldVal newVal : BitVec 32} {start : LaneScan}
    (fresh : start.diffs = 0) (one : (scanLanes lane count oldVal newVal start).diffs = 1) :
    ∃ k, SingleLane lane count oldVal newVal (scanLanes lane count oldVal newVal start) k := by
  have scanned : ∀ scan, scan = scanLanes lane count oldVal newVal start →
      (scan.diffs = 0 ∧
        ∀ other, other < count → laneAt lane oldVal other = laneAt lane newVal other) ∨
      (scan.diffs = 1 ∧ ∃ k, SingleLane lane count oldVal newVal scan k) ∨ 2 ≤ scan.diffs := by
    rintro _ rfl
    apply forUpto_invariant _ _ (fun n scan =>
      (scan.diffs = 0 ∧ ∀ other, other < n → laneAt _ _ other = laneAt _ _ other) ∨
      (scan.diffs = 1 ∧ ∃ k, SingleLane _ n _ _ scan k) ∨ 2 ≤ scan.diffs)
    · exact .inl ⟨fresh, fun other below => absurd below (Nat.not_lt_zero _)⟩
    · intro n _ scan pre
      dsimp only
      split
      · rcases pre with ⟨none, same⟩ | ⟨single, _⟩ | many
        · refine .inr (.inl ⟨by rw [none], n, Nat.lt_succ_self n, ?_, rfl, rfl⟩)
          intro other below ne
          exact same _ (by omega)
        · exact .inr (.inr (by rw [single]))
        · exact .inr (.inr (Nat.le_succ_of_le many))
      · rename_i equal
        have here := Decidable.not_not.1 equal
        have extend : ∀ {holds : Nat → Prop}, (∀ other, other < n → holds other) → holds n →
            ∀ other, other < n + 1 → holds other := by
          intro holds earlier last other below
          rcases Nat.lt_succ_iff_lt_or_eq.1 below with pre | rfl
          · exact earlier _ pre
          · exact last
        rcases pre with ⟨none, same⟩ | ⟨single, k, inside, others, ov, nv⟩ | many
        · exact .inl ⟨none, extend same here⟩
        · exact .inr (.inl ⟨single, k, Nat.lt_succ_of_lt inside,
            extend others (fun _ => here), ov, nv⟩)
        · exact .inr (.inr many)
  rcases scanned _ rfl with ⟨none, _⟩ | ⟨_, found⟩ | many
  · omega
  · exact found
  · omega

theorem steps_of_withinArith {bits : Nat} (fits : bits ≤ 32) (old new : BitVec bits)
    (within : withinArith bits (old.setWidth 32) (new.setWidth 32) = true) :
    ∃ j, j ≤ arithMax ∧ new ∈ steps old j := by
  have narrow : ∀ left right : BitVec bits,
      (left.setWidth 32 - right.setWidth 32).setWidth bits = left - right := by
    intro left right
    rw [setWidth_sub _ _ fits, setWidth_setWidth_of_le _ fits,
      setWidth_setWidth_of_le _ fits, setWidth_eq, setWidth_eq]
  unfold withinArith at within
  rw [narrow, narrow, Bool.or_eq_true, decide_eq_true_eq, decide_eq_true_eq] at within
  rcases within with down | up
  · refine ⟨(old - new).toNat, down, mem_cons_of_mem _ (mem_singleton.2 ?_)⟩
    rw [BitVec.ofNat_toNat, BitVec.setWidth_eq, BitVec.eq_sub_iff_add_eq, BitVec.add_comm,
      BitVec.sub_add_cancel]
  · refine ⟨(new - old).toNat, up, mem_cons.2 (.inl ?_)⟩
    rw [BitVec.ofNat_toNat, BitVec.setWidth_eq, BitVec.add_comm, BitVec.sub_add_cancel]

section CouldBeArith

variable {len : Nat} {buf : Buffer} {i : Nat}

theorem changeAt_eq (v : BitVec (8 * w)) :
    (load w buf i).setWidth 32 ^^^ v.setWidth 32 = changeAt w buf i v :=
  setWidth_xor.symm

variable {v : BitVec (8 * w)} {k count : Nat}

theorem reached_lane (whole : w = part * count) (short : w ≤ 4) (pos : 0 < part)
    (single : SingleLane (8 * part) count ((load w buf i).setWidth 32) (v.setWidth 32) scan k)
    (reached : Reached false len buf (i + part * k)
      (changeAt part buf (i + part * k) (laneAt (8 * part) v k))) : Hit w len buf i v := by
  subst whole
  have within : part * k + part ≤ part * count := Nat.mul_le_mul_left _ single.inside
  have others : ∀ other, other ≠ k →
      laneAt (8 * part) (changeAt (part * count) buf i v) other = 0 := by
    intro other ne
    rcases Nat.lt_or_ge _ _ with inside | beyond
    · rw [← changeAt_eq, laneAt_xor, single.others _ inside ne]
      exact xor_self
    · unfold changeAt
      rw [laneAt_setWidth (by omega)]
      apply laneAt_beyond
      rw [Nat.mul_assoc]
      exact Nat.mul_le_mul_left 8 (Nat.mul_le_mul_left _ beyond)
  have lane : (laneAt (8 * part) (changeAt (part * count) buf i v) k).setWidth 32 =
      changeAt part buf (i + part * k) (laneAt (8 * part) v k) := by
    unfold changeAt
    rw [laneAt_setWidth (by omega), laneAt_xor, laneAt_load_part _ _ _ within]
  have moved := eq_shiftLeft_of_laneAt (show 0 < 8 * part by omega) _ k others
  rw [lane, Nat.mul_assoc] at moved
  rw [Hit, moved]
  exact reached_part (by omega) reached

theorem SingleLane.loaded (whole : w = part * count) (short : w ≤ 4)
    (single : SingleLane (8 * part) count ((load w buf i).setWidth 32) (v.setWidth 32) scan k) :
    scan.ov = (load part buf (i + part * k)).setWidth 32 ∧
      scan.nv = (laneAt (8 * part) v k).setWidth 32 ∧ part * k + part ≤ w := by
  have within : part * k + part ≤ w := by
    rw [whole]
    exact Nat.mul_le_mul_left _ single.inside
  refine ⟨?_, ?_, within⟩
  · rw [single.ov, laneAt_setWidth (by omega), laneAt_load_part _ _ _ within]
  · rw [single.nv, laneAt_setWidth (by omega)]

private theorem reached_byte_step (short : w ≤ 4) (inside : i + w ≤ len)
    (single : SingleLane (8 * 1) w ((load w buf i).setWidth 32) (v.setWidth 32) scan k)
    (within : withinArith 8 scan.ov scan.nv = true) : Hit w len buf i v := by
  have whole : w = 1 * w := (Nat.one_mul _).symm
  obtain ⟨ov, nv, _⟩ := single.loaded whole short
  rw [ov, nv] at within
  obtain ⟨j, small, mem⟩ := @steps_of_withinArith 8 (by decide) _ _ within
  exact reached_lane whole short (by decide) single (reached_arith8 (by omega) small mem)

private theorem reached_word_step (straight : NoStraddle len buf) (whole : w = 2 * count)
    (short : w ≤ 4)
    (inside : i + w ≤ len)
    (single : SingleLane (8 * 2) count ((load w buf i).setWidth 32) (v.setWidth 32) scan k)
    (within : withinArith 16 scan.ov scan.nv = true ∨
      withinArith 16 (swapLow scan.ov) (swapLow scan.nv) = true) : Hit w len buf i v := by
  obtain ⟨ov, nv, _⟩ := single.loaded whole short
  apply reached_lane whole short (by decide) single
  have low : ∀ word : BitVec 16, swapLow (word.setWidth 32) = (swap16 word).setWidth 32 := by
    intro word
    unfold swapLow
    rw [setWidth_setWidth_of_le _ (by decide), setWidth_eq]
  rw [ov, nv] at within
  rcases within with little | big
  · obtain ⟨j, small, mem⟩ := @steps_of_withinArith 16 (by decide) _ _ little
    exact reached_arith16 straight (by omega) small mem
  · rw [low, low] at big
    obtain ⟨j, small, mem⟩ := @steps_of_withinArith 16 (by decide) _ _ big
    have reached := reached_arith16_be (show i + 2 * k + 2 ≤ len by omega) small mem
    rw [reverses16.swap_swap] at reached
    exact reached

theorem reached_of_couldBeArith (straight : NoStraddle len buf) (known : w ∈ [1, 2, 4])
    (inside : i + w ≤ len)
    (arith : couldBeArith ((load w buf i).setWidth 32) (v.setWidth 32) w = true) :
    Hit w len buf i v := by
  simp only [mem_cons, not_mem_nil, or_false] at known
  unfold couldBeArith at arith
  split at arith
  · rename_i same
    rw [Hit, ← changeAt_eq, same, BitVec.xor_self]
    exact reached_zero
  · dsimp only at arith
    split at arith
    · rename_i bytes
      obtain ⟨k, single⟩ := scanLanes_single rfl bytes.1
      exact reached_byte_step (by omega) inside single bytes.2
    · split at arith
      · cases arith
      · split at arith
        · rename_i wide words
          obtain ⟨k, single⟩ := scanLanes_single rfl words.1
          exact reached_word_step straight (by omega) (by omega) inside single words.2
        · obtain ⟨rfl, within⟩ := of_decide_eq_true arith
          rcases within with little | big
          · obtain ⟨j, small, mem⟩ := @steps_of_withinArith 32 (by decide) (load 4 buf i) v little
            exact reached_arith32 straight inside small mem
          · have plain : ∀ word : BitVec 32, word.setWidth 32 = word := setWidth_eq
            rw [plain, plain, ← plain (swap32 (load 4 _ i)), ← plain (swap32 v)] at big
            obtain ⟨j, small, mem⟩ := steps_of_withinArith (by decide) _ _ big
            have reached := reached_arith32_be inside small mem
            rw [reverses32.swap_swap] at reached
            exact reached

end CouldBeArith

section Interest

variable {len : Nat} {buf : Buffer} {i : Nat}

private theorem reached_insert {w part skip : Nat} (fits : skip + part ≤ w) (short : w ≤ 4)
    {v : BitVec (8 * w)} {inserted : BitVec (8 * part)} {mask : BitVec 32}
    (full : mask = (BitVec.allOnes (8 * part)).setWidth 32)
    (same : v.setWidth 32 = insertAt mask ((load w buf i).setWidth 32) skip inserted)
    (reached : Hit part len buf (i + skip) inserted) :
    Hit w len buf i v := by
  have moved : changeAt w buf i v = changeAt part buf (i + skip) inserted <<< (8 * skip) := by
    rw [← changeAt_eq, same]
    unfold insertAt
    rw [xor_insert _ _ _ _ full, Nat.mul_comm _ 8, setWidth_shift_load _ _ _ fits short]
    rfl
  rw [Hit, moved]
  exact reached_part (by omega) reached

section

variable (straight : NoStraddle len buf)

include straight in
theorem reached_interest8 (inside : i + 1 ≤ len) {v : BitVec 8}
    (mem : v ∈ interesting8) : Hit 1 len buf i v := by
  refine @reached_trial _ 1 _ i ⟨v, true, _⟩ (by decide) inside
    (mem_append_right _ (mem_map.2 ⟨v, mem, rfl⟩)) rfl ?_
  intro dup
  rcases Bool.or_eq_true_iff.1 dup with flips | arith
  · exact reached_flip inside (changeAt_lt (by decide) _) flips changeAt_straight
  · exact reached_of_couldBeArith straight (by decide) inside arith

/-- The trial of `v` in a stage of interesting words. -/
def wordTrial (w : Nat) (orig v : BitVec (8 * w)) (worthwhile checkLe : Bool) :
    Trial w :=
  ⟨v, worthwhile, couldBeBitflip ((orig ^^^ v).setWidth 32) ||
    couldBeArith (orig.setWidth 32) (v.setWidth 32) w ||
    couldBeInterest (orig.setWidth 32) (v.setWidth 32) w checkLe⟩

theorem wordTrial_mem {w : Nat} {swap : BitVec (8 * w) → BitVec (8 * w)}
    {values : List (BitVec (8 * w))} {orig v : BitVec (8 * w)}
    (mem : v ∈ values) :
    wordTrial w orig v true false ∈ interestWordTrials w swap values orig ∧
      wordTrial w orig (swap v) (v ≠ swap v) true ∈ interestWordTrials w swap values orig :=
  ⟨mem_flatMap.2 ⟨v, mem, mem_cons_self⟩, mem_flatMap.2 ⟨v, mem, mem_cons_of_mem _ mem_cons_self⟩⟩

theorem wordTrial_duplicate {orig v : BitVec (8 * w)} {checkLe : Bool}
    (flips : couldBeBitflip ((orig ^^^ v).setWidth 32) = true) :
    (wordTrial w orig v worthwhile checkLe).duplicate = true := by
  unfold wordTrial
  rw [flips, Bool.true_or, Bool.true_or]

section Words

/- An interesting value is executed, given that the words of two bytes and the little endian
ones of four bytes are. -/
variable (straight : NoStraddle len buf) {w : Nat} {checkLe : Bool}
  (known : w ∈ [1, 2, 4]) (inside : i + w ≤ len) {v : BitVec (8 * w)}
  (word : ∀ k, k + 2 ≤ w → (w = 2 → checkLe = true) → ∀ inserted ∈ interesting16,
    Hit 2 len buf (i + k) inserted)
  (swapped : ∀ k, k + 2 ≤ w → 2 < w → ∀ inserted ∈ interesting16,
    Hit 2 len buf (i + k) (swap16 inserted))
  (dword : w = 4 → checkLe = true → ∀ written ∈ interesting32,
    v.setWidth 32 = written → Hit w len buf i v)
include straight inside word swapped dword

private theorem reached_of_couldBeInterest (short : w ≤ 4)
    (interest : couldBeInterest ((load w buf i).setWidth 32) (v.setWidth 32) w checkLe = true) :
    Hit w len buf i v := by
  unfold couldBeInterest at interest
  split at interest
  · rename_i same
    rw [Hit, ← changeAt_eq, same, BitVec.xor_self]
    exact reached_zero
  · split at interest
    · rename_i bytes
      obtain ⟨k, below, found⟩ := any_eq_true.1 bytes
      obtain ⟨inserted, mem, same⟩ := any_eq_true.1 found
      have within := mem_range.1 below
      exact @reached_insert _ _ i _ 1 k within short _ _ 0xff rfl
        (of_decide_eq_true same) (reached_interest8 straight (by omega) mem)
    · split at interest
      · cases interest
      · rename_i checked
        split at interest
        · rename_i words
          obtain ⟨k, below, found⟩ := any_eq_true.1 words
          obtain ⟨inserted, mem, same⟩ := any_eq_true.1 found
          have within := mem_range.1 below
          have fits : k + 2 ≤ w := by omega
          rcases Bool.or_eq_true_iff.1 same with little | big
          · refine @reached_insert _ _ i _ 2 k fits short _ _ 0xffff rfl
              (of_decide_eq_true little) (word k fits ?_ _ mem)
            intro two
            cases checkLe with
            | true => rfl
            | false => exact absurd ⟨two, rfl⟩ checked
          · obtain ⟨more, equal⟩ := Bool.and_eq_true_iff.1 big
            exact @reached_insert _ _ i _ 2 k fits short _ (swap16 _) 0xffff rfl
              (of_decide_eq_true equal) (swapped k fits (of_decide_eq_true more) _ mem)
        · obtain ⟨le, found⟩ := Bool.and_eq_true_iff.1 interest
          obtain ⟨four, checked⟩ := Bool.and_eq_true_iff.1 le
          obtain ⟨written, mem, same⟩ := any_eq_true.1 found
          exact dword (of_decide_eq_true four) checked _ mem (of_decide_eq_true same)

include known

theorem reached_word (tried : worthwhile = true)
    (mem : wordTrial w (load w buf i) v worthwhile checkLe ∈ trials false w (load w buf i))
    (plain : ¬ Straddles (changeAt w buf i v)) : Hit w len buf i v := by
  have short : ∀ size ∈ [1, 2, 4], size ≤ 4 := by decide
  refine @reached_trial _ _ _ i (wordTrial _ _ v _ _) (short _ known) inside mem tried ?_
  intro dup
  rcases Bool.or_eq_true_iff.1 dup with earlier | interest
  · rcases Bool.or_eq_true_iff.1 earlier with flips | arith
    · exact reached_flip inside (changeAt_lt (short _ known) _) flips plain
    · exact reached_of_couldBeArith straight known inside arith
  · exact reached_of_couldBeInterest straight inside word swapped dword (short _ known) interest

end Words

include straight

theorem reached_interest16 (inside : i + 2 ≤ len) {v : BitVec 16} (mem : v ∈ interesting16) :
    Hit 2 len buf i v := by
  refine @reached_word _ _ _ i straight 2 false (by decide) inside _ ?_
    (fun _ _ more => absurd more (by decide)) nofun rfl
    (mem_append_right _ (wordTrial_mem mem).1)
    (straight.value16 i inside _ mem _ mem_cons_self)
  intro _ _ checked
  exact absurd (checked rfl) Bool.false_ne_true

theorem reached_interest16_be (inside : i + 2 ≤ len) {v : BitVec 16} (mem : v ∈ interesting16) :
    Hit 2 len buf i (swap16 v) := by
  by_cases palindrome : v = swap16 v
  · rw [← palindrome]
    exact reached_interest16 straight inside mem
  · refine @reached_word _ _ _ i straight 2 true (by decide) inside _ ?_
      (fun _ _ more => absurd more (by decide)) nofun (decide_eq_true palindrome)
      (mem_append_right _ (wordTrial_mem mem).2)
      (straight.value16 i inside _ mem _ (mem_cons_of_mem _ mem_cons_self))
    intro k fits _ inserted known
    exact reached_interest16 straight (by omega) known

theorem reached_interest32 (inside : i + 4 ≤ len) {v : BitVec 32} (mem : v ∈ interesting32) :
    Hit 4 len buf i v := by
  refine @reached_word _ _ _ i straight 4 false (by decide) inside _ ?_ ?_ nofun rfl
    (mem_append_right _ (wordTrial_mem mem).1)
    (straight.value32 i inside _ mem _ mem_cons_self)
  · intro k fits _ inserted known
    exact reached_interest16 straight (by omega) known
  · intro k fits _ inserted known
    exact reached_interest16_be straight (by omega) known

private theorem reached_interest32_be (inside : i + 4 ≤ len) {v : BitVec 32}
    (mem : v ∈ interesting32) :
    Hit 4 len buf i (swap32 v) := by
  by_cases palindrome : v = swap32 v
  · rw [← palindrome]
    exact reached_interest32 straight inside mem
  · refine @reached_word _ _ _ i straight 4 true (by decide) inside _ ?_ ?_ ?_
      (decide_eq_true palindrome) (mem_append_right _ (wordTrial_mem mem).2)
      (straight.value32 i inside _ mem _ (mem_cons_of_mem _ mem_cons_self))
    · intro k fits _ inserted known
      exact reached_interest16 straight (by omega) known
    · intro k fits _ inserted known
      exact reached_interest16_be straight (by omega) known
    · intro _ _ written known same
      have plain : ∀ word : BitVec 32, word.setWidth 32 = word := setWidth_eq
      rw [plain] at same
      rw [same]
      exact reached_interest32 straight inside known

end

end Interest

variable {i : Nat}

section Candidates

variable {w : Nat} {orig : BitVec (8 * w)} {trial : Trial w}

theorem stepTrials_cases {list : BitVec (8 * w) → Nat → List (Trial w)}
    (mem : trial ∈ stepTrials w list orig) :
    ∃ j, j ≤ arithMax ∧ trial ∈ list orig j := by
  obtain ⟨k, below, listed⟩ := mem_flatMap.1 mem
  exact ⟨k + 1, mem_range.1 below, listed⟩

variable {swap : BitVec (8 * w) → BitVec (8 * w)}

theorem arithWordTrials_cases {lowLe lowBe : BitVec (8 * w) → Nat} {full : Nat}
    (mem : trial ∈ arithWordTrials w swap lowLe lowBe full orig j) :
    trial.duplicate = couldBeBitflip ((orig ^^^ trial.value).setWidth 32) ∧
      (trial.value ∈ steps orig j ∨ ∃ v ∈ steps (swap orig) j, trial.value = swap v) := by
  simp only [arithWordTrials, mem_cons, not_mem_nil, or_false] at mem
  rcases mem with rfl | rfl | rfl | rfl
  · exact ⟨rfl, .inl mem_cons_self⟩
  · exact ⟨rfl, .inl (mem_cons_of_mem _ mem_cons_self)⟩
  · exact ⟨rfl, .inr ⟨_, mem_cons_self, rfl⟩⟩
  · exact ⟨rfl, .inr ⟨_, mem_cons_of_mem _ mem_cons_self, rfl⟩⟩

theorem interestWordTrials_cases {values : List (BitVec (8 * w))}
    (mem : trial ∈ interestWordTrials w swap values orig) :
    (couldBeBitflip ((orig ^^^ trial.value).setWidth 32) = true → trial.duplicate = true) ∧
      ∃ v ∈ values, trial.value = v ∨ trial.value = swap v := by
  obtain ⟨v, known, listed⟩ := mem_flatMap.1 mem
  simp only [mem_cons, not_mem_nil, or_false] at listed
  rcases listed with rfl | rfl
  · exact ⟨wordTrial_duplicate, v, known, .inl rfl⟩
  · exact ⟨wordTrial_duplicate, v, known, .inr rfl⟩

private theorem trials_duplicate (mem : trial ∈ trials false w orig)
    (flips : couldBeBitflip ((orig ^^^ trial.value).setWidth 32) = true) :
    trial.duplicate = true := by
  rcases trials_width mem with rfl | rfl | rfl
  · rcases mem_append.1 mem with arith | interest
    · obtain ⟨j, _, listed⟩ := stepTrials_cases arith
      obtain ⟨v, _, rfl⟩ := mem_map.1 listed
      exact flips
    · obtain ⟨v, _, rfl⟩ := mem_map.1 interest
      exact Bool.or_eq_true_iff.2 (.inl flips)
  all_goals
    rcases mem_append.1 mem with arith | interest
    · obtain ⟨j, _, listed⟩ := stepTrials_cases arith
      exact (arithWordTrials_cases listed).1.trans flips
    · exact (interestWordTrials_cases interest).1 flips

private theorem reached_of_trial {len : Nat} {buf : Buffer} (straight : NoStraddle len buf)
    (inside : i + w ≤ len) (mem : trial ∈ trials false w (load w buf i)) :
    Hit w len buf i trial.value := by
  rcases trials_width mem with rfl | rfl | rfl
  · rcases mem_append.1 mem with arith | interest
    · obtain ⟨j, small, listed⟩ := stepTrials_cases arith
      obtain ⟨v, known, rfl⟩ := mem_map.1 listed
      exact reached_arith8 inside small known
    · obtain ⟨v, known, rfl⟩ := mem_map.1 interest
      exact reached_interest8 straight inside known
  · rcases mem_append.1 mem with arith | interest
    · obtain ⟨j, small, listed⟩ := stepTrials_cases arith
      rcases (arithWordTrials_cases listed).2 with little | ⟨v, known, same⟩
      · exact reached_arith16 straight inside small little
      · rw [same]
        exact reached_arith16_be inside small known
    · obtain ⟨v, known, same | same⟩ := (interestWordTrials_cases interest).2
      · rw [same]
        exact reached_interest16 straight inside known
      · rw [same]
        exact reached_interest16_be straight inside known
  · rcases mem_append.1 mem with arith | interest
    · obtain ⟨j, small, listed⟩ := stepTrials_cases arith
      rcases (arithWordTrials_cases listed).2 with little | ⟨v, known, same⟩
      · exact reached_arith32 straight inside small little
      · rw [same]
        exact reached_arith32_be inside small known
    · obtain ⟨v, known, same | same⟩ := (interestWordTrials_cases interest).2
      · rw [same]
        exact reached_interest32 straight inside known
      · rw [same]
        exact reached_interest32_be straight inside known

end Candidates

section Straddle

variable {len : Nat} {buf : Buffer} {i : Nat}

private theorem straddles_of_same {xorVal other : BitVec 32} (straddles : Straddles xorVal)
    (same : xorAt buf j other = xorAt buf i xorVal) : Straddles other := by
  obtain ⟨pattern, known, bytes, few, v⟩ := straddles
  have sizes : ∀ pattern ∈ straddling, ∀ bytes ∈ [0, 1, 2], pattern * 2 ^ (8 * bytes) < 2 ^ 32 ∧
      laneAt 8 (BitVec.ofNat 32 pattern) 0 ≠ 0 ∧ laneAt 8 (BitVec.ofNat 32 pattern) 1 ≠ 0 ∧
      (BitVec.ofNat 32 pattern).toNat = pattern := by decide
  obtain ⟨fits, first, second, number⟩ := sizes pattern known bytes few
  have place : xorAt buf i xorVal = xorAt buf (i + bytes) (BitVec.ofNat 32 pattern) := by
    rw [← xorAt_shift _ _ (by rw [number]; exact fits)]
    congr 1
    apply eq_of_toNat_eq
    rw [toNat_shiftLeft, number, Nat.shiftLeft_eq, Nat.mod_eq_of_lt fits, v]
  rw [place] at same
  have start := (xorAt_place first same).1
  have near := (xorAt_place second same).2
  obtain ⟨skip, offset⟩ : ∃ skip, i + bytes = j + skip := ⟨i + bytes - j, by omega⟩
  have cases : skip = 0 ∨ skip = 1 ∨ skip = 2 := by omega
  have listed : skip ∈ [0, 1, 2] := by simpa using cases
  obtain ⟨fits, _⟩ := sizes pattern known skip listed
  rw [offset, ← xorAt_shift _ _ (by rw [number]; exact fits)] at same
  refine ⟨pattern, known, skip, listed, ?_⟩
  rw [xorAt_injective _ j same, toNat_shiftLeft, number, Nat.shiftLeft_eq, Nat.mod_eq_of_lt fits]

theorem couldBeBitflip_of_straddles (straddles : Straddles xorVal) :
    couldBeBitflip xorVal = true := by
  have patterns := straddles.elim (fun v => couldBeBitflip (BitVec.ofNat 32 v) = true) (by decide)
  rw [ofNat_toNat] at patterns
  exact patterns

theorem not_reached_of_straddles (straddles : Straddles xorVal) :
    ¬ Reached false len buf i xorVal := by
  intro reached
  rcases Tried.executed_cases reached rfl with ⟨mask, j, plain, same⟩ |
    ⟨w, j, _, mem, executed, same⟩
  · exact plain.elim (fun mask => ¬ Straddles mask) (by decide) (by decide) (by decide)
      (straddles_of_same straddles same.symm)
  · have short : w ≤ 4 := by
      have known := trials_width mem
      omega
    rw [store_eq_xorAt short] at same
    have flips := couldBeBitflip_of_straddles (straddles_of_same straddles same.symm)
    rw [trials_duplicate mem flips] at executed
    exact absurd executed.symm Bool.false_ne_true

end Straddle

section Bytes

variable {len : Nat} {buf : Buffer} {i : Nat}

private theorem byte_of_same {xorVal other : BitVec 32} (small : xorVal.toNat < 256)
    (changes : xorVal ≠ 0) (same : xorAt buf j other = xorAt buf i xorVal) :
    ∃ skip, skip < 4 ∧ i = j + skip ∧ other.toNat = xorVal.toNat * 2 ^ (8 * skip) := by
  have lit : laneAt 8 xorVal 0 ≠ 0 := by
    intro dark
    apply changes
    have v := congrArg BitVec.toNat dark
    rw [toNat_laneAt, Nat.pow_zero, Nat.div_one] at v
    apply eq_of_toNat_eq
    change _ % 256 = 0 at v
    rw [Nat.mod_eq_of_lt small] at v
    exact v
  obtain ⟨_, _⟩ := xorAt_place lit same
  obtain ⟨skip, rfl⟩ : ∃ skip, i = j + skip := ⟨i - j, by omega⟩
  have few : skip < 4 := by omega
  have fits : xorVal.toNat * 2 ^ (8 * skip) < 2 ^ 32 := by
    calc xorVal.toNat * 2 ^ (8 * skip) < 2 ^ 8 * 2 ^ (8 * skip) :=
          Nat.mul_lt_mul_of_pos_right small (Nat.two_pow_pos _)
      _ ≤ 2 ^ 8 * 2 ^ 24 :=
          Nat.mul_le_mul_left _ (Nat.pow_le_pow_right (by decide) (by omega))
  rw [← xorAt_shift _ _ fits] at same
  refine ⟨skip, few, rfl, ?_⟩
  rw [xorAt_injective _ j same, toNat_shiftLeft, Nat.shiftLeft_eq, Nat.mod_eq_of_lt fits]

private theorem couldBeBitflip_of_multiple {mask xorVal : BitVec 32}
    (small : xorVal.toNat < 256) (v : mask.toNat = xorVal.toNat * 2 ^ (8 * skip))
    (check : mask.toNat % 2 ^ (8 * skip) = 0 → mask.toNat / 2 ^ (8 * skip) < 256 →
      couldBeBitflip (BitVec.ofNat 32 (mask.toNat / 2 ^ (8 * skip))) = true) :
    couldBeBitflip xorVal = true := by
  have quotient : mask.toNat / 2 ^ (8 * skip) = xorVal.toNat := by
    rw [v, Nat.mul_div_cancel _ (Nat.two_pow_pos _)]
  rw [quotient, ofNat_toNat] at check
  refine check ?_ small
  rw [v, Nat.mul_mod_left]

private theorem byte_reached_cases {v : BitVec 8}
    (odd : couldBeBitflip (changeAt 1 buf i v) = false)
    (reached : Reached true len buf i (changeAt 1 buf i v)) :
    couldBeArith ((load 1 buf i).setWidth 32) (v.setWidth 32) 1 = false := by
  have small := @changeAt_lt 1 buf i (by decide) v
  have changes : changeAt 1 buf i v ≠ 0 := by
    intro zero
    rw [zero] at odd
    exact absurd odd (by decide)
  rcases Tried.executed_cases reached rfl with ⟨mask, j, plain, same⟩ |
    ⟨_, j, _, mem, executed, same⟩
  · obtain ⟨skip, near, _, number⟩ := byte_of_same small changes same.symm
    have flips := couldBeBitflip_of_multiple small number
      (plain.elim (fun mask => ∀ skip, skip < 4 → mask.toNat % 2 ^ (8 * skip) = 0 →
        mask.toNat / 2 ^ (8 * skip) < 256 →
          couldBeBitflip (BitVec.ofNat 32 (mask.toNat / 2 ^ (8 * skip))) = true)
        (by decide) (by decide) (by decide) _ near)
    rw [odd] at flips
    cases flips
  · rcases trials_width mem with rfl | rfl | rfl
    · obtain ⟨written, _, rfl⟩ := mem_map.1 mem
      have there := same
      rw [store_eq_xorAt (by decide)] at there
      obtain ⟨skip, _, place, number⟩ := byte_of_same small changes there.symm
      have bound := @changeAt_lt 1 buf j (by decide) written
      have pos : 0 < (changeAt 1 buf i v).toNat := by
        apply Nat.pos_of_ne_zero
        intro zero
        exact changes (eq_of_toNat_eq zero)
      have here : skip = 0 := by
        rcases Nat.eq_zero_or_pos _ with here | later
        · exact here
        · have large := Nat.pow_le_pow_right (show 0 < 2 by decide) (show 8 ≤ 8 * skip by omega)
          have product := Nat.mul_le_mul pos large
          change (changeAt 1 _ j written).toNat = _ at number
          omega
      subst here
      subst place
      have equal : store 1 buf i written = store 1 buf i v :=
        same.symm.trans (store_eq_xorAt (show 1 ≤ 4 by decide) _ i _).symm
      have v : written = v := by
        rw [← load_store 1 _ i written, equal, load_store]
      subst v
      exact ((Bool.or_eq_false_iff).mp executed).2
    all_goals exact absurd mem not_mem_nil

end Bytes

/-- What keeps the pass from gaps: with the arithmetic stages no pattern across
bytes, and without them no interesting value within reach of a step, unless it is
a flip as well. -/
structure NoGap (noArith : Bool) (len : Nat) (buf : Buffer) : Prop where
  straight : noArith = false → NoStraddle len buf
  flipped : noArith = true → ∀ i, i + 1 ≤ len → ∀ v ∈ interesting8,
    couldBeArith ((load 1 buf i).setWidth 32) (v.setWidth 32) 1 = true →
      couldBeBitflip (changeAt 1 buf i v) = true

section Gaps

variable {noArith : Bool} {len : Nat} {buf : Buffer}

def Covered (noArith : Bool) (len : Nat) (buf : Buffer) : Prop :=
  ∀ content ∈ (deterministicPass noArith len buf).skipped,
    content ∈ (deterministicPass noArith len buf).executed ∨ content = buf

theorem executed_iff (short : w ≤ 4) (v : BitVec (8 * w)) :
    store w buf i v ∈ (deterministicPass noArith len buf).executed ↔
      Reached noArith len buf i (changeAt w buf i v) := by
  unfold Reached changeAt
  rw [← store_eq_xorAt short]
  exact deterministicPass_log _ _ _ false _

theorem buf_executed : buf ∈ (deterministicPass noArith len buf).executed :=
  (deterministicPass_log len buf noArith false buf).2 .input

theorem skipped_of_duplicate {w i : Nat} {trial : Trial w} (inside : i + w ≤ len)
    (mem : trial ∈ trials noArith w (load w buf i)) (tried : trial.worthwhile = true)
    (passed : trial.duplicate = true) :
    store w buf i trial.value ∈ (deterministicPass noArith len buf).skipped := by
  apply (deterministicPass_log _ _ _ true _).2
  have skipped := Tried.trial inside mem tried
  rw [passed] at skipped
  exact skipped

theorem Covered.reached (covered : Covered noArith len buf) (short : w ≤ 4) {v : BitVec (8 * w)}
    (skipped : store w buf i v ∈ (deterministicPass noArith len buf).skipped) :
    Reached noArith len buf i (changeAt w buf i v) := by
  rcases covered _ skipped with executed | same
  · exact (executed_iff short _).1 executed
  · apply (executed_iff short _).1
    rw [same]
    exact buf_executed

private theorem covered_of_reached
    (reached : ∀ w i, i + w ≤ len → ∀ trial ∈ trials noArith w (load w buf i),
      trial.duplicate = true → Reached noArith len buf i (changeAt w buf i trial.value)) :
    Covered noArith len buf := by
  intro content skipped
  left
  have passed := (deterministicPass_log _ _ _ true _).1 skipped
  generalize kind : true = dup at passed
  cases passed with
  | input => exact buf_executed
  | flip mem inside =>
    exact (deterministicPass_log _ _ _ _ _).2 (.flip mem inside)
  | invert mem inside =>
    exact (deterministicPass_log _ _ _ _ _).2 (.invert mem inside)
  | @trial w i trial inside mem worthwhile =>
    have short : w ≤ 4 := by
      have known := trials_width mem
      omega
    exact (executed_iff short trial.value).2 (reached _ i inside _ mem kind.symm)

theorem skipped_of_step (inside : i + 2 ≤ len) {v : BitVec 16}
    (mem : v ∈ steps (load 2 buf i) 32) (straddles : Straddles (changeAt 2 buf i v)) :
    store 2 buf i v ∈ (deterministicPass false len buf).skipped := by
  obtain ⟨worthwhile, listed, split⟩ := @arithWordTrials_step buf i 32 2 1 _ swap16 id
    (fun orig => BitVec.toNat (orig &&& 0xff)) (fun orig => BitVec.toNat (orig >>> 8)) v
    (.inl ⟨rfl, rfl⟩) (toNat_low _ _ rfl) (by decide) rfl (by decide) mem
  refine @skipped_of_duplicate _ _ _ 2 i ⟨v, _, _⟩ inside
    (mem_append_left _ (mem_stepTrials (by decide) (by decide) listed)) ?_
    (couldBeBitflip_of_straddles straddles)
  cases worthwhile with
  | true => rfl
  | false =>
    -- a step inside the lower byte is no pattern across bytes
    obtain ⟨part, _, same⟩ := split.near rfl
    have small : (changeAt 2 buf i v).toNat < 256 := by
      rw [show changeAt 2 buf i v = _ from same 32 (by decide), toNat_setWidth_of_le (by decide)]
      exact BitVec.isLt _
    exact absurd (straddles_large straddles) (Nat.not_le.2 small)

private theorem skipped_of_interest {w i : Nat} {swap : BitVec (8 * w) → BitVec (8 * w)}
    {values : List (BitVec (8 * w))} (inside : i + w ≤ len)
    (included : ∀ trial ∈ interestWordTrials w swap values (load w buf i),
      trial ∈ trials false w (load w buf i))
    {v written : BitVec (8 * w)} (mem : v ∈ values)
    (known : written ∈ [v, swap v]) (straddles : Straddles (changeAt w buf i written)) :
    store w buf i written ∈ (deterministicPass false len buf).skipped := by
  obtain ⟨little, big⟩ := @wordTrial_mem w swap values (load w buf i) v mem
  have flips := couldBeBitflip_of_straddles straddles
  simp only [mem_cons, not_mem_nil, or_false] at known
  rcases known with rfl | rfl
  · exact skipped_of_duplicate inside (included _ little) rfl (wordTrial_duplicate flips)
  · by_cases palindrome : v = swap v
    · rw [← palindrome] at flips ⊢
      exact skipped_of_duplicate inside (included _ little) rfl (wordTrial_duplicate flips)
    · exact skipped_of_duplicate inside (included _ big) (decide_eq_true palindrome)
        (wordTrial_duplicate flips)

private theorem noStraddle_of_covered (covered : Covered false len buf) : NoStraddle len buf where
  step i inside _ mem straddles := not_reached_of_straddles straddles
    (covered.reached (by decide) (skipped_of_step inside mem straddles))
  value16 i inside _ mem _ known straddles := not_reached_of_straddles straddles
    (covered.reached (by decide) (@skipped_of_interest len buf 2 i swap16 interesting16 inside
      (fun _ listed => mem_append_right _ listed) _ _ mem known straddles))
  value32 i inside _ mem _ known straddles := not_reached_of_straddles straddles
    (covered.reached (by decide) (@skipped_of_interest len buf 4 i swap32 interesting32 inside
      (fun _ listed => mem_append_right _ listed) _ _ mem known straddles))

private theorem flipped_of_covered (covered : Covered true len buf) (inside : i + 1 ≤ len)
    {v : BitVec 8} (mem : v ∈ interesting8)
    (arith : couldBeArith ((load 1 buf i).setWidth 32) (v.setWidth 32) 1 = true) :
    couldBeBitflip (changeAt 1 buf i v) = true := by
  cases odd : couldBeBitflip (changeAt 1 buf i v) with
  | true => rfl
  | false =>
    have skipped := @skipped_of_duplicate true _ _ 1 i ⟨v, true, _⟩ inside
      (mem_map.2 ⟨v, mem, rfl⟩) rfl (Bool.or_eq_true_iff.2 (.inr arith))
    have unreached := byte_reached_cases odd (covered.reached (by decide) skipped)
    rw [arith] at unreached
    exact unreached.symm

private theorem reached_of_flipped (gap : NoGap true len buf) (inside : i + w ≤ len)
    {trial : Trial w} (mem : trial ∈ trials true w (load w buf i))
    (dup : trial.duplicate = true) :
    Reached true len buf i (changeAt w buf i trial.value) := by
  rcases trials_width mem with rfl | rfl | rfl
  · obtain ⟨v, known, rfl⟩ := mem_map.1 mem
    have flips : couldBeBitflip (changeAt 1 buf i v) = true := by
      rcases Bool.or_eq_true_iff.1 dup with flips | arith
      · exact flips
      · exact gap.flipped rfl i inside _ known arith
    exact reached_flip inside (changeAt_lt (by decide) _) flips (changeAt_straight)
  all_goals exact absurd mem not_mem_nil

/-- Every candidate that the pass takes for a duplicate is executed by it, exactly
if the input leaves no gap. -/
theorem passed_over_executed_iff (noArith : Bool) (len : Nat) (buf : Buffer) :
    Covered noArith len buf ↔ NoGap noArith len buf := by
  cases noArith with
  | false =>
    constructor
    · intro covered
      exact ⟨fun _ => noStraddle_of_covered covered, nofun⟩
    · intro gap
      exact covered_of_reached (fun _ _ inside _ mem _ =>
        reached_of_trial (gap.straight rfl) inside mem)
  | true =>
    constructor
    · intro covered
      exact ⟨nofun, fun _ _ inside _ mem arith =>
        flipped_of_covered covered inside mem arith⟩
    · intro gap
      exact covered_of_reached (fun _ _ inside _ mem dup =>
        reached_of_flipped gap inside mem dup)

end Gaps

def carryingBytes : Buffer := fun addr => if addr = 0 then 0xE1 else 0

/-- The bytes 01 01 are passed over, and no stage executes them. -/
theorem carried_step_never_executed :
    store 2 carryingBytes 0 0x0101 ∈ (deterministicPass false 2 carryingBytes).skipped ∧
      store 2 carryingBytes 0 0x0101 ∉ (deterministicPass false 2 carryingBytes).executed ∧
      store 2 carryingBytes 0 0x0101 ≠ carryingBytes := by
  have straddles : Straddles (changeAt 2 carryingBytes 0 0x0101) := by decide
  have step : (0x0101 : BitVec 16) ∈ steps (load 2 carryingBytes 0) 32 := by decide
  have missing : store 2 carryingBytes 0 0x0101 ∉
      (deterministicPass false 2 carryingBytes).executed := fun executed =>
    not_reached_of_straddles straddles ((executed_iff (by decide) _).1 executed)
  refine ⟨skipped_of_step (by decide) step straddles, missing, ?_⟩
  intro same
  rw [same] at missing
  exact missing buf_executed

end AflPlusPlus
