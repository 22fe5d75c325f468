/-
What one deterministic pass tries.

Each stage leaves the buffer as it found it, and its executions and its skips
are those of a list of trials that depends on the input alone.
-/

import AflPlusPlus.DetStages
import Mathlib.Data.Nat.Init

namespace AflPlusPlus

open Machine List
open Machine.LaneWord

def DetState.log (s : DetState) : Bool → List Buffer
  | false => s.executed
  | true => s.skipped

/-- From a buffer with `pre` the code leaves one with `post`, and it logs exactly
these contents. -/
structure Stage (pre post : Buffer → Prop) (tries : Bool → Buffer → Prop)
    (code : DetState → DetState) : Prop where
  leaves : ∀ s, pre s.outBuf → post (code s).outBuf
  logs : ∀ s, pre s.outBuf → ∀ dup content, content ∈ (code s).log dup ↔
      content ∈ s.log dup ∨ tries dup content

namespace Stage

variable {pre middle post : Buffer → Prop} {tries more : Bool → Buffer → Prop}
variable {code next : DetState → DetState} (stage : Stage pre post tries code)

include stage

theorem congr (same : ∀ dup content, tries dup content ↔ more dup content) :
    Stage pre post more code where
  leaves := stage.leaves
  logs s start dup content := by
    rw [stage.logs _ start _ _, same]

theorem of_code (same : ∀ s, pre s.outBuf → next s = code s) : Stage pre post tries next where
  leaves s start := by
    rw [same _ start]
    exact stage.leaves _ start
  logs s start dup content := by
    rw [same _ start]
    exact stage.logs _ start _ _

theorem weaken {narrow : Buffer → Prop}
    (implies : ∀ buf, narrow buf → pre buf) : Stage narrow post tries code where
  leaves s start := stage.leaves s (implies _ start)
  logs s start := stage.logs s (implies _ start)

omit stage

theorem idle : Stage pre pre (fun _ _ => False) (fun s => s) where
  leaves _ start := start
  logs _ _ _ _ := (or_false _).to_iff.symm

theorem comp (first : Stage pre middle tries code) (second : Stage middle post more next) :
    Stage pre post (fun dup content => tries dup content ∨ more dup content)
      (fun s => next (code s)) where
  leaves s start := second.leaves _ (first.leaves s start)
  logs s start dup content := by
    rw [second.logs _ (first.leaves _ start), first.logs _ start, or_assoc]

theorem foldl {Value : Type} {each : Value → Bool → Buffer → Prop}
    {body : Value → DetState → DetState} (values : List Value)
    (stages : ∀ v ∈ values, Stage pre pre (each v) (body v)) :
    Stage pre pre (fun dup content => ∃ v ∈ values, each v dup content)
      (fun s => values.foldl (fun s v => body v s) s) := by
  induction values with
  | nil => exact idle.congr (fun _ _ => by simp)
  | cons v rest ih =>
    have first := stages _ mem_cons_self
    have later := ih (fun other mem => stages _ (mem_cons_of_mem _ mem))
    exact (first.comp later).congr (fun _ _ => by simp)

theorem forUpto {each : Nat → Bool → Buffer → Prop} {body : Nat → DetState → DetState}
    (bound : Nat) (stages : ∀ k, k < bound → Stage pre pre (each k) (body k)) :
    Stage pre pre (fun dup content => ∃ k, k < bound ∧ each k dup content)
      (fun s => Machine.forUpto bound body s) := by
  induction bound with
  | zero => exact idle.congr (fun _ _ => by simp)
  | succ bound ih =>
    have earlier := ih (fun k below => stages k (Nat.lt_succ_of_lt below))
    refine (earlier.comp (stages _ (Nat.lt_succ_self _))).congr ?_
    intro dup content
    constructor
    · rintro (⟨k, below, tried⟩ | tried)
      · exact ⟨k, Nat.lt_succ_of_lt below, tried⟩
      · exact ⟨bound, Nat.lt_succ_self _, tried⟩
    · rintro ⟨k, below, tried⟩
      rcases Nat.lt_succ_iff_lt_or_eq.1 below with before | rfl
      · exact .inl ⟨k, before, tried⟩
      · exact .inr tried

end Stage

structure Trial (w : Nat) where
  value : BitVec (8 * w)
  worthwhile : Bool
  duplicate : Bool

def Trial.tries {w : Nat} (buf : Buffer) (i : Nat) (trial : Trial w) (dup : Bool)
    (content : Buffer) : Prop :=
  trial.worthwhile = true ∧ trial.duplicate = dup ∧ content = store w buf i trial.value

def Window (w : Nat) (buf : Buffer) (i : Nat) (cur : Buffer) : Prop :=
  ∃ v, cur = store w buf i v

section Place

variable {w : Nat} {buf : Buffer} {i : Nat}

theorem Window.of_eq (cur : Buffer) (same : cur = buf) : Window w buf i cur :=
  ⟨load w buf i, by rw [same, store_load]⟩

theorem attempt_stage (trial : Trial w) :
    Stage (Window w buf i) (Window w buf i) (trial.tries buf i)
      (DetState.attempt w i trial.value trial.worthwhile trial.duplicate) := by
  obtain ⟨v, worthwhile, dup⟩ := trial
  constructor
  · rintro s ⟨dirty, held⟩
    cases worthwhile with
    | false => exact ⟨dirty, held⟩
    | true =>
      cases dup with
      | true => exact ⟨dirty, held⟩
      | false =>
        refine ⟨v, ?_⟩
        change store w s.outBuf i v = _
        rw [held, store_store]
  · rintro s ⟨dirty, held⟩ kind content
    have written : store w s.outBuf i v = store w buf i v := by
      rw [held, store_store]
    unfold Trial.tries
    cases worthwhile with
    | false => simp [DetState.attempt]
    | true =>
      cases dup <;> cases kind <;>
        simp [DetState.attempt, DetState.log, DetState.exec, DetState.write, DetState.change,
          written]

theorem write_stage :
    Stage (Window w buf i) (· = buf) (fun _ _ => False) (DetState.write w i (load w buf i)) where
  leaves s held := by
    obtain ⟨_, held⟩ := held
    change store w s.outBuf i (load w buf i) = buf
    rw [held, store_store, store_load]
  logs s _ dup content := by
    cases dup <;> exact (or_false _).to_iff.symm

def tryAll (w i : Nat) (trials : List (Trial w)) (s : DetState) : DetState :=
  trials.foldl (fun s trial =>
    s.attempt w i trial.value trial.worthwhile trial.duplicate) s

theorem tryAll_stage (trials : List (Trial w)) :
    Stage (· = buf) (· = buf) (fun dup content => ∃ trial ∈ trials, trial.tries buf i dup content)
      (fun s => (tryAll w i trials s).write w i (load w buf i)) := by
  have tried := Stage.foldl trials (fun trial _ => @attempt_stage _ buf i trial)
  exact ((tried.weaken Window.of_eq).comp write_stage).congr (fun _ _ => (or_false _).to_iff)

end Place

def TriesAt (w : Nat) (trials : BitVec (8 * w) → List (Trial w)) (len : Nat)
    (buf : Buffer) (dup : Bool) (content : Buffer) : Prop :=
  ∃ i, i + w ≤ len ∧ ∃ trial ∈ trials (load w buf i), trial.tries buf i dup content

def arith8Trials (orig : BitVec 8) (j : Nat) : List (Trial 1) :=
  [orig + BitVec.ofNat 8 j, orig - BitVec.ofNat 8 j].map
    (fun v => ⟨v, true, couldBeBitflip ((orig ^^^ v).setWidth 32)⟩)

def arithWordTrials (w : Nat) (swap : BitVec (8 * w) → BitVec (8 * w))
    (lowLe lowBe : BitVec (8 * w) → Nat) (full : Nat) (orig : BitVec (8 * w)) (j : Nat) :
    List (Trial w) :=
  let step := BitVec.ofNat (8 * w) j
  let trial := fun (v : BitVec (8 * w)) (worthwhile : Bool) =>
    (⟨v, worthwhile, couldBeBitflip ((orig ^^^ v).setWidth 32)⟩ : Trial w)
  [trial (orig + step) (full < lowLe orig + j), trial (orig - step) (lowLe orig < j),
    trial (swap (swap orig + step)) (full < lowBe orig + j),
    trial (swap (swap orig - step)) (lowBe orig < j)]

def arith16Trials : BitVec 16 → Nat → List (Trial 2) :=
  arithWordTrials 2 swap16 (fun orig => BitVec.toNat (orig &&& 0xff))
    (fun orig => BitVec.toNat (orig >>> 8)) 0xff

def arith32Trials : BitVec 32 → Nat → List (Trial 4) :=
  arithWordTrials 4 swap32 (fun orig => BitVec.toNat (orig &&& 0xffff))
    (fun orig => BitVec.toNat (swap32 orig &&& 0xffff)) 0xffff

def interest8Trials (orig : BitVec 8) : List (Trial 1) :=
  interesting8.map (fun v => ⟨v, true, couldBeBitflip ((orig ^^^ v).setWidth 32) ||
      couldBeArith (orig.setWidth 32) (v.setWidth 32) 1⟩)

def interestWordTrials (w : Nat) (swap : BitVec (8 * w) → BitVec (8 * w))
    (values : List (BitVec (8 * w))) (orig : BitVec (8 * w)) : List (Trial w) :=
  let dup := fun (v : BitVec (8 * w)) (checkLe : Bool) =>
    couldBeBitflip ((orig ^^^ v).setWidth 32) ||
      couldBeArith (orig.setWidth 32) (v.setWidth 32) w ||
      couldBeInterest (orig.setWidth 32) (v.setWidth 32) w checkLe
  values.flatMap (fun v =>
    [⟨v, true, dup v false⟩, ⟨swap v, v ≠ swap v, dup (swap v) true⟩])

def interest16Trials : BitVec 16 → List (Trial 2) := interestWordTrials 2 swap16 interesting16

def interest32Trials : BitVec 32 → List (Trial 4) := interestWordTrials 4 swap32 interesting32

def stepTrials (w : Nat) (trials : BitVec (8 * w) → Nat → List (Trial w))
    (orig : BitVec (8 * w)) : List (Trial w) :=
  (List.range arithMax).flatMap (fun j => trials orig (j + 1))

section Stages

variable {w len : Nat} {buf : Buffer}

theorem interestStage_stage {trials : BitVec (8 * w) → List (Trial w)}
    {body : Nat → BitVec (8 * w) → DetState → DetState} (pos : 0 < w)
    (place : ∀ i, Stage (· = buf) (· = buf) (fun dup content =>
        ∃ trial ∈ trials (load w buf i), trial.tries buf i dup content)
      (body i (load w buf i))) :
    Stage (· = buf) (· = buf) (TriesAt w trials len buf) (interestStage w len body) := by
  have places : ∀ i, i < len - (w - 1) → Stage (· = buf) (· = buf) (fun dup content =>
        ∃ trial ∈ trials (load w buf i), trial.tries buf i dup content)
      (fun s => body i (load w s.outBuf i) s) :=
    fun i _ => (place i).of_code (fun s same => by rw [same])
  refine (Stage.forUpto _ places).congr ?_
  intro dup content
  have bound : ∀ i, i < len - (w - 1) ↔ i + w ≤ len := fun i => by omega
  simp only [bound]
  rfl

private theorem arithStage_stage {trials : BitVec (8 * w) → Nat → List (Trial w)}
    {body : Nat → BitVec (8 * w) → Nat → DetState → DetState} (pos : 0 < w)
    (follows : ∀ i orig j s, body i orig j s = (tryAll w i (trials orig j) s).write w i orig) :
    Stage (· = buf) (· = buf) (TriesAt w (stepTrials w trials) len buf)
      (arithStage w len body) := by
  refine @interestStage_stage _ _ _ _
    (fun i orig s => forUpto arithMax (fun j => body i orig (j + 1)) s) pos ?_
  intro i
  have steps := Stage.forUpto arithMax (fun j _ =>
    (@tryAll_stage _ _ i (trials (load _ _ i) (j + 1))).of_code
      (fun s _ => follows i (load _ buf i) (j + 1) _))
  refine steps.congr ?_
  intro dup content
  constructor
  · rintro ⟨j, below, trial, mem, tried⟩
    exact ⟨trial, mem_flatMap.2 ⟨j, mem_range.2 below, mem⟩, tried⟩
  · rintro ⟨trial, mem, tried⟩
    obtain ⟨j, below, mem⟩ := mem_flatMap.1 mem
    exact ⟨j, mem_range.1 below, trial, mem, tried⟩

private theorem interest8_stage (i : Nat) :
    Stage (· = buf) (· = buf) (fun dup content =>
        ∃ trial ∈ interest8Trials (load 1 buf i), trial.tries buf i dup content)
      (interest8 i (load 1 buf i)) := by
  have each := Stage.foldl (interest8Trials (load 1 buf i))
    (fun trial _ => (((@attempt_stage 1 buf i trial).weaken Window.of_eq).comp write_stage).congr
      (fun _ _ => (or_false _).to_iff))
  refine each.of_code ?_
  intro s _
  unfold interest8 interest8Trials
  rw [foldl_map]

private theorem interestWord_stage (swap : BitVec (8 * w) → BitVec (8 * w))
    (values : List (BitVec (8 * w))) (i : Nat) :
    Stage (· = buf) (· = buf) (fun dup content =>
        ∃ trial ∈ interestWordTrials w swap values (load w buf i), trial.tries buf i dup content)
      (interestWord w swap values i (load w buf i)) := by
  refine (tryAll_stage _).of_code ?_
  intro s _
  unfold interestWord interestWordTrials tryAll
  rw [foldl_flatMap]
  rfl

end Stages

variable (buf : Buffer)

private theorem xorAt_byte (a : Nat) (byte : BitVec 8) :
    xorAt buf a (byte.setWidth 32) = Function.update buf a (buf a ^^^ byte) := by
  funext addr
  unfold xorAt
  by_cases here : addr = a
  · subst here
    rw [if_pos (Nat.le_refl _), Function.update_self, Nat.sub_self, laneAt_setWidth (by decide)]
    congr 1
    exact BitVec.extractLsb'_eq_self
  · rw [Function.update_of_ne here]
    split
    · have beyond : laneAt 8 (byte.setWidth 32) (addr - a) = 0 := by
        exact laneAt_beyond byte _ (by omega)
      rw [beyond]
      exact BitVec.xor_zero
    · rfl

def bitMask (q : Nat) : BitVec 32 :=
  ((128#8 >>> (q % 8)).setWidth 32) <<< (8 * (q / 8))

def flipMask (count q : Nat) : BitVec 32 :=
  forUpto count (fun k mask => mask ^^^ bitMask (q + k)) 0

variable (i : Nat)

private theorem flipBit_eq_xorAt (q : Nat) (inside : q < 32) :
    flipBit (8 * i + q) buf = xorAt buf i (bitMask q) := by
  have byte : (8 * i + q) >>> 3 = i + q / 8 := by
    omega
  have bit : (8 * i + q) &&& 7 = q % 8 := by
    rw [show (7 : Nat) = 2 ^ 3 - 1 from rfl, Nat.and_two_pow_sub_one_eq_mod]
    omega
  have fits : ((128#8 >>> (q % 8)).setWidth 32).toNat * 2 ^ (8 * (q / 8)) < 2 ^ 32 := by
    have small : ((128#8 >>> (q % 8)).setWidth 32).toNat < 2 ^ 8 := by
      rw [BitVec.toNat_setWidth_of_le (by decide)]
      exact BitVec.isLt _
    calc ((128#8 >>> (q % 8)).setWidth 32).toNat * 2 ^ (8 * (q / 8))
        < 2 ^ 8 * 2 ^ (8 * (q / 8)) := Nat.mul_lt_mul_of_pos_right small (Nat.two_pow_pos _)
      _ ≤ 2 ^ 8 * 2 ^ (8 * 3) :=
          Nat.mul_le_mul_left _ (Nat.pow_le_pow_right (by decide) (by omega))
  unfold flipBit bitMask
  rw [byte, bit, xorAt_shift _ _ fits, xorAt_byte]

theorem flipBits_eq_xorAt (q count : Nat) (inside : q + count ≤ 32) :
    flipBits count (8 * i + q) buf = xorAt buf i (flipMask count q) := by
  induction count with
  | zero => exact (xorAt_zero _ i).symm
  | succ count ih =>
    have earlier := ih (by omega)
    unfold flipBits at earlier ⊢
    unfold flipMask at earlier ⊢
    rw [forUpto_succ, forUpto_succ, earlier, Nat.add_assoc,
      flipBit_eq_xorAt _ _ _ (by omega), xorAt_xorAt]

variable {w : Nat}

theorem invertAt_eq_xorAt (short : w ≤ 4) (buf : Buffer) (i : Nat) :
    invertAt w i buf = xorAt buf i ((BitVec.allOnes (8 * w)).setWidth 32) := by
  unfold invertAt
  rw [store_eq_xorAt short, ← BitVec.xor_assoc, BitVec.xor_self, BitVec.zero_xor]

private theorem flip_stage {buf : Buffer} {flip : Buffer → Buffer} (back : flip (flip buf) = buf) :
    Stage (· = buf) (· = buf) (fun dup content => dup = false ∧ content = flip buf)
      (fun s => (s.change flip).exec.change flip) where
  leaves s same := by
    change flip (flip s.outBuf) = buf
    rw [same, back]
  logs s same dup content := by
    cases dup <;> simp [DetState.log, DetState.exec, DetState.change, same]

theorem flips_stage {flip : Nat → Buffer → Buffer} {bound : Nat} {inside : Nat → Prop}
    (same : ∀ k, k < bound ↔ inside k) (back : ∀ k, flip k (flip k buf) = buf) :
    Stage (· = buf) (· = buf)
      (fun dup content => dup = false ∧ ∃ k, inside k ∧ content = flip k buf)
      (forUpto bound (fun k s => (s.change (flip k)).exec.change (flip k))) := by
  refine (Stage.forUpto _ (fun k _ => flip_stage (back k))).congr ?_
  intro dup content
  simp only [same]
  constructor
  · rintro ⟨k, inside, executed, rfl⟩
    exact ⟨executed, k, inside, rfl⟩
  · rintro ⟨executed, k, inside, rfl⟩
    exact ⟨k, inside, executed, rfl⟩

private theorem flipStage_stage (count len : Nat) (pos : 0 < count) (few : count ≤ 4) :
    Stage (· = buf) (· = buf) (fun dup content => dup = false ∧
        ∃ b, b + count ≤ 8 * len ∧ content = flipBits count b buf)
      (flipStage count len) := by
  refine flips_stage _ (fun b => by omega) ?_
  intro b
  have parts : b = 8 * (b / 8) + b % 8 := by omega
  rw [parts, flipBits_eq_xorAt _ _ _ _ (by omega), flipBits_eq_xorAt _ _ _ _ (by omega),
    xorAt_xorAt, BitVec.xor_self]
  exact xorAt_zero _ _

private theorem invertStage_stage (w len : Nat) (pos : 0 < w) (short : w ≤ 4) :
    Stage (· = buf) (· = buf) (fun dup content => dup = false ∧
        ∃ i, i + w ≤ len ∧ content = invertAt w i buf)
      (invertStage w len) := by
  refine flips_stage _ (fun i => by omega) ?_
  intro i
  rw [invertAt_eq_xorAt short, invertAt_eq_xorAt short, xorAt_xorAt, BitVec.xor_self]
  exact xorAt_zero _ _

def trials (noArith : Bool) : (w : Nat) → BitVec (8 * w) → List (Trial w)
  | 1, orig => (if noArith then [] else stepTrials 1 arith8Trials orig) ++ interest8Trials orig
  | 2, orig => if noArith then [] else stepTrials 2 arith16Trials orig ++ interest16Trials orig
  | 4, orig => if noArith then [] else stepTrials 4 arith32Trials orig ++ interest32Trials orig
  | _, _ => []

inductive Tried (noArith : Bool) (len : Nat) (buf : Buffer) : Bool → Buffer → Prop
  | input : Tried noArith len buf false buf
  | flip {count b : Nat} (mem : count ∈ [1, 2, 4]) (inside : b + count ≤ 8 * len) :
      Tried noArith len buf false (flipBits count b buf)
  | invert {w i : Nat} (mem : w ∈ [1, 2, 4]) (inside : i + w ≤ len) :
      Tried noArith len buf false (invertAt w i buf)
  | trial {w i : Nat} {trial : Trial w} (inside : i + w ≤ len)
      (mem : trial ∈ trials noArith w (load w buf i))
      (worthwhile : trial.worthwhile = true) :
      Tried noArith len buf trial.duplicate (store w buf i trial.value)

section Pass

variable (len : Nat) (buf : Buffer)

private theorem exec_stage :
    Stage (· = buf) (· = buf) (fun dup content => dup = false ∧ content = buf) DetState.exec where
  leaves _ same := same
  logs s same dup content := by
    cases dup <;> simp [DetState.log, DetState.exec, same]

private theorem stage_if {buf : Buffer} {tries : Bool → Buffer → Prop} {code : DetState → DetState}
    {short : Prop} [Decidable short] (stage : Stage (· = buf) (· = buf) tries code)
    (none : short → ∀ dup content, ¬ tries dup content) :
    Stage (· = buf) (· = buf) tries (fun s => if short then s else code s) := by
  by_cases ruled : short
  · refine (Stage.idle.congr ?_).of_code (fun s _ => if_pos ruled)
    exact fun dup content => ⟨False.elim, none ruled _ _⟩
  · exact stage.of_code (fun s _ => if_neg ruled)

theorem wide_stage {twos fours : Bool → Buffer → Prop} {two four : DetState → DetState}
    (second : Stage (· = buf) (· = buf) twos two) (fourth : Stage (· = buf) (· = buf) fours four)
    (noTwo : len < 2 → ∀ dup content, ¬ twos dup content)
    (noFour : len < 4 → ∀ dup content, ¬ fours dup content) :
    Stage (· = buf) (· = buf) (fun dup content => twos dup content ∨ fours dup content)
      (fun s => if len < 2 then s
        else if len < 4 then two s else four (two s)) := by
  refine stage_if (second.comp (stage_if fourth noFour)) ?_
  rintro short dup content (tried | tried)
  · exact noTwo short _ _ tried
  · exact noFour (by omega) _ _ tried

theorem triesAt_short {len : Nat} {buf : Buffer}
    {list : BitVec (8 * w) → List (Trial w)} (short : len < w) (dup : Bool)
    (content : Buffer) :
    ¬ TriesAt w list len buf dup content := by
  rintro ⟨i, _, _⟩
  omega

theorem bitflips_stage :
    Stage (· = buf) (· = buf) (fun dup content => dup = false ∧ (content = buf ∨
        (∃ count ∈ [1, 2, 4], ∃ b, b + count ≤ 8 * len ∧ content = flipBits count b buf) ∨
        ∃ w ∈ [1, 2, 4], ∃ i, i + w ≤ len ∧ content = invertAt w i buf))
      (bitflips len) := by
  have short : ∀ w, len < w → ∀ (dup : Bool) (content : Buffer),
      ¬ (dup = false ∧ ∃ i, i + w ≤ len ∧ content = invertAt w i buf) := by
    rintro w short dup content ⟨_, i, _, _⟩
    omega
  have wide := wide_stage _ _ (invertStage_stage _ 2 _ (by decide) (by decide))
    (invertStage_stage _ 4 _ (by decide) (by decide)) (short 2) (short 4)
  have flips := (((exec_stage _).comp (flipStage_stage _ 1 len (by decide) (by decide))).comp
    (flipStage_stage _ 2 len (by decide) (by decide))).comp
      (flipStage_stage buf 4 len (by decide) (by decide))
  refine ((flips.comp (invertStage_stage _ 1 _ (by decide) (by decide))).comp wide).congr ?_
  intro dup content
  simp [and_or_left, or_assoc]

private theorem arithmetics_stage :
    Stage (· = buf) (· = buf)
      (fun dup content => TriesAt 1 (stepTrials 1 arith8Trials) len buf dup content ∨
        TriesAt 2 (stepTrials 2 arith16Trials) len buf dup content ∨
        TriesAt 4 (stepTrials 4 arith32Trials) len buf dup content)
      (arithmetics len) := by
  have wide := wide_stage _ _
    (@arithStage_stage 2 _ _ arith16Trials _ (by decide) (fun _ _ _ _ => rfl))
    (@arithStage_stage 4 len buf arith32Trials _ (by decide) (fun _ _ _ _ => rfl))
    triesAt_short triesAt_short
  exact (@arithStage_stage 1 _ _ _ _ (by decide) (fun _ _ _ _ => rfl)).comp wide

theorem interest8Stage_stage :
    Stage (· = buf) (· = buf) (TriesAt 1 interest8Trials len buf) (interestStage 1 len interest8) :=
  @interestStage_stage 1 len buf interest8Trials interest8 (by decide) interest8_stage

private theorem interests_stage :
    Stage (· = buf) (· = buf) (fun dup content => TriesAt 1 interest8Trials len buf dup content ∨
        TriesAt 2 interest16Trials len buf dup content ∨
        TriesAt 4 interest32Trials len buf dup content)
      (interests false len) := by
  have wide := wide_stage _ _ (@interestStage_stage 2 _ _ _ interest16 (by decide)
      (@interestWord_stage 2 _ _ _))
    (@interestStage_stage 4 len _ _ interest32 (by decide) (@interestWord_stage 4 buf _ _))
    triesAt_short triesAt_short
  refine ((interest8Stage_stage _ _).comp wide).of_code ?_
  intro s _
  unfold interests
  simp

theorem trials_width {noArith : Bool} {orig : BitVec (8 * w)}
    {trial : Trial w} (mem : trial ∈ trials noArith w orig) :
    w = 1 ∨ w = 2 ∨ w = 4 := by
  unfold trials at mem
  split at mem
  · exact .inl rfl
  · exact .inr (.inl rfl)
  · exact .inr (.inr rfl)
  · exact absurd mem not_mem_nil

theorem later_stages (noArith : Bool) :
    Stage (· = buf) (· = buf) (fun dup content => ∃ w i, i + w ≤ len ∧
        ∃ trial ∈ trials noArith w (load w buf i), trial.tries buf i dup content)
      (fun s => interests noArith len (if noArith then s else arithmetics len s)) := by
  cases noArith with
  | true =>
    refine ((interest8Stage_stage _ _).congr ?_).of_code (fun _ _ => rfl)
    intro dup content
    constructor
    · rintro ⟨i, inside, trial, mem, tried⟩
      exact ⟨1, i, inside, trial, mem, tried⟩
    · rintro ⟨w, i, inside, trial, mem, tried⟩
      rcases trials_width mem with rfl | rfl | rfl
      · exact ⟨i, inside, trial, mem, tried⟩
      all_goals exact absurd mem not_mem_nil
  | false =>
    refine ((arithmetics_stage _ _).comp (interests_stage _ _)).congr ?_
    intro dup content
    constructor
    · rintro ((tried | tried | tried) | (tried | tried | tried))
      all_goals
        obtain ⟨i, inside, trial, mem, tried⟩ := tried
      · exact ⟨1, i, inside, trial, mem_append_left _ mem, tried⟩
      · exact ⟨2, i, inside, trial, mem_append_left _ mem, tried⟩
      · exact ⟨4, i, inside, trial, mem_append_left _ mem, tried⟩
      · exact ⟨1, i, inside, trial, mem_append_right _ mem, tried⟩
      · exact ⟨2, i, inside, trial, mem_append_right _ mem, tried⟩
      · exact ⟨4, i, inside, trial, mem_append_right _ mem, tried⟩
    · rintro ⟨w, i, inside, trial, mem, tried⟩
      rcases trials_width mem with rfl | rfl | rfl
      · rcases mem_append.1 mem with arith | interest
        · exact .inl (.inl ⟨i, inside, trial, arith, tried⟩)
        · exact .inr (.inl ⟨i, inside, trial, interest, tried⟩)
      · rcases mem_append.1 mem with arith | interest
        · exact .inl (.inr (.inl ⟨i, inside, trial, arith, tried⟩))
        · exact .inr (.inr (.inl ⟨i, inside, trial, interest, tried⟩))
      · rcases mem_append.1 mem with arith | interest
        · exact .inl (.inr (.inr ⟨i, inside, trial, arith, tried⟩))
        · exact .inr (.inr (.inr ⟨i, inside, trial, interest, tried⟩))

theorem deterministicPass_log (noArith dup : Bool) (content : Buffer) :
    content ∈ (deterministicPass noArith len buf).log dup ↔
      Tried noArith len buf dup content := by
  have pass := ((bitflips_stage len _).comp (later_stages len _ noArith)).logs
    ⟨buf, [], []⟩ rfl dup content
  refine pass.trans ?_
  constructor
  · rintro (early | ⟨rfl, rfl | ⟨count, mem, b, inside, rfl⟩ |
      ⟨w, mem, i, inside, rfl⟩⟩ | ⟨w, i, inside, trial, mem, worthwhile, rfl, rfl⟩)
    · cases dup <;> exact absurd early not_mem_nil
    · exact .input
    · exact .flip mem inside
    · exact .invert mem inside
    · exact .trial inside mem worthwhile
  · intro tried
    right
    cases tried with
    | input => exact .inl ⟨rfl, .inl rfl⟩
    | flip mem inside => exact .inl ⟨rfl, .inr (.inl ⟨_, mem, _, inside, rfl⟩)⟩
    | invert mem inside =>
      exact .inl ⟨rfl, .inr (.inr ⟨_, mem, _, inside, rfl⟩)⟩
    | trial inside mem worthwhile =>
      exact .inr ⟨_, _, inside, _, mem, worthwhile, rfl, rfl⟩

end Pass

private theorem flipBits_outside {count b j : Nat} (outside : j < b / 8 ∨ b + count ≤ 8 * j) :
    flipBits count b buf j = buf j := by
  refine forUpto_invariant count _ (fun _ cur => cur j = buf j) buf rfl ?_
  intro k inside cur same
  unfold flipBit
  rwa [Nat.shiftRight_eq_div_pow, Function.update_of_ne (by omega)]

/-- The pass leaves the input as it was, and what it executes or passes over differs from
the input in at most four bytes in a row, inside the input. -/
theorem deterministicPass_local (noArith : Bool) (len : Nat) (buf : Buffer) :
    (deterministicPass noArith len buf).outBuf = buf ∧
      ∀ dup, ∀ content ∈ (deterministicPass noArith len buf).log dup, ∃ i w, w ≤ 4 ∧ i + w ≤ len ∧
          ∀ j, j < i ∨ i + w ≤ j → content j = buf j := by
  refine ⟨((bitflips_stage len _).comp (later_stages len _ noArith)).leaves ⟨buf, [], []⟩ rfl, ?_⟩
  intro dup content logged
  have short : ∀ size ∈ [1, 2, 4], 0 < size ∧ size ≤ 4 := by decide
  cases (deterministicPass_log _ _ noArith dup content).1 logged with
  | input => exact ⟨0, 0, by omega, by omega, fun _ _ => rfl⟩
  | @flip count b mem inside =>
    obtain ⟨some, few⟩ := short _ mem
    refine ⟨b / 8, (b + count - 1) / 8 + 1 - b / 8, by omega, by omega, fun j outside => ?_⟩
    exact flipBits_outside _ (by omega)
  | @invert w i mem inside =>
    exact ⟨i, w, (short _ mem).2, inside, fun j => store_outside⟩
  | @trial w i trial inside mem worthwhile =>
    refine ⟨i, w, ?_, inside, fun j => store_outside⟩
    by_contra wide
    obtain ⟨more, rfl⟩ : ∃ more, w = more + 5 := ⟨w - 5, by omega⟩
    cases mem

/-- What the flipping stages change, wherever they do it. -/
inductive PlainMask : BitVec 32 → Prop
  | input : PlainMask 0
  | flip {count q : Nat} : count ∈ [1, 2, 4] → q < 8 → PlainMask (flipMask count q)
  | invert {w : Nat} : w ∈ [1, 2, 4] → PlainMask ((BitVec.allOnes (8 * w)).setWidth 32)

theorem PlainMask.elim {mask : BitVec 32} (plain : PlainMask mask) (holds : BitVec 32 → Prop)
    (input : holds 0) (flip : ∀ count ∈ [1, 2, 4], ∀ q, q < 8 → holds (flipMask count q))
    (invert : ∀ w ∈ [1, 2, 4], holds ((BitVec.allOnes (8 * w)).setWidth 32)) :
    holds mask := by
  cases plain with
  | input => exact input
  | flip known inside => exact flip _ known _ inside
  | invert known => exact invert _ known

theorem Tried.executed_cases {noArith dup : Bool} {len : Nat} {buf content : Buffer}
    (tried : Tried noArith len buf dup content) (executed : dup = false) :
    (∃ mask i, PlainMask mask ∧ content = xorAt buf i mask) ∨
      ∃ w i, ∃ trial ∈ trials noArith w (load w buf i),
        trial.duplicate = false ∧ content = store w buf i trial.value := by
  have short : ∀ size ∈ [1, 2, 4], size ≤ 4 := by decide
  cases tried with
  | input => exact .inl ⟨0, 0, .input, (xorAt_zero _ 0).symm⟩
  | @flip count b mem inside =>
    have few := short _ mem
    have place := flipBits_eq_xorAt buf (b / 8) (b % 8) count (by omega)
    rw [Nat.div_add_mod] at place
    exact .inl ⟨_, _, .flip mem (Nat.mod_lt b (by decide)), place⟩
  | @invert w i mem inside =>
    exact .inl ⟨_, i, .invert mem, invertAt_eq_xorAt (short _ mem) _ i⟩
  | trial inside mem worthwhile => exact .inr ⟨_, _, _, mem, executed, rfl⟩

end AflPlusPlus
