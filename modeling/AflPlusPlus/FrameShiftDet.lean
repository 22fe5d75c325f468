/-
The deterministic stages of `fuzz_one` while FrameShift relations are enabled.

`common_fuzz_stuff` writes the size fields back into the caller's buffer before it runs the
case.  A stage that undoes an exclusive or by repeating it then flips the bits of a field
that was restored in between.
-/

import AflPlusPlus.DetTrials
import AflPlusPlus.FrameShiftTracking

namespace AflPlusPlus.FrameShift

open Machine List
open Machine.LaneWord

variable (bytes : Nat → Byte)

private theorem testBit_decode (size i t : Nat) (low : t < 8) :
    (forUpto size (fun i val => val ||| (bytes i).toNat <<< (i * 8)) 0).testBit (i * 8 + t) =
      (decide (i < size) && (bytes i).toNat.testBit t) := by
  induction size with
  | zero => simp
  | succ size ih =>
    rw [forUpto_succ, Nat.testBit_or, ih]
    rcases Nat.lt_trichotomy i size with pre | here | post
    · have below : ¬i * 8 + t ≥ size * 8 := by omega
      simp [below, pre, Nat.lt_succ_of_lt pre]
    · subst here
      simp
    · have high : (bytes size).toNat.testBit (i * 8 + t - size * 8) = false :=
        Nat.testBit_lt_two_pow (Nat.lt_of_lt_of_le (bytes _).isLt
          (Nat.pow_le_pow_right (by omega) (by omega)))
      have above : ¬i < size ∧ ¬i < size + 1 := by omega
      simp [high, above.1, above.2]

private theorem valueByte_decode (size i : Nat) (inside : i < size) :
    valueByte (forUpto size (fun i val => val ||| (bytes i).toNat <<< (i * 8)) 0) i = bytes i := by
  apply BitVec.eq_of_getLsbD_eq
  intro t low
  have bit := testBit_decode bytes size i t low
  rw [decide_eq_true inside] at bit
  simp only [valueByte, BitVec.getLsbD_ofNat, low, decide_true, Bool.true_and,
    Nat.testBit_shiftRight]
  exact bit

private theorem byteAt_of_decoded (buf : Buffer) (rel : Relation)
    (decoded : decodeValue (fun i => buf (rel.pos + i)) rel.size rel.le = rel.val)
    (addr : Nat) (inside : rel.Holds addr) : rel.byteAt addr = buf addr := by
  obtain ⟨offset, rfl⟩ : ∃ offset, addr = rel.pos + offset :=
    ⟨addr - rel.pos, (Nat.add_sub_cancel' inside.1).symm⟩
  have within : offset < rel.size := by
    have upper := inside.2
    omega
  unfold Relation.byteAt
  rw [← decoded]
  unfold decodeValue
  cases rel.le with
  | true =>
    simp only [if_true]
    rw [Nat.add_sub_cancel_left, valueByte_decode _ _ _ within]
  | false =>
    simp only [Bool.false_eq_true, if_false]
    rw [valueByte_decode (fun i => buf (rel.pos + (rel.size - 1 - i))) rel.size _ (by omega)]
    congr 1
    omega

def inField (rels : Meta) (addr : Nat) : Bool :=
  rels.any (fun rel => rel.enabled && decide (rel.Holds addr))

def outsideFields (rels : Meta) (inBuf mutated : Buffer) : Buffer :=
  fun addr => if inField rels addr then inBuf addr else mutated addr

private theorem inField_eq_true_iff {rels : Meta} {addr : Nat} :
    inField rels addr = true ↔ ∃ rel ∈ rels, rel.enabled = true ∧ rel.Holds addr := by
  simp [inField]

theorem fsSanitize_eq {s : Tracked} (framed : s.Framed) (buf : Buffer) :
    fsSanitize s.relations buf = outsideFields s.relations s.text.cell buf := by
  funext addr
  unfold outsideFields
  by_cases field : inField s.relations addr = true
  · rw [if_pos field]
    obtain ⟨rel, mem, active, inside⟩ := (inField_eq_true_iff).mp field
    rw [fsSanitize_inside s.relations _ framed.apart _ mem active _ inside]
    exact byteAt_of_decoded _ _ (framed.decoded _ mem active) _ inside
  · rw [if_neg field]
    apply fsSanitize_outside
    intro rel mem active inside
    exact field ((inField_eq_true_iff).mpr ⟨rel, mem, active, inside⟩)

/-- `out_buf` and the cases executed so far. -/
@[ext] structure Executing where
  outBuf : Buffer
  executed : List Buffer

def commonFuzzStuff (rels : Meta) (s : Executing) : Executing :=
  let buf := fsSanitize rels s.outBuf
  { outBuf := buf, executed := s.executed ++ [buf] }

/-- One change with its undoing: adjacent bits, an inverted word, or candidates for the
word at a place. -/
inductive DetStep where
  | flip (count stageCur : Nat)
  | invert (w i : Nat)
  | write (w i : Nat) (trials : BitVec (8 * w) → List (Trial w))

def live {w : Nat} (trial : Trial w) : Bool := trial.worthwhile && !trial.duplicate

def attemptFramed (rels : Meta) (w i : Nat) (s : Executing) (trial : Trial w) :
    Executing :=
  if live trial then
    commonFuzzStuff rels { s with outBuf := store w s.outBuf i trial.value }
  else s

def detStep (rels : Meta) (s : Executing) : DetStep → Executing
  | .flip count stageCur =>
    let ran := commonFuzzStuff rels { s with outBuf := flipBits count stageCur s.outBuf }
    { ran with outBuf := flipBits count stageCur ran.outBuf }
  | .invert w i =>
    let ran := commonFuzzStuff rels { s with outBuf := invertAt w i s.outBuf }
    { ran with outBuf := invertAt w i ran.outBuf }
  | .write w i trials =>
    let orig := load w s.outBuf i
    let ran := (trials orig).foldl (attemptFramed rels w i) s
    { ran with outBuf := store w ran.outBuf i orig }

def flipSteps (count len : Nat) : List DetStep :=
  (List.range ((len <<< 3) - (count - 1))).map (.flip count)

def invertSteps (w len : Nat) : List DetStep :=
  (List.range (len - (w - 1))).map (.invert w)

def arithSteps (w : Nat) (trials : BitVec (8 * w) → Nat → List (Trial w))
    (len : Nat) : List DetStep :=
  (List.range (len - (w - 1))).flatMap (fun i =>
    (List.range arithMax).map (fun j => .write w i (fun orig => trials orig (j + 1))))

def interest8Steps (len : Nat) : List DetStep :=
  (List.range len).flatMap (fun i =>
    (List.range interesting8.length).map (fun j =>
      .write 1 i (fun orig => ((interest8Trials orig).drop j).take 1)))

def interestSteps (w : Nat) (trials : BitVec (8 * w) → List (Trial w)) (len : Nat) :
    List DetStep :=
  (List.range (len - (w - 1))).map (fun i => .write w i trials)

def detSteps (noArith : Bool) (len : Nat) : List DetStep :=
  flipSteps 1 len ++ flipSteps 2 len ++ flipSteps 4 len ++ invertSteps 1 len ++
    (if len < 2 then [] else invertSteps 2 len) ++ (if len < 4 then [] else invertSteps 4 len) ++
    (if noArith then [] else
      arithSteps 1 arith8Trials len ++ (if len < 2 then [] else arithSteps 2 arith16Trials len) ++
        (if len < 4 then [] else arithSteps 4 arith32Trials len)) ++
    interest8Steps len ++
    (if noArith || len < 2 then [] else
      interestSteps 2 interest16Trials len ++
        (if len < 4 then [] else interestSteps 4 interest32Trials len))

def DetStep.mutants (inBuf : Buffer) : DetStep → List Buffer
  | .flip count stageCur => [flipBits count stageCur inBuf]
  | .invert w i => [invertAt w i inBuf]
  | .write w i trials =>
    ((trials (load w inBuf i)).filter live).map (fun trial => store w inBuf i trial.value)

def DetStep.Spares (rels : Meta) : DetStep → Prop
  | .flip count stageCur => ∀ k, k < count → inField rels ((stageCur + k) >>> 3) = false
  | .invert w i => ∀ k, k < w → inField rels (i + k) = false
  | .write _ _ _ => True

structure Masks (change : Buffer → Buffer) (mask : Nat → Byte) : Prop where
  apply : ∀ buf addr, change buf addr = buf addr ^^^ mask addr

def bitMaskAt (count stageCur addr : Nat) : Byte :=
  forUpto count (fun k mask =>
    if (stageCur + k) >>> 3 = addr then mask ^^^ (128#8 >>> ((stageCur + k) &&& 7)) else mask) 0

variable (count stageCur : Nat)

private theorem flipBits_masks :
    Masks (flipBits count stageCur) (bitMaskAt count stageCur) where
  apply buf addr := by
    unfold flipBits bitMaskAt
    induction count with
    | zero => simp
    | succ count ih =>
      rw [forUpto_succ, forUpto_succ]
      by_cases here : (stageCur + count) >>> 3 = addr
      · rw [if_pos here, flipBit, here, Function.update_self, ih, BitVec.xor_assoc]
      · rw [if_neg here, flipBit, Function.update_of_ne (Ne.symm here), ih]

private theorem getLsbD_top (n t : Nat) (small : n < 8) (low : t < 8) :
    (128#8 >>> n).getLsbD t = decide (t + n = 7) := by
  have checked : ∀ n t : Fin 8, (128#8 >>> n.val).getLsbD t.val = decide (t.val + n.val = 7) := by
    decide
  exact checked ⟨n, small⟩ ⟨t, low⟩

variable (addr : Nat)

/-- Adjacent bits never cancel: bit `7 - t` of a byte is in the mask exactly when its
number lies among those flipped. -/
private theorem getLsbD_bitMaskAt (t : Nat) (low : t < 8) :
    (bitMaskAt count stageCur addr).getLsbD t =
      decide (stageCur ≤ addr * 8 + (7 - t) ∧ addr * 8 + (7 - t) < stageCur + count) := by
  unfold bitMaskAt
  induction count with
  | zero =>
    simp
  | succ count ih =>
    have split : stageCur + count = (stageCur + count) >>> 3 * 8 + ((stageCur + count) &&& 7) := by
      rw [show (7 : Nat) = 2 ^ 3 - 1 from rfl, Nat.and_two_pow_sub_one_eq_mod]
      omega
    have offset : (stageCur + count) &&& 7 < 8 := by
      omega
    rw [forUpto_succ]
    split
    · rw [BitVec.getLsbD_xor, ih, getLsbD_top _ _ offset low]
      by_cases same : t + ((stageCur + count) &&& 7) = 7
      · rw [decide_eq_true same, decide_eq_false (by omega), decide_eq_true (by omega)]
        rfl
      · rw [decide_eq_false same, Bool.xor_false]
        congr 1
        apply propext
        omega
    · rw [ih]
      congr 1
      apply propext
      omega

private theorem bitMaskAt_ne_zero_iff :
    bitMaskAt count stageCur addr ≠ 0 ↔ ∃ k, k < count ∧ (stageCur + k) >>> 3 = addr := by
  constructor
  · intro set
    by_contra missed
    apply set
    apply BitVec.eq_of_getLsbD_eq
    intro t low
    rw [getLsbD_bitMaskAt _ _ _ _ low]
    simp only [BitVec.ofNat_eq_ofNat, BitVec.getLsbD_zero, decide_eq_false_iff_not]
    rintro ⟨_, _⟩
    exact missed ⟨addr * 8 + (7 - t) - stageCur, by omega, by omega⟩
  · rintro ⟨k, _, _⟩ zero
    have bit := getLsbD_bitMaskAt count stageCur addr (7 - (stageCur + k) % 8) (by omega)
    rw [zero, decide_eq_true (by omega)] at bit
    simp at bit

def invertMaskAt (w i addr : Nat) : Byte :=
  if i ≤ addr ∧ addr < i + w then BitVec.allOnes 8 else 0

private theorem invertAt_masks (w i : Nat) : Masks (invertAt w i) (invertMaskAt w i) where
  apply buf addr := by
    unfold invertAt invertMaskAt
    by_cases inside : i ≤ addr ∧ addr < i + w
    · obtain ⟨offset, rfl⟩ : ∃ offset, addr = i + offset := ⟨addr - i, by omega⟩
      have within : offset < w := by omega
      rw [if_pos inside, store_inside within]
      apply BitVec.eq_of_getLsbD_eq
      intro t low
      have loaded := congrArg (fun lane => lane.getLsbD t) (laneAt_load _ buf i _ within)
      simp only [getLsbD_laneAt, low, decide_true, Bool.true_and] at loaded
      have bounded : 8 * offset + t < 8 * w := by omega
      simp only [getLsbD_laneAt, low, decide_true, Bool.true_and, BitVec.getLsbD_xor, loaded,
        BitVec.getLsbD_allOnes, bounded]
    · rw [if_neg inside, store_outside (by omega)]
      simp

private theorem invertMaskAt_ne_zero_iff {w i addr : Nat} :
    invertMaskAt w i addr ≠ 0 ↔ ∃ k, k < w ∧ i + k = addr := by
  unfold invertMaskAt
  constructor
  · intro set
    by_cases inside : i ≤ addr ∧ addr < i + w
    · exact ⟨addr - i, by omega, by omega⟩
    · rw [if_neg inside] at set
      exact absurd rfl set
  · rintro ⟨k, _, _⟩
    rw [if_pos ⟨by omega, by omega⟩]
    decide

section Framed

variable {s : Tracked} (framed : s.Framed)

/-- Doing an exclusive or, running the case and doing it again leaves the original
exactly when no field byte is in the mask. -/
private theorem masked_undone_iff {change : Buffer → Buffer} {mask : Nat → Byte}
    (masks : Masks change mask) :
    change (outsideFields s.relations s.text.cell (change s.text.cell)) = s.text.cell ↔
      ∀ addr, mask addr ≠ 0 → inField s.relations addr = false := by
  constructor
  · intro same addr set
    by_contra field
    have here := congrFun same addr
    rw [masks.apply, outsideFields, if_pos (Bool.eq_true_of_not_eq_false field)] at here
    exact set ((BitVec.xor_right_inj _).mp (here.trans BitVec.xor_zero.symm))
  · intro spared
    funext addr
    rw [masks.apply, outsideFields]
    by_cases set : mask addr = 0
    · rw [masks.apply, set]
      simp
    · rw [spared _ set, if_neg Bool.false_ne_true, masks.apply, BitVec.xor_assoc,
        BitVec.xor_self, BitVec.xor_zero]

def Aside (w i : Nat) (inBuf outBuf : Buffer) : Prop :=
  ∀ addr, addr < i ∨ i + w ≤ addr → outBuf addr = inBuf addr

theorem Aside.store_eq {w i : Nat} {inBuf outBuf : Buffer} (aside : Aside w i inBuf outBuf)
    (v : BitVec (8 * w)) : store w outBuf i v = store w inBuf i v := by
  funext addr
  by_cases inside : i ≤ addr ∧ addr < i + w
  · simp only [store, if_pos inside]
  · have outside : addr < i ∨ i + w ≤ addr := by omega
    rw [store_outside outside, store_outside outside, aside _ outside]

include framed in
private theorem attempts_framed (w i : Nat) (trials : List (Trial w)) (ran : Executing)
    (aside : Aside w i s.text.cell ran.outBuf) :
    let final := trials.foldl (attemptFramed s.relations w i) ran
    Aside w i s.text.cell final.outBuf ∧ final.executed = ran.executed ++
        ((trials.filter live).map (fun trial => store w s.text.cell i trial.value)).map
          (outsideFields s.relations s.text.cell) := by
  induction trials generalizing ran with
  | nil => exact ⟨aside, (append_nil _).symm⟩
  | cons trial rest ih =>
    rw [foldl_cons]
    by_cases tried : live trial = true
    · have step : attemptFramed s.relations w i ran trial =
          { outBuf := outsideFields s.relations s.text.cell
              (store w s.text.cell i trial.value)
            executed := ran.executed ++ [outsideFields s.relations s.text.cell
              (store w s.text.cell i trial.value)] } := by
        rw [attemptFramed, if_pos tried, commonFuzzStuff, fsSanitize_eq framed, aside.store_eq]
      have still : Aside w i s.text.cell (outsideFields s.relations s.text.cell
          (store w s.text.cell i trial.value)) := by
        intro addr outside
        rw [outsideFields, store_outside outside]
        exact ite_self _
      obtain ⟨kept, logged⟩ := ih (attemptFramed s.relations w i ran trial)
        (by rw [step]; exact still)
      refine ⟨kept, ?_⟩
      rw [logged, step, filter_cons_of_pos tried, map_cons, map_cons,
        append_assoc, singleton_append]
    · rw [attemptFramed, if_neg tried, filter_cons_of_neg tried]
      exact ih ran aside

variable (executed : List Buffer)

include framed in
/-- From the original buffer a step executes what it means to, outside the fields; and it
leaves the original behind exactly when it flips no bit of a field. -/
theorem detStep_framed (step : DetStep) :
    (detStep s.relations ⟨s.text.cell, executed⟩ step).executed =
        executed ++ (step.mutants s.text.cell).map (outsideFields s.relations s.text.cell) ∧
      ((detStep s.relations ⟨s.text.cell, executed⟩ step).outBuf = s.text.cell ↔
        step.Spares s.relations) := by
  cases step with
  | flip count stageCur =>
    simp only [detStep, commonFuzzStuff, fsSanitize_eq framed, DetStep.mutants, map_cons,
      map_nil, true_and]
    rw [masked_undone_iff (flipBits_masks count stageCur)]
    constructor
    · intro spared k below
      exact spared _ ((bitMaskAt_ne_zero_iff _ _ _).mpr ⟨k, below, rfl⟩)
    · intro spares addr set
      obtain ⟨k, below, here⟩ := (bitMaskAt_ne_zero_iff _ _ _).mp set
      rw [← here]
      exact spares k below
  | invert w i =>
    simp only [detStep, commonFuzzStuff, fsSanitize_eq framed, DetStep.mutants, map_cons,
      map_nil, true_and]
    rw [masked_undone_iff (invertAt_masks w i)]
    constructor
    · intro spared k below
      exact spared _ ((invertMaskAt_ne_zero_iff).mpr ⟨k, below, rfl⟩)
    · intro spares addr set
      obtain ⟨k, below, here⟩ := (invertMaskAt_ne_zero_iff).mp set
      rw [← here]
      exact spares k below
  | write w i trials =>
    have attempts := attempts_framed framed w i (trials (load w s.text.cell i))
      ⟨s.text.cell, executed⟩ (fun _ _ => rfl)
    refine ⟨attempts.2, ⟨fun _ => trivial, fun _ => ?_⟩⟩
    simp only [detStep]
    rw [attempts.1.store_eq, store_load]

include framed in
private theorem detSteps_framed (steps : List DetStep)
    (spares : ∀ step ∈ steps, step.Spares s.relations) :
    runFrom (detStep s.relations) ⟨s.text.cell, executed⟩ steps =
      { outBuf := s.text.cell
        executed := executed ++ (steps.flatMap (DetStep.mutants s.text.cell)).map
          (outsideFields s.relations s.text.cell) } := by
  induction steps generalizing executed with
  | nil =>
    change (⟨s.text.cell, executed⟩ : Executing) = _
    rw [flatMap_nil, map_nil, append_nil]
  | cons step rest ih =>
    obtain ⟨logged, undone⟩ := detStep_framed framed executed step
    have back := undone.mpr (spares step mem_cons_self)
    have reached : detStep s.relations ⟨s.text.cell, executed⟩ step =
        ⟨s.text.cell, executed ++ (step.mutants s.text.cell).map
          (outsideFields s.relations s.text.cell)⟩ := Executing.ext back logged
    change runFrom (detStep s.relations) (detStep s.relations ⟨s.text.cell, executed⟩ step) rest = _
    rw [reached, ih _ (fun other mem => spares other (mem_cons_of_mem _ mem)),
      flatMap_cons, map_append, append_assoc]

end Framed

/-- A deterministic step leaves the original buffer behind, having executed its mutations
outside the enabled fields, exactly when it flips no bit of such a field; and a pass that
takes only such steps of the stages leaves it behind at every point. -/
theorem det_step_neutral_iff (s : Tracked) (framed : s.Framed) :
    (∀ executed step, detStep s.relations ⟨s.text.cell, executed⟩ step =
          ⟨s.text.cell, executed ++ (step.mutants s.text.cell).map
            (outsideFields s.relations s.text.cell)⟩ ↔
        step.Spares s.relations) ∧
    ∀ noArith steps, List.Sublist steps (detSteps noArith s.text.len) →
      (∀ step ∈ steps, step.Spares s.relations) →
      runFrom (detStep s.relations) ⟨s.text.cell, []⟩ steps =
        ⟨s.text.cell, (steps.flatMap (DetStep.mutants s.text.cell)).map
          (outsideFields s.relations s.text.cell)⟩ := by
  constructor
  · intro executed step
    obtain ⟨logged, undone⟩ := detStep_framed framed executed step
    constructor
    · intro neutral
      exact undone.mp (congrArg Executing.outBuf neutral)
    · intro spares
      exact Executing.ext (undone.mpr spares) logged
  · intro _noArith steps _stages spares
    exact detSteps_framed framed [] _ spares

def countedFile : Tracked :=
  { text := { len := 4, cell := fun place => if place = 0 then 3 else 65 }
    relations :=
      [{ pos := 0, val := 3, anchor := 1, insert := 4, oldPos := 0, oldVal := 0, oldAnchor := 0,
         oldInsert := 0, size := 1, le := true, enabled := true
         size_le := Nat.le_of_ble_eq_true rfl }] }

private theorem countedFile_framed : countedFile.Framed :=
  ⟨by decide, by decide, by decide, pairwise_singleton _ _⟩

theorem flip_behind_count_neutral :
    countedFile.Framed ∧ DetStep.Spares countedFile.relations (.flip 1 8) ∧
      detStep countedFile.relations ⟨countedFile.text.cell, []⟩ (.flip 1 8) =
        ⟨countedFile.text.cell, [] ++ (DetStep.mutants countedFile.text.cell (.flip 1 8)).map
          (outsideFields countedFile.relations countedFile.text.cell)⟩ := by
  have spares : DetStep.Spares countedFile.relations (.flip 1 8) := by
    intro k below
    rw [Nat.lt_one_iff.mp below]
    rfl
  exact ⟨countedFile_framed, spares,
    ((det_step_neutral_iff countedFile countedFile_framed).1 [] (.flip 1 8)).mpr spares⟩

/-- Flipping the first bit of the count: the case runs with the count in place, and the
second flip leaves 131 there. -/
theorem flip_in_count_stays :
    countedFile.text.cell 0 = 3#8 ∧
      (detStep countedFile.relations ⟨countedFile.text.cell, []⟩ (.flip 1 0)).outBuf 0 = 131#8 ∧
      (detStep countedFile.relations ⟨countedFile.text.cell, []⟩ (.flip 1 0)).executed.map
        (fun buf => buf 0) = [3#8] := by
  decide

end AflPlusPlus.FrameShift
