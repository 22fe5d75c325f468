/-
The minimiser comes to an end, and no byte of what it leaves can be deleted.

In the pass that ends the function nothing was deleted, so single bytes were
tried on the final data.  A byte that was skipped equals the byte before it, and
deleting one of two equal neighbours gives the same candidate.
-/

import AflPlusPlus.TminReduction

namespace AflPlusPlus.Tmin

open Machine

variable {Data : Type}

/-- The data behind a block is accepted, whether the function goes on or ends. -/
def Accepts (keep : Verdict) : Checked (Jump (Minimizing Data) (List Byte)) → Prop
  | .error _ => True
  | .ok (.exit last) => keep last = true
  | .ok (.goto following) => keep following.inData = true

section Acceptance

variable {keep : Verdict} {s : Minimizing Data}

section

variable (accepted : keep s.inData = true)
include accepted

private theorem customStep_accepts (customTrimmed : Bool) (muts : List (CustomMutator Data)) :
    Accepts keep (customStep s customTrimmed muts) := by
  cases muts with
  | nil =>
    simp only [customStep]
    split <;> exact accepted
  | cons el rest =>
    simp only [customStep]
    cases el.trimHooks with
    | none => exact accepted
    | some hooks =>
      dsimp only
      split <;> exact accepted

private theorem trimStep_accepts (trimming : Trimming Data) :
    Accepts keep (trimStep keep s trimming) := by
  unfold trimStep
  split
  · dsimp only
    split
    · exact accepted
    · next ran =>
        have taken := (not_or.mp ran).2
        rw [Bool.not_eq_false] at taken
        exact taken
  · split <;> exact accepted

private theorem normalizeStep_accepts (setLen setPos : Nat) :
    Accepts keep (normalizeStep keep s setLen setPos) := by
  unfold normalizeStep
  split
  · dsimp only
    split
    · exact accepted
    · split
      · next blanked => exact blanked
      · exact accepted
  · exact accepted

private theorem removeStep_accepts (delLenLimit delLen delPos : Nat) (prevDel : Bool) :
    Accepts keep (removeStep keep delLenLimit s delLen delPos prevDel) := by
  unfold removeStep
  split
  · split
    · exact accepted
    · dsimp only
      split
      · next shortened => exact shortened
      · exact accepted
  · have advances := (minimizeAlphabet_advances _ s.toProgress).trans
      (minimizeCharacters_advances keep _)
    have post := advances.accepted accepted
    unfold blocksRemoved
    split
    · exact accepted
    · split
      · exact accepted
      · dsimp only
        split <;> exact post

private theorem minimizeStep_accepts (delLenLimit : Nat) :
    Accepts keep (minimizeStep keep delLenLimit s) := by
  unfold minimizeStep
  cases s.point with
  | customTrim muts customTrimmed => exact customStep_accepts accepted _ _
  | trimLoop trimming => exact trimStep_accepts accepted _
  | normalizeBlock setLen setPos => exact normalizeStep_accepts accepted _ _
  | nextPass | nextDelBlksize delLen => exact accepted
  | removeBlock delLen delPos prevDel =>
    exact removeStep_accepts accepted _ _ _ _

end

end Acceptance

/-- No single byte can be deleted with the result still accepted. -/
def LocallyMinimal (keep : Verdict) (data : List Byte) : Prop :=
  ∀ i, i < data.length → keep (data.eraseIdx i) = false

def Tried (keep : Verdict) (data : List Byte) (delPos : Nat) : Prop :=
  ∀ i, i < delPos → i < data.length → keep (data.eraseIdx i) = false

private theorem deleteBlock_one (data : List Byte) (delPos : Nat) :
    deleteBlock data delPos 1 = data.eraseIdx delPos :=
  (List.eraseIdx_eq_take_drop_succ data delPos).symm

variable {data : List Byte} {delPos : Nat} {prevDel : Bool} {keep : Verdict}

theorem Tried.succ (pre : Tried keep data delPos) (rejected : keep (data.eraseIdx delPos) = false) :
    Tried keep data (delPos + 1) := by
  intro i below within
  cases Nat.lt_succ_iff_lt_or_eq.mp below with
  | inl earlier => exact pre i earlier within
  | inr same => rwa [same]

private theorem eraseIdx_of_neighbours {i : Nat}
    (equal : (data.drop i).take 1 = (data.drop (i + 1)).take 1) :
    data.eraseIdx (i + 1) = data.eraseIdx i := by
  induction data generalizing i with
  | nil => rfl
  | cons byte rest ih =>
    cases i with
    | zero =>
      cases rest with
      | nil => cases equal
      | cons next rest =>
        have same : [byte] = [next] := equal
        cases same
        rfl
    | succ i => exact congrArg (byte :: ·) (ih equal)

private theorem rejected_of_skipsBlock (pre : Tried keep data delPos)
    (behind : prevDel = false → 0 < delPos) (within : delPos < data.length)
    (skips : skipsBlock data 1 delPos prevDel = true) :
    keep (data.eraseIdx delPos) = false := by
  unfold skipsBlock at skips
  rw [Bool.and_eq_true, Bool.and_eq_true, Bool.not_eq_true', decide_eq_true_eq,
    decide_eq_true_eq] at skips
  obtain ⟨⟨kept, _⟩, equal⟩ := skips
  have pos := behind kept
  obtain ⟨i, rfl⟩ : ∃ i, delPos = i + 1 := ⟨delPos - 1, by omega⟩
  rw [Nat.add_sub_cancel] at equal
  rw [eraseIdx_of_neighbours equal]
  exact pre i (Nat.lt_succ_self i) (by omega)

/-- What holds at a label.  While single bytes are tried on data that this pass
has not changed, those before `del_pos` have been rejected. -/
def Point.Holds (keep : Verdict) (pass : Progress) : Point Data → Prop
  | .customTrim muts customTrimmed =>
    muts = [] ∧ customTrimmed = false ∧ 2 ≤ pass.inData.length
  | .trimLoop _ => False
  | .normalizeBlock setLen _ => 0 < setLen
  | .nextPass => True
  | .nextDelBlksize _ => True
  | .removeBlock delLen delPos prevDel => 0 < delLen ∧ (prevDel = false → 0 < delPos) ∧
      (delLen = 1 → pass.changedAny = false → Tried keep pass.inData delPos)

structure Sound (keep : Verdict) (orig : List Byte) (s : Minimizing Data) : Prop where
  accepted : keep s.inData = true
  simplified : Simplifies orig s.inData
  point : s.point.Holds keep s.toProgress

/-- What the function is to leave in `in_data`. -/
structure Minimized (keep : Verdict) (orig final : List Byte) : Prop where
  accepted : keep final = true
  simplified : Simplifies orig final
  minimal : LocallyMinimal keep final

/-- A changed pass pays for the next one: its first component has room for one
`changed_any`, which `next_pass` takes back. -/
def Point.rank (pass : Progress) (point : Point Data) : Nat × Nat × Nat :=
  let volume := 2 * size pass.inData + pass.changedAny.toNat
  let start := 2 * max (startDelLen pass.inData.length) 1
  match point with
  | .customTrim _ _ => (volume, start + 4, 0)
  | .trimLoop _ => (volume, start + 4, 0)
  | .normalizeBlock _ setPos => (volume, start + 3, pass.inData.length - setPos)
  | .nextPass => (2 * size pass.inData, start + 2, 0)
  | .nextDelBlksize delLen => (volume, 2 * max delLen 1 + 1, 0)
  | .removeBlock delLen delPos _ => (volume, 2 * delLen, pass.inData.length - delPos)

def Lower (following cur : Minimizing Data) : Prop :=
  Prod.Lex (· < ·) (Prod.Lex (· < ·) (· < ·))
    (following.point.rank following.toProgress) (cur.point.rank cur.toProgress)

private theorem lower_wellFounded (Data : Type) : WellFounded (@Lower Data) :=
  InvImage.wf (fun s : Minimizing Data => s.point.rank s.toProgress)
    (WellFounded.prod_lex Nat.lt_wfRel.wf (WellFounded.prod_lex Nat.lt_wfRel.wf Nat.lt_wfRel.wf))

def BlockDescends (keep : Verdict) (orig : List Byte) (s : Minimizing Data) :
    Checked (Jump (Minimizing Data) (List Byte)) → Prop :=
  Descends (Sound keep orig) Lower (Minimized keep orig) s

variable {keep : Verdict} {orig : List Byte} {s : Minimizing Data}

section

variable (sound : Sound keep orig s)
include sound

theorem Sound.jump {point : Point Data} (holds : point.Holds keep s.toProgress)
    (lower : Lower { s with point := point } s) :
    BlockDescends keep orig s (s.jump point) :=
  ⟨⟨sound.accepted, sound.simplified, holds⟩, lower⟩

theorem Sound.customStep (labelled : s.point = .customTrim [] false) (long : 2 ≤ s.inData.length) :
    BlockDescends keep orig s (Tmin.customStep s false []) := by
  unfold Tmin.customStep
  rw [if_neg (by simp; omega)]
  apply sound.jump
  · change 0 < setLen _
    unfold setLen
    omega
  · unfold Lower
    rw [labelled]
    dsimp only [Point.rank]
    exact .right _ (.left _ _ (by omega))

theorem Sound.normalizeStep {setLen setPos : Nat}
    (labelled : s.point = .normalizeBlock setLen setPos) (pos : 0 < setLen) :
    BlockDescends keep orig s (Tmin.normalizeStep keep s setLen setPos) := by
  unfold Tmin.normalizeStep
  split
  · next within =>
      have onward :
    Lower { s with point := .normalizeBlock setLen (setPos + setLen) } s := by
        unfold Lower
        rw [labelled]
        dsimp only [Point.rank]
        exact .right _ (.right _ (by omega))
      have fits : setPos + min setLen (s.inData.length - setPos) ≤ s.inData.length := by
        omega
      dsimp only
      split
      · exact sound.jump pos onward
      · next other =>
          split
          · next accepted =>
              have simpler := simplifies_blankBlock fits
              have smaller := simpler.eq_or_smaller.resolve_left
                (blankBlock_ne fits (Bool.not_eq_true _ ▸ other))
              refine ⟨⟨accepted, sound.simplified.trans simpler, pos⟩, ?_⟩
              unfold Lower
              rw [labelled]
              dsimp only [Point.rank]
              exact .left _ _ (by omega)
          · exact sound.jump pos onward
  · apply sound.jump
    · trivial
    · unfold Lower
      rw [labelled]
      dsimp only [Point.rank]
      cases s.changedAny with
      | false => exact .right _ (.left _ _ (by omega))
      | true => exact .left _ _ (Nat.lt_succ_self _)

variable {delLen : Nat} (labelled : s.point = .removeBlock delLen delPos prevDel)

include labelled

theorem Sound.blocksRemoved (beyond : s.inData.length ≤ delPos) :
    BlockDescends keep orig s (Tmin.blocksRemoved keep 1 s delLen) := by
  have holds := sound.point
  rw [labelled] at holds
  obtain ⟨_, _, tried⟩ := holds
  unfold Tmin.blocksRemoved
  split
  · next halves =>
      apply sound.jump
      · trivial
      · unfold Lower
        rw [labelled]
        exact .right _ (.left _ _ (by omega))
  · next last =>
      -- either single bytes were tried to the end or there is no byte
      have minimal (down : s.changedAny = false) : LocallyMinimal keep s.inData := by
        intro i within
        exact tried (by omega) down i (by omega) within
      split
      · next settled => exact ⟨sound.accepted, sound.simplified, minimal settled.2⟩
      · have advances := (minimizeAlphabet_advances _ s.toProgress).trans
          (minimizeCharacters_advances keep _)
        dsimp only
        split
        · next raised =>
            refine ⟨⟨advances.accepted sound.accepted,
              sound.simplified.trans advances.simplified, trivial⟩, ?_⟩
            unfold Lower
            rw [labelled]
            apply Prod.Lex.left
            dsimp only
            cases advances.noticed with
            | inl same =>
              rw [same] at raised ⊢
              rw [raised]
              exact Nat.lt_succ_self _
            | inr changed => omega
        · next down =>
            have same := advances.eq_of_unchanged (Bool.not_eq_true _ ▸ down)
            rw [same] at down ⊢
            exact ⟨sound.accepted, sound.simplified, minimal (Bool.not_eq_true _ ▸ down)⟩

theorem Sound.removeStep :
    BlockDescends keep orig s (Tmin.removeStep keep 1 s delLen delPos prevDel) := by
  have holds := sound.point
  rw [labelled] at holds
  obtain ⟨pos, behind, tried⟩ := holds
  unfold Tmin.removeStep
  split
  · next within =>
      have onward (prevDel : Bool) :
          Lower { s with point := .removeBlock delLen (delPos + delLen) prevDel } s := by
        unfold Lower
        rw [labelled]
        dsimp only [Point.rank]
        exact .right _ (.right _ (by omega))
      split
      · next skips =>
          refine sound.jump ⟨pos, fun _ => by omega, ?_⟩ (onward _)
          intro single down
          subst single
          have pre := tried rfl down
          exact pre.succ (rejected_of_skipsBlock pre behind within skips)
      · dsimp only
        split
        · next accepted =>
            have simpler := simplifies_deleteBlock s.inData delPos delLen
            have smaller := simpler.eq_or_smaller.resolve_left (deleteBlock_ne within pos)
            refine ⟨⟨accepted, sound.simplified.trans simpler, pos, ?_, ?_⟩, ?_⟩
            · intro bad
              cases bad
            · intro _ bad
              cases bad
            · unfold Lower
              rw [labelled]
              apply Prod.Lex.left
              dsimp only
              have one : true.toNat = 1 := rfl
              omega
        · next rejected =>
            refine sound.jump ⟨pos, fun _ => by omega, ?_⟩ (onward _)
            intro single down
            subst single
            rw [deleteBlock_one] at rejected
            exact (tried rfl down).succ (Bool.not_eq_true _ ▸ rejected)
  · next beyond => exact sound.blocksRemoved labelled (Nat.le_of_not_lt beyond)

omit labelled

theorem Sound.minimizeStep :
    BlockDescends keep orig s (Tmin.minimizeStep keep 1 s) := by
  have holds := sound.point
  unfold Tmin.minimizeStep
  cases labelled : s.point with
  | customTrim muts customTrimmed =>
    rw [labelled] at holds
    obtain ⟨rfl, rfl, long⟩ := holds
    exact sound.customStep labelled long
  | trimLoop trimming =>
    rw [labelled] at holds
    exact holds.elim
  | normalizeBlock setLen setPos =>
    rw [labelled] at holds
    exact sound.normalizeStep labelled holds
  | nextPass =>
    refine ⟨⟨sound.accepted, sound.simplified, trivial⟩, ?_⟩
    unfold Lower
    rw [labelled]
    exact .right _ (.left _ _ (by omega))
  | nextDelBlksize delLen =>
    apply sound.jump
    · refine ⟨by split <;> omega, ?_, ?_⟩
      · intro bad
        cases bad
      · intro _ _ i bad
        exact (Nat.not_lt_zero i bad).elim
    · unfold Lower
      rw [labelled]
      exact .right _ (.left _ _ (by split <;> omega))
  | removeBlock delLen delPos prevDel => exact sound.removeStep labelled

end

variable {orig : List Byte}

private theorem minimize_minimized (Data : Type) (long : 2 ≤ orig.length)
    (accepted : keep orig = true) :
    ∃ final, Minimizes keep 1 ([] : List (CustomMutator Data)) orig final ∧
      Minimized keep orig final := by
  have start : Sound keep orig (Minimizing.start ([] : List (CustomMutator Data)) orig) :=
    { accepted := accepted, simplified := .refl _, point := ⟨rfl, rfl, long⟩ }
  exact Halts.of_descent (lower_wellFounded Data) (fun _ sound => sound.minimizeStep) start

/-- Without custom mutators and down to single bytes, the minimiser comes to an
end.  What it leaves is accepted, comes from the original by deleting bytes and
replacing bytes by `'0'`, and loses its acceptance with any one byte. -/
theorem minimize_locally_minimal (Data : Type) (keep : Verdict) (orig : List Byte)
    (long : 2 ≤ orig.length) (accepted : keep orig = true) :
    ∃ final, Minimizes keep 1 ([] : List (CustomMutator Data)) orig final ∧
      keep final = true ∧ Simplifies orig final ∧
      ∀ i, i < final.length → keep (final.eraseIdx i) = false := by
  obtain ⟨final, minimizes, minimized⟩ := minimize_minimized Data long accepted
  exact ⟨final, minimizes, minimized.accepted, minimized.simplified, minimized.minimal⟩

/-- Keeps what has an `A` somewhere before a `B`. -/
def keepsOrder (data : List Byte) : Bool :=
  (data.dropWhile (· ≠ 65)).contains 66

/-- `xA1AyB` -/
def sampleInput : List Byte := [120, 65, 49, 65, 121, 66]

theorem sample_locally_minimal : 2 ≤ sampleInput.length ∧ keepsOrder sampleInput = true ∧
    ∃ final, Minimizes keepsOrder 1 ([] : List (CustomMutator Unit)) sampleInput final ∧
      keepsOrder final = true ∧ Simplifies sampleInput final ∧
      ∀ i, i < final.length → keepsOrder (final.eraseIdx i) = false :=
  ⟨by decide, by decide,
    minimize_locally_minimal Unit keepsOrder sampleInput (by decide) (by decide)⟩

example : runLabels (minimizeStep keepsOrder 1)
    30 (Minimizing.start ([] : List (CustomMutator Unit)) sampleInput) = .ok [65, 66] := by
  decide +kernel

/-- Whatever candidates the custom trimmers offer, what the minimiser leaves is accepted. -/
theorem accepted_of_minimizes {delLenLimit : Nat} {muts : List (CustomMutator Data)}
    {inData final : List Byte} (minimizes : Minimizes keep delLenLimit muts inData final)
    (start : keep inData = true) : keep final = true := by
  apply @Halts.invariant _ _ _ _ _ (fun s => keep s.inData = true)
    (fun last => keep _ = true) _ _ minimizes start
  · intro cur following holds jumps
    have accepts := minimizeStep_accepts holds delLenLimit
    rwa [jumps] at accepts
  · intro cur last holds exits
    have accepts := minimizeStep_accepts holds delLenLimit
    rwa [exits] at accepts

/-- A trimmer of two candidates, the first of which is rejected: `Ay` and `A1AyB`. -/
def twoCandidates : CustomMutator Nat where
  data := 0
  trimHooks := some
    { initTrim := fun data _ => (2, data)
      trim := fun data => (if data = 0 then [65, 121] else [65, 49, 65, 121, 66], data + 1)
      postTrim := fun data _ => (data, data) }
  postProcess := none
  fuzzSend := none

theorem trimmed_sample_accepted :
    Minimizes keepsOrder 1 [twoCandidates] sampleInput [65, 49, 65, 121, 66] ∧
      keepsOrder [65, 49, 65, 121, 66] = true := by
  have minimizes : Minimizes keepsOrder 1 [twoCandidates] sampleInput [65, 49, 65, 121, 66] :=
    ⟨5, by decide +kernel⟩
  exact ⟨minimizes, accepted_of_minimizes minimizes (by decide)⟩

end AflPlusPlus.Tmin
