/-
Which havoc mutations report what they do to the buffer.

Every operator but two either leaves all bytes in their places or moves one block and
reports exactly that.  Rewriting a number by one of another length removes the old
digits unreported, and a custom mutator reports nothing at all.
-/

import AflPlusPlus.HavocMutations

namespace AflPlusPlus.Havoc

open Machine
open FrameShift

/-- Two lists of edits have the same effect on the length and on every position. -/
structure Agree (len : Nat) (performed reported : List (Edit Byte)) : Prop where
  length : lengthAfter len performed = lengthAfter len reported
  places : ∀ place, moveAll performed place = moveAll reported place

theorem Agree.refl (len : Nat) (edits : List (Edit Byte)) : Agree len edits edits :=
  ⟨rfl, fun _ => rfl⟩

/-- A number is rewritten by one with as many characters, and a custom mutator returns
as many bytes as it was given. -/
def KeepsLength (text : Text Byte) : Mutation → Prop
  | .asciiNum off strat small next => ∀ span, numberSpan text off = some span →
      span.2 - span.1 = (numberText text span strat small next).length
  | .custom output => output.len = 0 ∨ output.len = text.len
  | _ => True

/-- Bytes change in place, or one block moves and the report says so. -/
inductive Plain (text : Text Byte) : Step → Prop
  | still (cell : Buffer) : Plain text (inPlace text cell)
  | moved (edit : Edit Byte) (fit : edit.Fits text.len)
      (room : (edit.apply text).len ≤ max maxFile (text.len + 1)) : Plain text (moving text edit)

variable (text : Text Byte)

theorem plain_idle : Plain text (idle text) := Plain.still text.cell

private theorem plain_pokeWord {w : Nat} {text : Text Byte} {pos : Nat}
    {f : BitVec (8 * w) → BitVec (8 * w)} : Plain text (pokeWord w text pos f) := by
  unfold pokeWord
  split
  · exact plain_idle _
  · exact Plain.still _

variable (mutation : Mutation) (block : BlockDraw) (src dest : Nat)

private theorem plain_cloneCopy : Plain text (cloneCopyStep text block src dest) := by
  unfold cloneCopyStep
  split
  · have drawn := randBelow_le text.len dest
    have drawnLen := chooseBlockLen_le block text.len
    refine Plain.moved _ ?_ ?_
    · change randBelow text.len dest ≤ text.len
      omega
    · change text.len + chooseBlockLen _ text.len ≤ _
      omega
  · exact plain_idle _

private theorem plain_cloneFixed (strat item : Nat) :
    Plain text (cloneFixedStep text block dest strat item) := by
  unfold cloneFixedStep
  split
  · have drawn := randBelow_le text.len dest
    have drawnLen := chooseBlockLen_le block havocBlkXl
    refine Plain.moved _ ?_ ?_
    · change randBelow text.len dest ≤ text.len
      omega
    · change text.len + chooseBlockLen _ havocBlkXl ≤ _
      omega
  · exact plain_idle _

private theorem plain_del : Plain text (delStep text block src) := by
  unfold delStep
  split
  · exact plain_idle _
  · have short := (chooseBlockLen_le block (text.len - 1)).2.2 (by omega)
    have drawn := randBelow_le (text.len - chooseBlockLen block (text.len - 1) + 1) src
    refine Plain.moved _ ?_ ?_
    · change randBelow _ src + chooseBlockLen block (text.len - 1) ≤ text.len
      omega
    · change text.len - _ ≤ _
      omega

private theorem plain_delOne : Plain text (delOneStep text src) := by
  unfold delOneStep
  split
  · exact plain_idle _
  · have drawn := randBelow_le (text.len - 1 + 1) src
    refine Plain.moved _ ?_ ?_
    · change randBelow (text.len - 1 + 1) src + 1 ≤ text.len
      omega
    · change text.len - 1 ≤ _
      omega

private theorem plain_insertOne (strat item : Nat) :
    Plain text (insertOneStep text dest strat item) := by
  unfold insertOneStep
  split
  · exact plain_idle _
  · have drawn := randBelow_le text.len dest
    refine Plain.moved _ ?_ ?_
    · change randBelow text.len dest ≤ text.len
      omega
    · change text.len + 1 ≤ _
      omega

private theorem plain_extraInsert (extra : Text Byte) (place : Nat) :
    Plain text (extraInsertStep text extra place) := by
  unfold extraInsertStep
  split
  · exact plain_idle _
  · have drawn := randBelow_le (text.len + 1) place
    refine Plain.moved _ ?_ ?_
    · change randBelow (text.len + 1) place ≤ text.len
      omega
    · change text.len + extra.len ≤ _
      omega

private theorem plain_spliceInsert (target : Text Byte) (block : BlockDraw) (src dest : Nat) :
    Plain text (spliceInsertStep text target block src dest) := by
  unfold spliceInsertStep
  split
  · exact plain_idle _
  · have drawn := randBelow_le (text.len + 1) dest
    have drawnLen := chooseBlockLen_le block target.len
    refine Plain.moved _ ?_ ?_
    · change randBelow (text.len + 1) dest ≤ text.len
      omega
    · change text.len + chooseBlockLen _ target.len ≤ _
      omega

private theorem plain_asciiNum {off strat small next : Nat}
    (keeps : KeepsLength text (.asciiNum off strat small next)) :
    Plain text (asciiNumStep text off strat small next) := by
  unfold asciiNumStep
  split
  · exact plain_idle _
  · rename_i span found
    rw [if_pos (keeps _ found)]
    exact Plain.still _

private theorem plain_custom (output : Text Byte) (keeps : KeepsLength text (.custom output)) :
    Plain text (customStep text output) := by
  unfold customStep
  split
  · exact plain_idle _
  · rename_i some
    rw [if_pos (keeps.resolve_left some)]
    exact Plain.still _

private theorem plain_ite {text : Text Byte} {cond : Prop} [Decidable cond]
    {cell : Buffer} : Plain text (if cond then idle text else inPlace text cell) := by
  split
  · exact plain_idle _
  · exact Plain.still _

theorem mutate_plain (keeps : KeepsLength text mutation) : Plain text (mutate text mutation) := by
  cases mutation with
  | flipBit | interesting8 | arith8Sub | arith8 | rand8 | byteAdd | byteSub | flip8 =>
    exact Plain.still _
  | interesting16 | interesting16Be | interesting32 | interesting32Be =>
    simp only [mutate]
    exact plain_pokeWord
  | arith16Sub | arith16BeSub | arith16 | arith16Be =>
    simp only [mutate]
    exact plain_pokeWord
  | arith32Sub | arith32BeSub | arith32 | arith32Be =>
    simp only [mutate]
    exact plain_pokeWord
  | overwriteCopy block src dest =>
    exact plain_ite
  | overwriteFixed block dest strat item =>
    exact plain_ite
  | switch src dest block | shuffle block off picks | insertAsciiNum len pos val stale =>
    exact plain_ite
  | extraOverwrite extra place | autoExtraOverwrite extra place =>
    exact plain_ite
  | spliceOverwrite target block src dest =>
    exact Plain.still _
  | cloneCopy block src dest => exact plain_cloneCopy _ _ _ _
  | cloneFixed block dest strat item => exact plain_cloneFixed _ _ _ _ _
  | del block src => exact plain_del _ _ _
  | delOne src => exact plain_delOne _ _
  | insertOne dest strat item => exact plain_insertOne _ _ _ _
  | asciiNum off strat small next => exact plain_asciiNum _ keeps
  | extraInsert extra place | autoExtraInsert extra place => exact plain_extraInsert _ _ _
  | spliceInsert target block src dest =>
    exact plain_spliceInsert _ _ _ _ _
  | custom output => exact plain_custom _ _ keeps

theorem Plain.reported_eq {text : Text Byte} {step : Step} (plain : Plain text step) :
    step.reported.map Report.edit = step.performed := by
  cases plain with
  | still cell | moved edit fit room => rfl

private theorem mutate_performed :
    (mutate text mutation).text.len = lengthAfter text.len (mutate text mutation).performed := by
  by_cases keeps : KeepsLength text mutation
  · have plain := mutate_plain _ _ keeps
    generalize mutate text mutation = step at plain
    cases plain with
    | still cell => rfl
    | moved edit fit room => exact runFrom_apply_len _ [edit]
  · cases mutation with
    | asciiNum off strat small next =>
      change (asciiNumStep text off strat small next).text.len =
        lengthAfter text.len (asciiNumStep text off strat small next).performed
      unfold asciiNumStep
      split
      · rfl
      · dsimp only
        split
        · rfl
        · exact runFrom_apply_len _ _
    | custom output =>
      change (customStep text output).text.len =
        lengthAfter text.len (customStep text output).performed
      unfold customStep
      split
      · rfl
      · split
        · rfl
        · change output.len = text.len - text.len + output.len
          omega
    | _ => exact absurd trivial keeps

private theorem asciiNum_disagrees {text : Text Byte} {off strat small next : Nat}
    {span : Nat × Nat}
    (found : numberSpan text off = some span)
    (differs : span.2 - span.1 ≠ (numberText text span strat small next).length) :
    ¬Agree text.len (asciiNumStep text off strat small next).performed
      ((asciiNumStep text off strat small next).reported.map Report.edit) := by
  obtain ⟨start, stop⟩ := span
  have bounds := numberSpan_bounds found
  intro agree
  have lengths := agree.length
  simp only [asciiNumStep, found, if_neg differs] at lengths
  change text.len - (stop - start) + _ = text.len + _ at lengths
  omega

private theorem agree_iff_keepsLength :
    Agree text.len (mutate text mutation).performed
        ((mutate text mutation).reported.map Report.edit) ↔
      KeepsLength text mutation := by
  constructor
  · intro agree
    cases mutation with
    | asciiNum off strat small next =>
      intro span found
      by_contra differs
      exact asciiNum_disagrees found differs agree
    | custom output =>
      by_contra keeps
      simp only [KeepsLength, not_or] at keeps
      have lengths := agree.length
      simp only [mutate, customStep, if_neg keeps.1, if_neg keeps.2] at lengths
      change text.len - text.len + output.len = text.len at lengths
      omega
    | _ => trivial
  · intro keeps
    rw [(mutate_plain _ _ keeps).reported_eq]
    exact Agree.refl _ _

def performedAll : Tracked → List Mutation → List (Edit Byte)
  | _, [] => []
  | s, mutation :: rest =>
    (mutate s.text mutation).performed ++ performedAll (havocStep s mutation) rest

def reportedAll : Tracked → List Mutation → List (Edit Byte)
  | _, [] => []
  | s, mutation :: rest =>
    (mutate s.text mutation).reported.map Report.edit ++ reportedAll (havocStep s mutation) rest

variable {s : Tracked}

private theorem havocStep_inside {mutation : Mutation} (inside : s.Inside)
    (room : max maxFile (s.text.len + 1) < 2 ^ 64)
    (keeps : KeepsLength s.text mutation) :
    (havocStep s mutation).Inside ∧
      (havocStep s mutation).text.len ≤ max maxFile (s.text.len + 1) := by
  have plain := mutate_plain s.text _ keeps
  unfold havocStep
  generalize mutate s.text mutation = step at plain
  cases plain with
  | still cell =>
    refine ⟨inside, ?_⟩
    change s.text.len ≤ _
    omega
  | moved edit fit small =>
    have fitting : Fitting s ⟨edit, true⟩ := by
      refine ⟨fit, ⟨by omega, Nat.lt_of_le_of_lt small room⟩, ?_⟩
      cases edit with
      | insert idx count data => exact fsTrackInsert_ignoring s.relations
      | delete idx count => rfl
    exact ⟨inside.step fitting, small⟩

private theorem havoc_run (inside : s.Inside) (mutations : List Mutation)
    (room : max maxFile s.text.len + mutations.length < 2 ^ 64)
    (keeps : Along havocStep (fun s mutation => KeepsLength s.text mutation) s mutations) :
    (runFrom havocStep s mutations).Inside ∧
      performedAll s mutations = reportedAll s mutations := by
  induction mutations generalizing s with
  | nil => exact ⟨inside, rfl⟩
  | cons mutation rest ih =>
    rw [List.length_cons] at room
    obtain ⟨kept, _⟩ := havocStep_inside inside (by omega) keeps.1
    obtain ⟨final, same⟩ := ih kept (by omega) keeps.2
    refine ⟨final, ?_⟩
    rw [performedAll, reportedAll, same, (mutate_plain s.text _ keeps.1).reported_eq]

private theorem havoc_run_length (s : Tracked) (mutations : List Mutation) :
    (runFrom havocStep s mutations).text.len =
      lengthAfter s.text.len (performedAll s mutations) := by
  induction mutations generalizing s with
  | nil => rfl
  | cons mutation rest ih =>
    rw [performedAll, lengthAfter_append, ← mutate_performed]
    exact ih (havocStep _ _)

/-- A mutation reports what it does exactly when it does not change the length behind
FrameShift's back; and an iteration of such mutations reports edits with the same total
effect as those it makes, and ends with every enabled field within the buffer. -/
theorem havoc_reports_iff_keepsLength (text : Text Byte) (mutation : Mutation) (start : Tracked)
    (mutations : List Mutation) :
    (Agree text.len (mutate text mutation).performed
        ((mutate text mutation).reported.map Report.edit) ↔ KeepsLength text mutation) ∧
    (start.Inside → start.text.len ≤ maxFile → mutations.length < 2 ^ 63 →
      Along havocStep (fun s mutation => KeepsLength s.text mutation) start mutations →
      Agree start.text.len (performedAll start mutations) (reportedAll start mutations) ∧
      (runFrom havocStep start mutations).text.len =
        lengthAfter start.text.len (reportedAll start mutations) ∧
      ∀ rel ∈ (runFrom havocStep start mutations).relations, rel.enabled = true →
        rel.pos + rel.size ≤ (runFrom havocStep start mutations).text.len) := by
  refine ⟨agree_iff_keepsLength _ _, ?_⟩
  intro inside bounded short keeps
  have limit : maxFile < 2 ^ 32 := by decide
  obtain ⟨final, same⟩ := havoc_run inside mutations (by omega) keeps
  refine ⟨?_, ?_, final⟩
  · rw [same]
    exact Agree.refl _ _
  · rw [havoc_run_length, same]

def numberedEntry : Tracked :=
  { text :=
      { len := 8
        cell := fun place => [49#8, 48#8, 65#8, 65#8, 65#8, 65#8, 2#8, 0#8].getD place 0 }
    relations :=
      [{ pos := 6, val := 2, anchor := 0, insert := 2, oldPos := 0, oldVal := 0, oldAnchor := 0,
         oldInsert := 0, size := 2, le := true, enabled := true
         size_le := Nat.le_add_right 2 6 }] }

theorem insert_delete_reported :
    numberedEntry.Inside ∧
      let post := runFrom havocStep numberedEntry [.insertOne 0 0 0, .delOne 3]
      post.text.len = 8 ∧
      ∀ rel ∈ post.relations, rel.enabled = true → rel.pos + rel.size ≤ post.text.len :=
  ⟨by decide, by decide,
    ((havoc_reports_iff_keepsLength numberedEntry.text (.delOne 3) numberedEntry
      [.insertOne 0 0 0, .delOne 3]).2 (by decide) (by decide) (by decide)
        ⟨trivial, trivial, trivial⟩).2.2⟩

/-- Ten becomes nine: the buffer shrinks by a byte, FrameShift is told of one more, and the
two-byte field ends two bytes past the end. -/
theorem shorter_number_misreported :
    numberedEntry.Inside ∧ (havocStep numberedEntry (.asciiNum 0 1 0 0)).text.len = 7 ∧
      lengthAfter numberedEntry.text.len (reportedAll numberedEntry [.asciiNum 0 1 0 0]) = 9 ∧
      (havocStep numberedEntry (.asciiNum 0 1 0 0)).relations.map
        (fun rel => (rel.enabled, rel.pos + rel.size)) = [(true, 9)] := by
  decide +kernel

end AflPlusPlus.Havoc
