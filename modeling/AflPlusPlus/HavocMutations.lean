/-
The operators of the havoc loop in `fuzz_one`.

A mutation carries the raw random numbers it draws; `rand_below` cuts them to size.  It
names the block moves it made and the edits it reported to FrameShift.  A `break` and a
`goto retry_havoc_step` change nothing; what is drawn next is the next mutation.
-/

import AflPlusPlus.DetStages
import AflPlusPlus.FrameShiftTracking
import AflPlusPlus.Common

namespace AflPlusPlus.Havoc

open Machine
open Machine.LaneWord
open FrameShift

def havocBlkSmall : Nat := 32

def havocBlkMedium : Nat := 128

def havocBlkLarge : Nat := 1500

def havocBlkXl : Nat := 32768

structure BlockDraw where
  rlim : Nat
  pick : Nat
  large : Nat
  offset : Nat

def BlockDraw.bounds (draw : BlockDraw) : Nat × Nat :=
  match randBelow draw.rlim draw.pick with
  | 0 => (1, havocBlkSmall)
  | 1 => (havocBlkSmall, havocBlkMedium)
  | _ =>
    if randBelow 10 draw.large ≠ 0 then (havocBlkMedium, havocBlkLarge)
    else (havocBlkLarge, havocBlkXl)

def chooseBlockLen (draw : BlockDraw) (limit : Nat) : Nat :=
  let minValue := if limit ≤ draw.bounds.1 then 1 else draw.bounds.1
  minValue + randBelow (min draw.bounds.2 limit - minValue + 1) draw.offset

variable (draw : BlockDraw)

private theorem BlockDraw.bounds_le :
    0 < draw.bounds.1 ∧ draw.bounds.1 ≤ draw.bounds.2 ∧ draw.bounds.2 ≤ havocBlkXl := by
  unfold bounds
  split
  · decide
  · decide
  · split <;> decide

theorem chooseBlockLen_le (limit : Nat) :
    1 ≤ chooseBlockLen draw limit ∧ chooseBlockLen draw limit ≤ havocBlkXl ∧
      (1 ≤ limit → chooseBlockLen draw limit ≤ limit) := by
  obtain ⟨_, _, _⟩ := draw.bounds_le
  unfold chooseBlockLen
  dsimp only
  by_cases small : limit ≤ draw.bounds.1
  · rw [if_pos small]
    have drawn := randBelow_le (min draw.bounds.2 limit - 1 + 1) draw.offset
    omega
  · rw [if_neg small]
    have drawn := randBelow_le (min draw.bounds.2 limit - draw.bounds.1 + 1) draw.offset
    omega

def isDigit (byte : Byte) : Bool := 48 ≤ byte.toNat && byte.toNat ≤ 57

/-- `while (place < end && keep(out_buf[place])) ++place`, over `fuel` bytes -/
def skipWhile (keep : Byte → Bool) (cell : Buffer) : Nat → Nat → Nat
  | 0, place => place
  | fuel + 1, place =>
    if keep (cell place) then skipWhile keep cell fuel (place + 1) else place

private theorem skipWhile_bounds (keep : Byte → Bool) (cell : Buffer) (fuel place : Nat) :
    place ≤ skipWhile keep cell fuel place ∧ skipWhile keep cell fuel place ≤ place + fuel := by
  induction fuel generalizing place with
  | zero => exact ⟨Nat.le_refl _, Nat.le_refl _⟩
  | succ fuel ih =>
    rw [skipWhile]
    split
    · have further := ih (place + 1)
      omega
    · omega

/-- The first digit from `off` on, or else from the start of the buffer up to it. -/
def numberStart (text : Text Byte) (off : Nat) : Option Nat :=
  let first := skipWhile (fun byte => !isDigit byte) text.cell (text.len - off) off
  if first ≠ text.len then some first
  else
    let wrapped := skipWhile (fun byte => !isDigit byte) text.cell off 0
    if wrapped = off then none else some wrapped

def numberEnd (text : Text Byte) (start : Nat) : Nat :=
  skipWhile isDigit text.cell (text.len - (start + 1)) (start + 1)

def numberValue (text : Text Byte) (start stop : Nat) : BitVec 64 :=
  let digit : Nat → BitVec 64 := fun place => (text.cell place).setWidth 64 - 48#64
  let val := forUpto (stop - (start + 1)) (fun i val => val * 10#64 + digit (start + 1 + i))
    (digit start)
  if start ≠ 0 ∧ text.cell (start - 1) = 45#8 then -val else val

def renumber (strat small : Nat) (next : Nat) (val : BitVec 64) : BitVec 64 :=
  match strat with
  | 0 => val + 1#64
  | 1 => val - 1#64
  | 2 => val * 2#64
  | 3 => val.sdiv 2#64
  | 4 =>
    if val ≠ 0#64 ∧ val.toNat < 0x19999999 then BitVec.ofNat 64 (next % (val.toNat * 10))
    else BitVec.ofNat 64 small
  | 5 => val + BitVec.ofNat 64 small
  | 6 => val - BitVec.ofNat 64 small
  | _ => ~~~val

def decimal (n : Nat) : List Byte :=
  (Nat.toDigits 10 n).map (fun digit => BitVec.ofNat 8 digit.toNat)

/-- What `snprintf` of a signed number leaves in a buffer of twenty characters. -/
def renderS64 (val : BitVec 64) : List Byte :=
  let text := if val.toInt < 0 then 45#8 :: decimal val.toInt.natAbs else decimal val.toNat
  text.take 19

def numberSpan (text : Text Byte) (off : Nat) : Option (Nat × Nat) :=
  if text.len < 4 then none
  else (numberStart text (randBelow text.len off)).map (fun start => (start, numberEnd text start))

theorem numberSpan_bounds {text : Text Byte} {off start stop : Nat}
    (found : numberSpan text off = some (start, stop)) : start < stop ∧ stop ≤ text.len := by
  unfold numberSpan at found
  split at found
  · cases found
  · obtain ⟨_, atFirst, same⟩ := Option.map_eq_some_iff.mp found
    cases same
    have drawn := randBelow_le text.len off
    have beyond := skipWhile_bounds isDigit text.cell (text.len - (start + 1)) (start + 1)
    have inside : start < text.len := by
      unfold numberStart at atFirst
      have forward := skipWhile_bounds (fun byte => !isDigit byte) text.cell
        (text.len - randBelow text.len off) (randBelow text.len off)
      have wrapped := skipWhile_bounds (fun byte => !isDigit byte) text.cell
        (randBelow text.len off) 0
      dsimp only at atFirst
      split at atFirst
      · cases atFirst
        omega
      · split at atFirst
        · cases atFirst
        · cases atFirst
          omega
    unfold numberEnd
    omega

def numberText (text : Text Byte) (span : Nat × Nat) (strat small next : Nat) : List Byte :=
  renderS64 (renumber (randBelow 8 strat) (randBelow 256 small) next
    (numberValue text span.1 span.2))

structure Step where
  text : Text Byte
  performed : List (Edit Byte)
  reported : List Report

def idle (text : Text Byte) : Step := ⟨text, [], []⟩

def inPlace (text : Text Byte) (cell : Buffer) : Step := ⟨{ text with cell := cell }, [], []⟩

def moving (text : Text Byte) (edit : Edit Byte) : Step :=
  ⟨edit.apply text, [edit], [⟨edit, true⟩]⟩

def pokeByte (text : Text Byte) (off : Nat) (f : Byte → Byte) : Step :=
  let place := randBelow text.len off
  inPlace text (Function.update text.cell place (f (text.cell place)))

/-- A word that fits the buffer is read, changed and written back. -/
def pokeWord (w : Nat) (text : Text Byte) (pos : Nat)
    (f : BitVec (8 * w) → BitVec (8 * w)) : Step :=
  if text.len < w then idle text
  else
    let place := randBelow (text.len - (w - 1)) pos
    inPlace text (store w text.cell place (f (load w text.cell place)))

def overwrite (text : Text Byte) (dest len : Nat) (data : Nat → Byte) : Step :=
  inPlace text (fun place =>
    if dest ≤ place ∧ place < dest + len then data (place - dest) else text.cell place)

def arithItem (w raw : Nat) : BitVec w := BitVec.ofNat w (1 + randBelow arithMax raw)

/-- The byte of a constant block: a random one, or the one before the block. -/
def blockItem (text : Text Byte) (dest strat item : Nat) : Byte :=
  if randBelow 2 strat ≠ 0 then BitVec.ofNat 8 (randBelow 256 item)
  else text.cell (if dest ≠ 0 then dest - 1 else 0)

def shuffled (cell : Buffer) (off len : Nat) (picks : Nat → Nat) : Buffer :=
  forDown (len - 1) (fun k cell =>
    let i := off + (k + 1)
    let j := off + randBelow (k + 2) (picks (k + 1))
    Function.update (Function.update cell i (cell j)) j (cell i)) cell

inductive Mutation where
  | flipBit (bit off : Nat)
  | interesting8 (item off : Nat)
  | interesting16 (item pos : Nat)
  | interesting16Be (item pos : Nat)
  | interesting32 (item pos : Nat)
  | interesting32Be (item pos : Nat)
  | arith8Sub (item off : Nat)
  | arith8 (item off : Nat)
  | arith16Sub (pos item : Nat)
  | arith16BeSub (pos item : Nat)
  | arith16 (pos item : Nat)
  | arith16Be (pos item : Nat)
  | arith32Sub (pos item : Nat)
  | arith32BeSub (pos item : Nat)
  | arith32 (pos item : Nat)
  | arith32Be (pos item : Nat)
  | rand8 (pos item : Nat)
  | cloneCopy (block : BlockDraw) (src dest : Nat)
  | cloneFixed (block : BlockDraw) (dest strat item : Nat)
  | overwriteCopy (block : BlockDraw) (src dest : Nat)
  | overwriteFixed (block : BlockDraw) (dest strat item : Nat)
  | byteAdd (off : Nat)
  | byteSub (off : Nat)
  | flip8 (off : Nat)
  | switch (src dest : Nat) (block : BlockDraw)
  | del (block : BlockDraw) (src : Nat)
  | shuffle (block : BlockDraw) (off : Nat) (picks : Nat → Nat)
  | delOne (src : Nat)
  | insertOne (dest strat item : Nat)
  | asciiNum (off strat small next : Nat)
  | insertAsciiNum (len pos val : Nat) (stale : Nat → Byte)
  | extraOverwrite (extra : Text Byte) (place : Nat)
  | extraInsert (extra : Text Byte) (place : Nat)
  | autoExtraOverwrite (extra : Text Byte) (place : Nat)
  | autoExtraInsert (extra : Text Byte) (place : Nat)
  | spliceOverwrite (target : Text Byte) (block : BlockDraw) (src dest : Nat)
  | spliceInsert (target : Text Byte) (block : BlockDraw) (src dest : Nat)
  /-- `afl_custom_havoc_mutation` returned this buffer -/
  | custom (output : Text Byte)

def cloneCopyStep (text : Text Byte) (block : BlockDraw) (src dest : Nat) : Step :=
  if text.len + havocBlkXl < maxFile then
    let cloneLen := chooseBlockLen block text.len
    let cloneFrom := randBelow (text.len - cloneLen + 1) src
    moving text (.insert (randBelow text.len dest) cloneLen (fun i => text.cell (cloneFrom + i)))
  else idle text

def cloneFixedStep (text : Text Byte) (block : BlockDraw) (dest strat item : Nat) : Step :=
  if text.len + havocBlkXl < maxFile then
    let cloneTo := randBelow text.len dest
    moving text (.insert cloneTo (chooseBlockLen block havocBlkXl)
      (fun _ => blockItem text cloneTo strat item))
  else idle text

def overwriteCopyStep (text : Text Byte) (block : BlockDraw) (src dest : Nat) : Step :=
  if text.len < 2 then idle text
  else
    let copyLen := chooseBlockLen block (text.len - 1)
    let copyFrom := randBelow (text.len - copyLen + 1) src
    overwrite text (randBelow (text.len - copyLen + 1) dest) copyLen
      (fun i => text.cell (copyFrom + i))

def overwriteFixedStep (text : Text Byte) (block : BlockDraw) (dest strat item : Nat) : Step :=
  if text.len < 2 then idle text
  else
    let copyLen := chooseBlockLen block (text.len - 1)
    let copyTo := randBelow (text.len - copyLen + 1) dest
    overwrite text copyTo copyLen (fun _ => blockItem text copyTo strat item)

def switchStep (text : Text Byte) (src dest : Nat) (block : BlockDraw) : Step :=
  if text.len < 4 then idle text
  else
    let switchFrom := randBelow text.len src
    let switchTo := randBelow text.len dest
    let apart := if switchFrom < switchTo then switchTo - switchFrom else switchFrom - switchTo
    let toEnd := text.len - (if switchFrom < switchTo then switchTo else switchFrom)
    let switchLen := chooseBlockLen block (min apart toEnd)
    let first := overwrite text switchFrom switchLen (fun i => text.cell (switchTo + i))
    overwrite first.text switchTo switchLen (fun i => text.cell (switchFrom + i))

def delStep (text : Text Byte) (block : BlockDraw) (src : Nat) : Step :=
  if text.len < 2 then idle text
  else
    let delLen := chooseBlockLen block (text.len - 1)
    moving text (.delete (randBelow (text.len - delLen + 1) src) delLen)

def shuffleStep (text : Text Byte) (block : BlockDraw) (off : Nat) (picks : Nat → Nat) : Step :=
  if text.len < 4 then idle text
  else
    let len := chooseBlockLen block (text.len - 1)
    inPlace text (shuffled text.cell (randBelow (text.len - len + 1) off) len picks)

def delOneStep (text : Text Byte) (src : Nat) : Step :=
  if text.len < 2 then idle text
  else moving text (.delete (randBelow (text.len - 1 + 1) src) 1)

def insertOneStep (text : Text Byte) (dest strat item : Nat) : Step :=
  if text.len < 2 then idle text
  else
    let cloneTo := randBelow text.len dest
    moving text (.insert cloneTo 1 (fun _ => blockItem text cloneTo strat item))

/-- A number of the same length is overwritten.  One of another length replaces the
old text, but only the insertion is reported. -/
def asciiNumStep (text : Text Byte) (off strat small next : Nat) : Step :=
  match numberSpan text off with
  | none => idle text
  | some span =>
    let buf := numberText text span strat small next
    let data := fun i => buf.getD i 0
    let oldLen := span.2 - span.1
    let newLen := buf.length
    if oldLen = newLen then overwrite text span.1 newLen data
    else
      let edits := [.delete span.1 oldLen, .insert span.1 newLen data]
      ⟨runFrom Edit.apply text edits, edits, [⟨.insert span.1 newLen data, true⟩]⟩

def insertAsciiNumStep (text : Text Byte) (len pos val : Nat) (stale : Nat → Byte) : Step :=
  let count := 1 + randBelow 8 len
  let place := randBelow text.len pos
  if text.len < place + count then idle text
  else
    let digits := (decimal val).take 19
    overwrite text place count (fun i => if i < digits.length then digits.getD i 0 else
        if i = digits.length then 0 else stale i)

/-- `MUT_EXTRA_OVERWRITE` and `MUT_AUTO_EXTRA_OVERWRITE` -/
def extraOverwriteStep (text extra : Text Byte) (place : Nat) : Step :=
  if text.len < extra.len then idle text
  else overwrite text (randBelow (text.len - extra.len + 1) place) extra.len extra.cell

/-- `MUT_EXTRA_INSERT` and `MUT_AUTO_EXTRA_INSERT` -/
def extraInsertStep (text extra : Text Byte) (place : Nat) : Step :=
  if maxFile ≤ text.len + extra.len then idle text
  else moving text (.insert (randBelow (text.len + 1) place) extra.len extra.cell)

def spliceOverwriteStep (text target : Text Byte) (block : BlockDraw) (src dest : Nat) : Step :=
  let copyLen := min (chooseBlockLen block (target.len - 1)) text.len
  let copyFrom := randBelow (target.len - copyLen + 1) src
  overwrite text (randBelow (text.len - copyLen + 1) dest) copyLen
    (fun i => target.cell (copyFrom + i))

def spliceInsertStep (text target : Text Byte) (block : BlockDraw) (src dest : Nat) : Step :=
  if maxFile ≤ text.len + havocBlkXl then idle text
  else
    let cloneLen := chooseBlockLen block target.len
    let cloneFrom := randBelow (target.len - cloneLen + 1) src
    moving text (.insert (randBelow (text.len + 1) dest) cloneLen
      (fun i => target.cell (cloneFrom + i)))

def customStep (text output : Text Byte) : Step :=
  if output.len = 0 then idle text
  else if output.len = text.len then inPlace text output.cell
  else
    ⟨output, [.delete 0 text.len, .insert 0 output.len output.cell], []⟩

def mutate (text : Text Byte) : Mutation → Step
  | .flipBit bit off => pokeByte text off (· ^^^ (1#8 <<< randBelow 8 bit))
  | .interesting8 item off =>
    pokeByte text off (fun _ => AflPlusPlus.interesting8.getD
      (randBelow AflPlusPlus.interesting8.length item) 0)
  | .interesting16 item pos =>
    pokeWord 2 text pos (fun _ => AflPlusPlus.interesting16.getD
      (randBelow AflPlusPlus.interesting16.length item) 0)
  | .interesting16Be item pos =>
    pokeWord 2 text pos (fun _ => swap16 (AflPlusPlus.interesting16.getD
      (randBelow AflPlusPlus.interesting16.length item) 0))
  | .interesting32 item pos =>
    pokeWord 4 text pos (fun _ => AflPlusPlus.interesting32.getD
      (randBelow AflPlusPlus.interesting32.length item) 0)
  | .interesting32Be item pos =>
    pokeWord 4 text pos (fun _ => swap32 (AflPlusPlus.interesting32.getD
      (randBelow AflPlusPlus.interesting32.length item) 0))
  | .arith8Sub item off => pokeByte text off (· - arithItem 8 item)
  | .arith8 item off => pokeByte text off (· + arithItem 8 item)
  | .arith16Sub pos item => pokeWord 2 text pos (· - arithItem 16 item)
  | .arith16BeSub pos item => pokeWord 2 text pos (fun x => swap16 (swap16 x - arithItem 16 item))
  | .arith16 pos item => pokeWord 2 text pos (· + arithItem 16 item)
  | .arith16Be pos item => pokeWord 2 text pos (fun x => swap16 (swap16 x + arithItem 16 item))
  | .arith32Sub pos item => pokeWord 4 text pos (· - arithItem 32 item)
  | .arith32BeSub pos item => pokeWord 4 text pos (fun x => swap32 (swap32 x - arithItem 32 item))
  | .arith32 pos item => pokeWord 4 text pos (· + arithItem 32 item)
  | .arith32Be pos item => pokeWord 4 text pos (fun x => swap32 (swap32 x + arithItem 32 item))
  | .rand8 pos item => pokeByte text pos (· ^^^ BitVec.ofNat 8 (1 + randBelow 255 item))
  | .cloneCopy block src dest => cloneCopyStep text block src dest
  | .cloneFixed block dest strat item => cloneFixedStep text block dest strat item
  | .overwriteCopy block src dest => overwriteCopyStep text block src dest
  | .overwriteFixed block dest strat item => overwriteFixedStep text block dest strat item
  | .byteAdd off => pokeByte text off (· + 1#8)
  | .byteSub off => pokeByte text off (· - 1#8)
  | .flip8 off => pokeByte text off (· ^^^ 0xff#8)
  | .switch src dest block => switchStep text src dest block
  | .del block src => delStep text block src
  | .shuffle block off picks => shuffleStep text block off picks
  | .delOne src => delOneStep text src
  | .insertOne dest strat item => insertOneStep text dest strat item
  | .asciiNum off strat small next => asciiNumStep text off strat small next
  | .insertAsciiNum len pos val stale => insertAsciiNumStep text len pos val stale
  | .extraOverwrite extra place => extraOverwriteStep text extra place
  | .extraInsert extra place => extraInsertStep text extra place
  | .autoExtraOverwrite extra place => extraOverwriteStep text extra place
  | .autoExtraInsert extra place => extraInsertStep text extra place
  | .spliceOverwrite target block src dest => spliceOverwriteStep text target block src dest
  | .spliceInsert target block src dest => spliceInsertStep text target block src dest
  | .custom output => customStep text output

def reportAll (rels : Meta) (reports : List Report) : Meta :=
  runFrom (fun rels report => (report.outcome rels).2) rels reports

def havocStep (s : Tracked) (mutation : Mutation) : Tracked :=
  let step := mutate s.text mutation
  { text := step.text, relations := reportAll s.relations step.reported }

end AflPlusPlus.Havoc
