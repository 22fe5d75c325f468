/-
Test-case minimisation, `minimize` in `afl-tmin.c`.

The custom trimmers come first.  Blocks are then blanked once.  A pass deletes blocks of
halving length, replaces whole symbols and then single bytes; passes repeat while one of
these changed the data.

A point is a label of the function or the head of one of its loops.
-/

import AflPlusPlus.Machine.LabelRun
import AflPlusPlus.TminTarget

namespace AflPlusPlus.Tmin

open Machine

/-- What `tmin_run_target` answers about a candidate. -/
abbrev Verdict : Type := List Byte → Bool

def zeroChar : Byte := 48

/-- `memset(tmp_buf + pos, '0', len)` -/
def blankBlock (data : List Byte) (pos len : Nat) : List Byte :=
  data.take pos ++ (List.replicate len zeroChar ++ data.drop (pos + len))

def deleteBlock (data : List Byte) (delPos delLen : Nat) : List Byte :=
  data.take delPos ++ data.drop (delPos + delLen)

def replaceSymbol (data : List Byte) (symbol : Byte) : List Byte :=
  data.map (fun byte => if byte = symbol then zeroChar else byte)

structure Progress where
  inData : List Byte
  changedAny : Bool
  deriving DecidableEq

def symbolStep (keep : Verdict) (alphaMap : Byte → Nat) (i : Nat) (pass : Progress) : Progress :=
  let symbol := BitVec.ofNat 8 i
  if symbol = zeroChar ∨ alphaMap symbol = 0 then pass
  else
    let tmpBuf := replaceSymbol pass.inData symbol
    if keep tmpBuf then ⟨tmpBuf, true⟩ else pass

def minimizeAlphabet (keep : Verdict) (pass : Progress) : Progress :=
  forUpto 256 (symbolStep keep (fun symbol => pass.inData.count symbol)) pass

structure CharacterPass extends Progress where
  tmpBuf : List Byte

def characterStep (keep : Verdict) (i : Nat) (pass : CharacterPass) : CharacterPass :=
  let orig := pass.tmpBuf.getD i zeroChar
  if orig = zeroChar then pass
  else
    let tmpBuf := pass.tmpBuf.set i zeroChar
    if keep tmpBuf then
      { inData := pass.inData.set i zeroChar, changedAny := true, tmpBuf := tmpBuf }
    else { pass with tmpBuf := tmpBuf.set i orig }

def minimizeCharacters (keep : Verdict) (pass : Progress) : Progress :=
  (forUpto pass.inData.length (characterStep keep)
    { inData := pass.inData, changedAny := pass.changedAny, tmpBuf := pass.inData }).toProgress

/-- `while (cur_step < max_steps)` -/
structure Trimming (Data : Type) where
  hooks : TrimHooks Data
  data : Data
  maxSteps : Int
  curStep : Int
  trimmedSuccessfully : Bool
  rest : List (CustomMutator Data)

inductive Point (Data : Type) where
  | customTrim (muts : List (CustomMutator Data)) (customTrimmed : Bool)
  | trimLoop (trimming : Trimming Data)
  | normalizeBlock (setLen setPos : Nat)
  | nextPass
  | nextDelBlksize (delLen : Nat)
  | removeBlock (delLen delPos : Nat) (prevDel : Bool)

structure Minimizing (Data : Type) extends Progress where
  curPass : Nat
  point : Point Data

variable {Data : Type}

/-- `next_pow2(in_len / TMIN_SET_STEPS)`, at least `TMIN_SET_MIN_SIZE`. -/
def setLen (inLen : Nat) : Nat :=
  max 4 ((nextPow2 (BitVec.ofNat 64 (inLen / 128))).setWidth 32).toNat

/-- `next_pow2(in_len / TRIM_START_STEPS)` -/
def startDelLen (inLen : Nat) : Nat :=
  ((nextPow2 (BitVec.ofNat 64 (inLen / 16))).setWidth 32).toNat

def Minimizing.jump (s : Minimizing Data) (point : Point Data) :
    Checked (Jump (Minimizing Data) (List Byte)) :=
  .ok (.goto { s with point := point })

/-- `LIST_FOREACH(&afl->custom_mutator_list, …)` and the exit behind it -/
def customStep (s : Minimizing Data) (customTrimmed : Bool) :
    List (CustomMutator Data) → Checked (Jump (Minimizing Data) (List Byte))
  | [] =>
    if s.inData.length ≤ 1 ∨ customTrimmed then .ok (.exit s.inData)
    else s.jump (.normalizeBlock (setLen s.inData.length) 0)
  | el :: rest =>
    match el.trimHooks with
    | none => s.jump (.customTrim rest customTrimmed)
    | some hooks =>
      let (maxSteps, data) := hooks.initTrim el.data s.inData
      if maxSteps < 0 then s.jump (.customTrim rest true)
      else
        s.jump (.trimLoop
          { hooks := hooks, data := data, maxSteps := maxSteps, curStep := 0,
            trimmedSuccessfully := false, rest := rest })

def trimStep (keep : Verdict) (s : Minimizing Data) (trimming : Trimming Data) :
    Checked (Jump (Minimizing Data) (List Byte)) :=
  if trimming.curStep < trimming.maxSteps then
    let (trimmed, data) := trimming.hooks.trim trimming.data
    -- the empty test case counts as an unsuccessful trim and is not run
    if trimmed.length = 0 ∨ keep trimmed = false then
      let (curStep, data) := trimming.hooks.postTrim data false
      s.jump (.trimLoop { trimming with data := data, curStep := curStep })
    else
      let (curStep, data) := trimming.hooks.postTrim data true
      .ok (.goto { s with
        inData := trimmed
        point := .trimLoop
          { trimming with data := data, curStep := curStep, trimmedSuccessfully := true } })
  else if trimming.trimmedSuccessfully then .ok (.exit s.inData)
  else s.jump (.customTrim trimming.rest true)

/-- Stage 0.  A block of `'0'` only is left alone. -/
def normalizeStep (keep : Verdict) (s : Minimizing Data) (setLen setPos : Nat) :
    Checked (Jump (Minimizing Data) (List Byte)) :=
  if setPos < s.inData.length then
    let useLen := min setLen (s.inData.length - setPos)
    let tmpBuf := blankBlock s.inData setPos useLen
    let next := Point.normalizeBlock setLen (setPos + setLen)
    if ((s.inData.drop setPos).take useLen).all (· = zeroChar) then s.jump next
    else if keep tmpBuf then .ok (.goto { s with inData := tmpBuf, point := next })
    else s.jump next
  else s.jump .nextPass

/-- The block is the one before it, which was not deleted, and does not end the data. -/
def skipsBlock (data : List Byte) (delLen delPos : Nat) (prevDel : Bool) : Bool :=
  !prevDel && decide (data.length - delPos - delLen ≠ 0) &&
    decide ((data.drop (delPos - delLen)).take delLen = (data.drop delPos).take delLen)

def blocksRemoved (keep : Verdict) (delLenLimit : Nat) (s : Minimizing Data) (delLen : Nat) :
    Checked (Jump (Minimizing Data) (List Byte)) :=
  if delLenLimit < delLen ∧ 1 ≤ s.inData.length then s.jump (.nextDelBlksize (delLen / 2))
  else if 1 < s.curPass ∧ s.changedAny = false then .ok (.exit s.inData)
  else
    let pass := minimizeCharacters keep (minimizeAlphabet keep s.toProgress)
    if pass.changedAny then
      .ok (.goto { s with toProgress := pass, point := .nextPass })
    else .ok (.exit pass.inData)

def removeStep (keep : Verdict) (delLenLimit : Nat) (s : Minimizing Data)
    (delLen delPos : Nat) (prevDel : Bool) : Checked (Jump (Minimizing Data) (List Byte)) :=
  if delPos < s.inData.length then
    if skipsBlock s.inData delLen delPos prevDel then
      s.jump (.removeBlock delLen (delPos + delLen) prevDel)
    else
      let tmpBuf := deleteBlock s.inData delPos delLen
      if keep tmpBuf then
        .ok (.goto { s with
          inData := tmpBuf, changedAny := true, point := .removeBlock delLen delPos true })
      else s.jump (.removeBlock delLen (delPos + delLen) false)
  else blocksRemoved keep delLenLimit s delLen

def minimizeStep (keep : Verdict) (delLenLimit : Nat) (s : Minimizing Data) :
    Checked (Jump (Minimizing Data) (List Byte)) :=
  match s.point with
  | .customTrim muts customTrimmed => customStep s customTrimmed muts
  | .trimLoop trimming => trimStep keep s trimming
  | .normalizeBlock setLen setPos => normalizeStep keep s setLen setPos
  | .nextPass =>
    .ok (.goto { s with
      curPass := s.curPass + 1, changedAny := false
      point := .nextDelBlksize (startDelLen s.inData.length) })
  | .nextDelBlksize delLen =>
    s.jump (.removeBlock (if delLen = 0 then 1 else delLen) 0 true)
  | .removeBlock delLen delPos prevDel =>
    removeStep keep delLenLimit s delLen delPos prevDel

def Minimizing.start (muts : List (CustomMutator Data)) (inData : List Byte) :
    Minimizing Data :=
  { inData := inData, changedAny := false, curPass := 0, point := .customTrim muts false }

/-- The call comes back and leaves this in `in_data`. -/
def Minimizes (keep : Verdict) (delLenLimit : Nat) (muts : List (CustomMutator Data))
    (inData final : List Byte) : Prop :=
  Halts (minimizeStep keep delLenLimit) (.start muts inData) final

end AflPlusPlus.Tmin
