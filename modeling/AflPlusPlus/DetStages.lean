/-
The deterministic stages of `fuzz_one`.

A candidate that an earlier stage is thought to have produced is passed over.  All bytes
count as effective and no execution abandons the entry; the file is what `out_buf` holds
when it is executed.  Words are little endian.
-/

import AflPlusPlus.Machine.CountedLoop
import AflPlusPlus.Machine.XorWindow

namespace AflPlusPlus

open Machine
open Machine.LaneWord

def arithMax : Nat := 35

def interestingValues8 : List Int := [-128, -1, 0, 1, 16, 32, 64, 100, 127]

def interestingValues16 : List Int :=
  [-32768, -129, 128, 255, 256, 512, 1000, 1024, 4096, 32767]

def interestingValues32 : List Int :=
  [-2147483648, -100663046, -32769, 32768, 65535, 65536, 100663045, 2139095040, 2147483647]

def interesting8 : List (BitVec 8) := interestingValues8.map (BitVec.ofInt 8)

def interesting16 : List (BitVec 16) :=
  (interestingValues8 ++ interestingValues16).map (BitVec.ofInt 16)

def interesting32 : List (BitVec 32) :=
  (interestingValues8 ++ interestingValues16 ++ interestingValues32).map (BitVec.ofInt 32)

def swap16 (x : BitVec 16) : BitVec 16 := (x <<< 8) ||| (x >>> 8)

def swap32 (x : BitVec 32) : BitVec 32 :=
  (x <<< 24) ||| (x >>> 24) ||| ((x <<< 8) &&& 0x00FF0000#32) ||| ((x >>> 8) &&& 0x0000FF00#32)

def shiftOut : Nat → BitVec 32 → Nat → BitVec 32 × Nat
  | 0, xorVal, sh => (xorVal, sh)
  | fuel + 1, xorVal, sh =>
    if xorVal &&& 1 = 0 then shiftOut fuel (xorVal >>> 1) (sh + 1) else (xorVal, sh)

def couldBeBitflip (xorVal : BitVec 32) : Bool :=
  if xorVal = 0 then true
  else
    let (xorVal, sh) := shiftOut 32 xorVal 0
    if xorVal = 1 ∨ xorVal = 3 ∨ xorVal = 15 then true
    else if sh &&& 7 ≠ 0 then false
    else xorVal = 0xff ∨ xorVal = 0xffff ∨ xorVal = 0xffffffff

structure LaneScan where
  diffs : Nat
  ov : BitVec 32
  nv : BitVec 32

def scanLanes (lane count : Nat) (oldVal newVal : BitVec 32) (start : LaneScan) : LaneScan :=
  forUpto count (fun i scan =>
    let a := laneAt lane oldVal i
    let b := laneAt lane newVal i
    if a ≠ b then ⟨scan.diffs + 1, a.setWidth 32, b.setWidth 32⟩ else scan) start

/-- `ov` and `nv` are at most `ARITH_MAX` apart in a type of so many bits. -/
def withinArith (bits : Nat) (ov nv : BitVec 32) : Bool :=
  ((ov - nv).setWidth bits).toNat ≤ arithMax || ((nv - ov).setWidth bits).toNat ≤ arithMax

def swapLow (x : BitVec 32) : BitVec 32 := (swap16 (x.setWidth 16)).setWidth 32

def couldBeArith (oldVal newVal : BitVec 32) (blen : Nat) : Bool :=
  if oldVal = newVal then true
  else
    let bytes := scanLanes 8 blen oldVal newVal ⟨0, 0, 0⟩
    if bytes.diffs = 1 ∧ withinArith 8 bytes.ov bytes.nv then true
    else if blen = 1 then false
    else
      let words := scanLanes 16 (blen / 2) oldVal newVal ⟨0, bytes.ov, bytes.nv⟩
      if words.diffs = 1 ∧ (withinArith 16 words.ov words.nv ∨
            withinArith 16 (swapLow words.ov) (swapLow words.nv)) then true
      else
        blen = 4 ∧ (withinArith 32 oldVal newVal ∨ withinArith 32 (swap32 oldVal) (swap32 newVal))

/-- `oldVal` with a value of `bits` bits written over it at byte `i`. -/
def insertAt {bits : Nat} (mask : BitVec 32) (oldVal : BitVec 32) (i : Nat) (v : BitVec bits) :
    BitVec 32 :=
  (oldVal &&& ~~~(mask <<< (i * 8))) ||| (v.setWidth 32 <<< (i * 8))

def couldBeInterest (oldVal newVal : BitVec 32) (blen : Nat) (checkLe : Bool) : Bool :=
  if oldVal = newVal then true
  else if (List.range blen).any (fun i =>
      interesting8.any (fun v => newVal = insertAt 0xff oldVal i v)) then true
  else if blen = 2 ∧ checkLe = false then false
  else if (List.range (blen - 1)).any (fun i =>
      interesting16.any (fun v =>
        newVal = insertAt 0xffff oldVal i v ||
          2 < blen && newVal = insertAt 0xffff oldVal i (swap16 v))) then true
  else blen = 4 && checkLe && interesting32.any (fun v => newVal = v)

/-- The buffer, the contents that were executed, and those that were passed over
as duplicates. -/
structure DetState where
  outBuf : Buffer
  executed : List Buffer
  skipped : List Buffer

namespace DetState

/-- `common_fuzz_stuff` -/
def exec (s : DetState) : DetState :=
  { s with executed := s.executed ++ [s.outBuf] }

def change (f : Buffer → Buffer) (s : DetState) : DetState :=
  { s with outBuf := f s.outBuf }

def write (w i : Nat) (v : BitVec (8 * w)) (s : DetState) : DetState :=
  s.change (fun buf => store w buf i v)

def attempt (w i : Nat) (v : BitVec (8 * w)) (worthwhile dup : Bool) (s : DetState) : DetState :=
  if worthwhile && !dup then (s.write w i v).exec
  else if worthwhile then
    { s with skipped := s.skipped ++ [store w s.outBuf i v] }
  else s

end DetState

/-- `FLIP_BIT`, with the most significant bit of a byte first -/
def flipBit (b : Nat) (buf : Buffer) : Buffer :=
  Function.update buf (b >>> 3) (buf (b >>> 3) ^^^ (128#8 >>> (b &&& 7)))

def flipBits (count b : Nat) (buf : Buffer) : Buffer :=
  forUpto count (fun k buf => flipBit (b + k) buf) buf

/-- `bitflip 1/1`, `2/1` and `4/1` -/
def flipStage (count len : Nat) (s : DetState) : DetState :=
  forUpto ((len <<< 3) - (count - 1)) (fun stageCur s =>
    (s.change (flipBits count stageCur)).exec.change (flipBits count stageCur)) s

/-- `*(u16 *)(out_buf + i) ^= 0xFFFF`, or with another width -/
def invertAt (w i : Nat) (buf : Buffer) : Buffer :=
  store w buf i (load w buf i ^^^ BitVec.allOnes (8 * w))

/-- `bitflip 8/8`, `16/8` and `32/8` -/
def invertStage (w len : Nat) (s : DetState) : DetState :=
  forUpto (len - (w - 1)) (fun i s =>
    (s.change (invertAt w i)).exec.change (invertAt w i)) s

def arith8 (i : Nat) (orig : BitVec 8) (j : Nat) (s : DetState) : DetState :=
  let attempt := fun (v : BitVec 8) =>
    DetState.attempt 1 i v true (couldBeBitflip ((orig ^^^ v).setWidth 32))
  (attempt (orig - BitVec.ofNat 8 j) (attempt (orig + BitVec.ofNat 8 j) s)).write 1 i orig

/-- Four attempts: little endian up and down, then big endian.  They are worthwhile
if the lower half overflows. -/
def arithWord (w : Nat) (swap : BitVec (8 * w) → BitVec (8 * w))
    (lowLe lowBe : BitVec (8 * w) → Nat) (full i : Nat) (orig : BitVec (8 * w)) (j : Nat)
    (s : DetState) : DetState :=
  let step := BitVec.ofNat (8 * w) j
  let attempt := fun (v : BitVec (8 * w)) (worthwhile : Bool) =>
    DetState.attempt w i v worthwhile (couldBeBitflip ((orig ^^^ v).setWidth 32))
  let s := attempt (orig + step) (full < lowLe orig + j) s
  let s := attempt (orig - step) (lowLe orig < j) s
  let s := attempt (swap (swap orig + step)) (full < lowBe orig + j) s
  let s := attempt (swap (swap orig - step)) (lowBe orig < j) s
  s.write w i orig

def arith16 : Nat → BitVec 16 → Nat → DetState → DetState :=
  arithWord 2 swap16 (fun orig => BitVec.toNat (orig &&& 0xff))
    (fun orig => BitVec.toNat (orig >>> 8)) 0xff

def arith32 : Nat → BitVec 32 → Nat → DetState → DetState :=
  arithWord 4 swap32 (fun orig => BitVec.toNat (orig &&& 0xffff))
    (fun orig => BitVec.toNat (swap32 orig &&& 0xffff)) 0xffff

def arithStage (w len : Nat) (body : Nat → BitVec (8 * w) → Nat → DetState → DetState)
    (s : DetState) : DetState :=
  forUpto (len - (w - 1)) (fun i s =>
    let orig := load w s.outBuf i
    forUpto arithMax (fun j => body i orig (j + 1)) s) s

def interest8 (i : Nat) (orig : BitVec 8) (s : DetState) : DetState :=
  interesting8.foldl (fun s v =>
    (s.attempt 1 i v true (couldBeBitflip ((orig ^^^ v).setWidth 32) ||
        couldBeArith (orig.setWidth 32) (v.setWidth 32) 1)).write 1 i orig) s

/-- Little endian and then big endian; the original comes back behind the last
value. -/
def interestWord (w : Nat) (swap : BitVec (8 * w) → BitVec (8 * w))
    (values : List (BitVec (8 * w))) (i : Nat) (orig : BitVec (8 * w)) (s : DetState) :
    DetState :=
  let dup := fun (v : BitVec (8 * w)) (checkLe : Bool) =>
    couldBeBitflip ((orig ^^^ v).setWidth 32) ||
      couldBeArith (orig.setWidth 32) (v.setWidth 32) w ||
      couldBeInterest (orig.setWidth 32) (v.setWidth 32) w checkLe
  (values.foldl (fun s v =>
    (s.attempt w i v true (dup v false)).attempt w i (swap v)
      (v ≠ swap v) (dup (swap v) true)) s).write w i orig

def interest16 : Nat → BitVec 16 → DetState → DetState := interestWord 2 swap16 interesting16

def interest32 : Nat → BitVec 32 → DetState → DetState := interestWord 4 swap32 interesting32

def interestStage (w len : Nat) (body : Nat → BitVec (8 * w) → DetState → DetState)
    (s : DetState) : DetState :=
  forUpto (len - (w - 1)) (fun i s => body i (load w s.outBuf i) s) s

def bitflips (len : Nat) (s : DetState) : DetState :=
  let s := invertStage 1 len (flipStage 4 len (flipStage 2 len (flipStage 1 len s.exec)))
  if len < 2 then s
  else
    let s := invertStage 2 len s
    if len < 4 then s else invertStage 4 len s

def arithmetics (len : Nat) (s : DetState) : DetState :=
  let s := arithStage 1 len arith8 s
  if len < 2 then s
  else
    let s := arithStage 2 len arith16 s
    if len < 4 then s else arithStage 4 len arith32 s

def interests (noArith : Bool) (len : Nat) (s : DetState) : DetState :=
  let s := interestStage 1 len interest8 s
  if noArith || len < 2 then s
  else
    let s := interestStage 2 len interest16 s
    if len < 4 then s else interestStage 4 len interest32 s

def deterministicPass (noArith : Bool) (len : Nat) (buf : Buffer) : DetState :=
  let flipped := bitflips len ⟨buf, [], []⟩
  interests noArith len (if noArith then flipped else arithmetics len flipped)

end AflPlusPlus
