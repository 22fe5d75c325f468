/-
Base64 texts, as the comparison stage writes and reads them.

Both directions work on groups, three bytes against four letters.  All lengths are 32 bits
wide, also that of the text, which is longer than what it stands for.
-/

import Mathlib
import AflPlusPlus.Machine.LaneWord

namespace AflPlusPlus.Base64

open Machine Function List

def encodeTable : List Byte :=
  (range' 65 26 ++ range' 97 26 ++ range' 48 10 ++ [43, 47]).map (BitVec.ofNat 8)

/-- From the letter 43 on. -/
def decodeTable : List Nat :=
  [62, 0, 0, 0, 63] ++ range' 52 10 ++ replicate 7 0 ++ range 26 ++ replicate 6 0 ++ range' 26 26

def letter (bits : Nat) : Byte := encodeTable.getD bits 0

def bitsOf (letter : Byte) : Nat := decodeTable.getD (letter.toNat - 43) 0

def padding : Byte := 61

def isLetter (letter : Byte) : Bool :=
  (48 ≤ letter && letter ≤ 57) || (65 ≤ letter && letter ≤ 90) ||
    (97 ≤ letter && letter ≤ 122) || letter == 43 || letter == 47 || letter == padding

def isBase64 (str : Nat → Byte) : Bool := (range 4).all (fun i => isLetter (str i))

/-- The three bytes of a group as one number, with zeros behind the end. -/
def bytesAt (src : Nat → Byte) (srcLen i : Nat) : Nat :=
  let v := (src i).toNat
  let v := if i + 1 < srcLen then v <<< 8 ||| (src (i + 1)).toNat else v <<< 8
  if i + 2 < srcLen then v <<< 8 ||| (src (i + 2)).toNat else v <<< 8

def encodeGroup (src : Nat → Byte) (srcLen i j : Nat) (dst : Nat → Byte) : Nat → Byte :=
  let v := bytesAt src srcLen i
  let dst := update dst j (letter (v >>> 18 &&& 63))
  let dst := update dst (j + 1) (letter (v >>> 12 &&& 63))
  let dst := update dst (j + 2) (if i + 1 < srcLen then letter (v >>> 6 &&& 63) else padding)
  update dst (j + 3) (if i + 2 < srcLen then letter (v &&& 63) else padding)

def encodeGroups (src : Nat → Byte) (srcLen : Nat) (dst : Nat → Byte) : Nat → Nat → Byte
  | 0 => dst
  | g + 1 => encodeGroup src srcLen (3 * g) (4 * g) (encodeGroups src srcLen dst g)

def textLen (srcLen : Nat) : Nat :=
  (srcLen / 3 * 4 + if srcLen % 3 = 0 then 0 else 4) % 2 ^ 32

/-- The text with a zero behind it, and its length. -/
def toBase64 (src dst : Nat → Byte) (srcLen : Nat) : (Nat → Byte) × Nat :=
  let len := textLen srcLen
  (update (encodeGroups src srcLen dst (len / 4)) len 0, len)

/-- The four letters of a group as one number. -/
def lettersAt (src : Nat → Byte) (i : Nat) : Nat :=
  let v := bitsOf (src i)
  let v := v <<< 6 ||| bitsOf (src (i + 1))
  let v := if src (i + 2) = padding then v <<< 6 else v <<< 6 ||| bitsOf (src (i + 2))
  if src (i + 3) = padding then v <<< 6 else v <<< 6 ||| bitsOf (src (i + 3))

def decodeGroup (src : Nat → Byte) (i j : Nat) (s : (Nat → Byte) × Nat) :
    (Nat → Byte) × Nat :=
  let v := lettersAt src i
  let s := (update s.1 j (BitVec.ofNat 8 (v >>> 16)), s.2 + 1)
  let s := if src (i + 2) = padding then s
    else (update s.1 (j + 1) (BitVec.ofNat 8 (v >>> 8)), s.2 + 1)
  if src (i + 3) = padding then s
  else (update s.1 (j + 2) (BitVec.ofNat 8 v), s.2 + 1)

def decodeGroups (src dst : Nat → Byte) : Nat → (Nat → Byte) × Nat
  | 0 => (dst, 0)
  | g + 1 => decodeGroup src (4 * g) (3 * g) (decodeGroups src dst g)

/-- What the text stands for, and its length. -/
def fromBase64 (src dst : Nat → Byte) (dstLen : Nat) : (Nat → Byte) × Nat :=
  decodeGroups src dst ((dstLen / 3) <<< 2 % 2 ^ 32 / 4)

theorem letter_spec (bits : Nat) : bitsOf (letter (bits % 64)) = bits % 64 ∧
    letter (bits % 64) ≠ padding ∧ isLetter (letter (bits % 64)) = true := by
  have table : ∀ bits < 64, bitsOf (letter bits) = bits ∧ letter bits ≠ padding ∧
      isLetter (letter bits) = true := by decide
  exact table _ (Nat.mod_lt _ (by decide))

theorem pack {low : Nat} {v : Nat} {k : Nat} (fits : low < 2 ^ k) :
    v <<< k ||| low = v * 2 ^ k + low := by
  rw [← Nat.shiftLeft_add_eq_or_of_lt fits, Nat.shiftLeft_eq]

variable {src text : Nat → Byte} {n g : Nat}

theorem bytesAt_spec (src : Nat → Byte) (n i : Nat) :
    bytesAt src n i / 65536 = (src i).toNat ∧
    (bytesAt src n i / 256 % 256 = if i + 1 < n then (src (i + 1)).toNat else 0) ∧
    bytesAt src n i % 256 = if i + 2 < n then (src (i + 2)).toNat else 0 := by
  have second := (src (i + 1)).isLt
  have third := (src (i + 2)).isLt
  unfold bytesAt
  simp only [pack second, pack third]
  split <;> split <;> omega

/-- The letters of a group stand at their place in a text. -/
def Written (src text : Nat → Byte) (n g : Nat) : Prop :=
  ∀ k < 4, text (4 * g + k) =
    if 3 * g + k ≤ n then letter (bytesAt src n (3 * g) / 64 ^ (3 - k) % 64) else padding

private theorem encodeGroups_written (dst : Nat → Byte) (groups : Nat) (below : g < groups)
    (inside : 3 * g < n) : Written src (encodeGroups src n dst groups) n g := by
  induction groups with
  | zero => cases below
  | succ groups ih =>
    have bits : ∀ v, v &&& 63 = v % 64 := fun v => Nat.and_two_pow_sub_one_eq_mod v 6
    intro k small
    rcases Nat.lt_succ_iff_lt_or_eq.1 below with earlier | rfl
    · rw [← ih earlier k small, encodeGroups, encodeGroup, update_of_ne (by omega),
        update_of_ne (by omega), update_of_ne (by omega), update_of_ne (by omega)]
    · have one : 3 * g + 1 ≤ n := inside
      interval_cases k <;>
        simp [encodeGroups, encodeGroup, bits, Nat.shiftRight_eq_div_pow, inside.le, one] <;> rfl

variable (written : Written src text n g)

include written

theorem Written.accepted :
    isBase64 (fun k => text (4 * g + k)) = true := by
  refine all_eq_true.2 ?_
  intro k mem
  change isLetter (text _) = true
  rw [written k (mem_range.1 mem)]
  split
  · exact (letter_spec _).2.2
  · decide

theorem Written.ends {k : Nat} (small : k < 4) :
    text (4 * g + k) = padding ↔ ¬3 * g + k ≤ n := by
  rw [written k small]
  split <;> simp [letter_spec, *]

theorem Written.bits (inside : 3 * g < n) :
    lettersAt text (4 * g) = bytesAt src n (3 * g) := by
  have small : ∀ bits, bits % 64 < 2 ^ 6 := fun bits => Nat.mod_lt _ (by decide)
  obtain ⟨first, second, third⟩ := bytesAt_spec src n (3 * g)
  have one : 3 * g + 1 ≤ n := inside
  have start := written 0 (by decide)
  rw [Nat.add_zero, if_pos (by omega)] at start
  unfold lettersAt
  simp only [written.ends, start, written 1, Nat.reduceLT, one, if_true, letter_spec,
    pack (small _)]
  by_cases two : 3 * g + 2 ≤ n
  · by_cases three : 3 * g + 3 ≤ n
    · simp only [written _, Nat.reduceLT, two, three, not_true, if_false, if_true, letter_spec,
        pack (small _)]
      omega
    · rw [if_neg (by omega)] at third
      simp only [written _, Nat.reduceLT, two, three, not_true, not_false_iff, if_false, if_true,
        letter_spec, pack (small _)]
      omega
  · have short : ¬3 * g + 3 ≤ n := by omega
    rw [if_neg (by omega)] at second third
    simp only [two, short, not_false_iff, if_true]
    omega

omit written

/-- The first bytes are decoded and counted. -/
def Decoded (src : Nat → Byte) (len : Nat) (s : (Nat → Byte) × Nat) : Prop :=
  s.2 = len ∧ ∀ k < len, s.1 k = src k

include written in
private theorem decodeGroup_spec (inside : 3 * g < n)
    {s : (Nat → Byte) × Nat} (decoded : Decoded src (3 * g) s) :
    Decoded src (min (3 * g + 3) n) (decodeGroup text (4 * g) (3 * g) s) := by
  obtain ⟨counted, same⟩ := decoded
  obtain ⟨first, second, third⟩ := bytesAt_spec src n (3 * g)
  have byte : ∀ v k, v % 256 = (src k).toNat → BitVec.ofNat 8 v = src k :=
    fun v k equal => BitVec.eq_of_toNat_eq ((BitVec.toNat_ofNat v 8).trans equal)
  unfold decodeGroup
  simp only [written.bits inside, written.ends, Nat.reduceLT]
  constructor
  · split <;> split <;> dsimp only <;> omega
  intro k below
  have places : k < 3 * g ∨ k = 3 * g ∨ k = 3 * g + 1 ∨ k = 3 * g + 2 := by omega
  rcases places with pre | rfl | rfl | rfl
  · split <;> split <;> simp (disch := omega) [update_of_ne, same _ pre]
  · have found := byte (bytesAt src n (3 * g) >>> 16) (3 * g) (by omega)
    split <;> split <;> simp [found]
  · have two : 3 * g + 1 < n := by omega
    rw [if_pos two] at second
    have found := byte (bytesAt src n (3 * g) >>> 8) (3 * g + 1) (by omega)
    simp only [show 3 * g + 2 ≤ n from two, not_true, if_false]
    split <;> simp [found]
  · have three : 3 * g + 2 < n := by omega
    rw [if_pos three] at third
    simp only [show 3 * g + 3 ≤ n from three, not_true, if_false, update_self, byte _ _ third]

private theorem decodeGroups_spec (written : ∀ g, 3 * g < n → Written src text n g)
    (dst : Nat → Byte)
    (groups : Nat) (within : 3 * groups < n + 3) :
    Decoded src (min (3 * groups) n) (decodeGroups text dst groups) := by
  induction groups with
  | zero => exact ⟨(Nat.zero_min n).symm, fun k below => by omega⟩
  | succ groups ih =>
    have decoded := ih (by omega)
    rw [Nat.min_eq_left (by omega)] at decoded
    exact decodeGroup_spec (written _ (by omega)) (by omega) decoded

/-- The first `n` bytes of `src` are encoded, and all groups of the text decoded.  `text` and
`plain` are the two buffers before. -/
def RoundTrip (src text plain : Nat → Byte) (n : Nat) : Prop :=
  let encoded := toBase64 src text (n % 2 ^ 32)
  encoded.2 = 4 * ((n + 2) / 3) ∧
    (∀ g < encoded.2 / 4, isBase64 (fun k => encoded.1 (4 * g + k)) = true) ∧
    Decoded src n (fromBase64 encoded.1 plain (encoded.2 / 4 * 3))

private theorem toBase64_spec (src text : Nat → Byte) (short : n < 3221225470) :
    (toBase64 src text n).2 = 4 * ((n + 2) / 3) ∧
      ∀ g, 3 * g < n → Written src (toBase64 src text n).1 n g := by
  have len : textLen n = 4 * ((n + 2) / 3) := by
    unfold textLen
    split <;> omega
  refine ⟨len, ?_⟩
  intro g inside k small
  rw [← encodeGroups_written _ (textLen n / 4) (by omega) inside k small]
  exact update_of_ne (by omega) _ _

/-- The round trip works as long as the length of the text fits into 32 bits. -/
theorem round_trip_iff (src text plain : Nat → Byte) (n : Nat) :
    RoundTrip src text plain n ↔ n < 3221225470 := by
  constructor
  · intro trip
    have fits : textLen (n % 2 ^ 32) < 2 ^ 32 := Nat.mod_lt _ (by decide)
    have same : textLen (n % 2 ^ 32) = 4 * ((n + 2) / 3) := trip.1
    omega
  · intro short
    obtain ⟨len, written⟩ := toBase64_spec src text short
    unfold RoundTrip
    rw [Nat.mod_eq_of_lt (by omega)]
    refine ⟨len, fun g below => (written g (by omega)).accepted, ?_⟩
    have decoded := decodeGroups_spec written plain ((n + 2) / 3) (by omega)
    rw [Nat.min_eq_right (by omega)] at decoded
    dsimp only [fromBase64]
    rw [show ((toBase64 src text n).2 / 4 * 3 / 3) <<< 2 % 2 ^ 32 / 4 = (n + 2) / 3 by omega]
    exact decoded

/-- For 3 GiB the length of the text is 0. -/
theorem text_length_wraps : ¬RoundTrip (fun _ => 0) (fun _ => 0) (fun _ => 0) 3221225472 := by
  intro trip
  have same : textLen (3221225472 % 2 ^ 32) = 4 * ((3221225472 + 2) / 3) := trip.1
  exact absurd same (by decide)

end AflPlusPlus.Base64
