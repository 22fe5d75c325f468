/-
The fixed-width operators of `afl_mutate`.

The library has a copy of its own of the operators that change a byte or a word in
place.  It takes words apart and puts them together byte by byte.  The draws are
those of the havoc operators.
-/

import AflPlusPlus.DetPatterns
import AflPlusPlus.HavocMutations

namespace AflPlusPlus.Library

open Machine Function BitVec
open Machine.LaneWord
open Havoc

/-- `EXTRACT16` and `EXTRACT32` -/
def extractWord (w : Nat) (s : Buffer) (o : Nat) : BitVec (8 * w) :=
  forDown w (fun k ret => ret <<< 8 ||| (s (o + k)).setWidth (8 * w)) 0

/-- `INSERT16` and `INSERT32` -/
def insertWord (w : Nat) (d : Buffer) (o : Nat) (x : BitVec (8 * w)) : Buffer :=
  (forUpto w (fun k (st : Buffer × BitVec (8 * w)) =>
    (update st.1 (o + k) (st.2.setWidth 8), st.2 >>> 8)) (d, x)).1

def pokeWord (w : Nat) (text : Text Byte) (pos : Nat)
    (f : BitVec (8 * w) → BitVec (8 * w)) : Text Byte :=
  if text.len < w then text
  else
    let place := randBelow (text.len - (w - 1)) pos
    { text with
      cell := insertWord w text.cell place (f (extractWord w text.cell place)) }

def pokeByte (text : Text Byte) (off : Nat) (f : Byte → Byte) : Text Byte :=
  let place := randBelow text.len off
  { text with cell := update text.cell place (f (text.cell place)) }

def mutateFixed (text : Text Byte) : Mutation → Option (Text Byte)
  | .flipBit bit off => pokeByte text off (· ^^^ (1#8 <<< randBelow 8 bit))
  | .interesting8 item off => pokeByte text off (fun _ =>
    AflPlusPlus.interesting8.getD (randBelow AflPlusPlus.interesting8.length item) 0)
  | .interesting16 item pos => pokeWord 2 text pos (fun _ =>
    AflPlusPlus.interesting16.getD (randBelow AflPlusPlus.interesting16.length item) 0)
  | .interesting16Be item pos => pokeWord 2 text pos (fun _ => swap16
      (AflPlusPlus.interesting16.getD (randBelow AflPlusPlus.interesting16.length item) 0))
  | .interesting32 item pos => pokeWord 4 text pos (fun _ =>
    AflPlusPlus.interesting32.getD (randBelow AflPlusPlus.interesting32.length item) 0)
  | .interesting32Be item pos => pokeWord 4 text pos (fun _ => swap32
      (AflPlusPlus.interesting32.getD (randBelow AflPlusPlus.interesting32.length item) 0))
  | .arith8Sub item off => pokeByte text off (· - arithItem 8 item)
  | .arith8 item off => pokeByte text off (· + arithItem 8 item)
  | .arith16Sub pos item => pokeWord 2 text pos (· - arithItem 16 item)
  | .arith16BeSub pos item => pokeWord 2 text pos (fun x => swap16 (swap16 x - arithItem 16 item))
  | .arith16 pos item => pokeWord 2 text pos (· + arithItem 16 item)
  | .arith16Be pos item => pokeWord 2 text pos (fun x => swap16 (swap16 x + arithItem 16 item))
  | .arith32Sub pos item => pokeWord 4 text pos (· - arithItem 32 item)
  | .arith32BeSub pos item => pokeWord 4 text pos (fun x => swap32 (swap32 x - arithItem 32 item))
  | .arith32 pos item => pokeWord 4 text pos (· + arithItem 32 item)
  -- the operand is added inside of both swaps
  | .arith32Be pos item => pokeWord 4 text pos (fun x => swap32 (swap32 (x + arithItem 32 item)))
  | .rand8 pos item => pokeByte text pos (· ^^^ BitVec.ofNat 8 (1 + randBelow 255 item))
  | .byteAdd off => pokeByte text off (· + 1#8)
  | .byteSub off => pokeByte text off (· - 1#8)
  | .flip8 off => pokeByte text off (· ^^^ 0xff#8)
  | _ => none

private theorem laneAt_push {w : Nat} (word : BitVec w) (byte : Byte) {k : Nat}
    (inside : 8 * k + 8 ≤ w) :
    laneAt 8 (word <<< 8 ||| byte.setWidth w) k =
      if k = 0 then byte else laneAt 8 word (k - 1) := by
  apply eq_of_getLsbD_eq
  intro bit below
  rw [getLsbD_laneAt, getLsbD_or, getLsbD_shiftLeft, getLsbD_setWidth]
  split
  · rename_i first
    subst first
    simp [below, show bit < w by omega]
  · have beyond : byte.getLsbD (8 * k + bit) = false := getLsbD_of_ge _ _ (by omega)
    rw [getLsbD_laneAt, beyond, show 8 * k + bit - 8 = 8 * (k - 1) + bit by omega]
    simp [below, show 8 * k + bit < w by omega, show ¬ 8 * k + bit < 8 by omega]

variable (w : Nat)

private theorem extractWord_eq (s : Buffer) (o : Nat) : extractWord w s o = load w s o := by
  have pushed : ∀ bound (ret : BitVec (8 * w)), bound ≤ w →
      (∀ k, bound + k < w → laneAt 8 ret k = s (o + (bound + k))) →
      forDown bound (fun k (ret : BitVec (8 * w)) =>
        ret <<< 8 ||| (s (o + k)).setWidth (8 * w)) ret =
        load w s o := by
    intro bound
    induction bound with
    | zero =>
      intro ret _ lanes
      apply eq_of_laneAt_eq
      intro k within
      rw [forDown_zero, laneAt_load _ _ _ _ within, lanes k (by omega), Nat.zero_add]
    | succ bound ih =>
      intro ret fits lanes
      refine ih _ (by omega) (fun k within => ?_)
      rw [laneAt_push _ _ (by omega)]
      split
      · rename_i first
        rw [first, Nat.add_zero]
      · rw [lanes (k - 1) (by omega), show bound + 1 + (k - 1) = bound + k by omega]
  exact pushed _ 0 (Nat.le_refl _) (fun k within => by omega)

private theorem insertWord_eq (d : Buffer) (o : Nat) (x : BitVec (8 * w)) :
    insertWord w d o x = store w d o x := by
  have written := forUpto_invariant w (fun k (st : Buffer × BitVec (8 * w)) =>
      (update st.1 (o + k) (st.2.setWidth 8), st.2 >>> 8))
    (fun n st => st.2 = x >>> (8 * n) ∧ ∀ addr, st.1 addr =
      if o ≤ addr ∧ addr < o + n then laneAt 8 x (addr - o) else d addr)
    (d, x) ⟨rfl, fun addr => (if_neg (by omega)).symm⟩ ?_
  · funext addr
    exact written.2 _
  · rintro k _ ⟨_, _⟩ ⟨shifted, pre⟩
    dsimp only at shifted pre ⊢
    subst shifted
    refine ⟨by rw [← shiftRight_add, Nat.mul_succ], fun addr => ?_⟩
    rw [update_apply, pre]
    split
    · rename_i here
      rw [if_pos (by omega), here, Nat.add_sub_cancel_left]
      apply eq_of_toNat_eq
      rw [toNat_laneAt, toNat_setWidth, toNat_ushiftRight, Nat.shiftRight_eq_div_pow]
    · exact if_congr (by omega) rfl rfl

theorem pokeWord_eq (text : Text Byte) (pos : Nat) (f : BitVec (8 * w) → BitVec (8 * w)) :
    pokeWord w text pos f = (Havoc.pokeWord w text pos f).text := by
  unfold pokeWord Havoc.pokeWord
  split
  · rfl
  · dsimp only
    rw [extractWord_eq, insertWord_eq]
    rfl

structure Operand where
  width : Nat
  pos : Nat
  swap : BitVec (8 * width) → BitVec (8 * width)
  delta : BitVec (8 * width)

def operand : Mutation → Option Operand
  | .arith8Sub item off => some ⟨1, off, id, -arithItem 8 item⟩
  | .arith8 item off => some ⟨1, off, id, arithItem 8 item⟩
  | .arith16Sub pos item => some ⟨2, pos, id, -arithItem 16 item⟩
  | .arith16BeSub pos item => some ⟨2, pos, swap16, -arithItem 16 item⟩
  | .arith16 pos item => some ⟨2, pos, id, arithItem 16 item⟩
  | .arith16Be pos item => some ⟨2, pos, swap16, arithItem 16 item⟩
  | .arith32Sub pos item => some ⟨4, pos, id, -arithItem 32 item⟩
  | .arith32BeSub pos item => some ⟨4, pos, swap32, -arithItem 32 item⟩
  | .arith32 pos item => some ⟨4, pos, id, arithItem 32 item⟩
  | .arith32Be pos item => some ⟨4, pos, swap32, arithItem 32 item⟩
  | _ => none

/-- The value in the byte order of the operator changes by the operand. -/
def Operand.Adds (op : Operand) (text post : Text Byte) : Prop :=
  op.width ≤ text.len →
    op.swap (load op.width post.cell (randBelow (text.len - (op.width - 1)) op.pos)) =
      op.swap (load op.width text.cell (randBelow (text.len - (op.width - 1)) op.pos)) + op.delta

structure Matches (text : Text Byte) (mutation : Mutation) : Prop where
  same : ∀ post, mutateFixed text mutation = some post → post = (mutate text mutation).text
  adds : ∀ post, mutateFixed text mutation = some post → ∀ op, operand mutation = some op →
    op.Adds text post

private theorem pokeWord_adds {w : Nat} {swap : BitVec (8 * w) → BitVec (8 * w)}
    (twice : ∀ x, swap (swap x) = x) (text : Text Byte) (pos : Nat) (delta : BitVec (8 * w)) :
    Operand.Adds ⟨w, pos, swap, delta⟩ text
      (Havoc.pokeWord w text pos (fun x => swap (swap x + delta))).text := by
  intro fits
  unfold Havoc.pokeWord
  rw [if_neg (Nat.not_lt.2 fits)]
  dsimp only [inPlace]
  rw [load_store, twice]

private theorem load_one (buf : Buffer) (place : Nat) : load 1 buf place = buf place := by
  have lane := laneAt_load 1 buf place 0 (by decide)
  rwa [laneAt_first] at lane

private theorem pokeByte_adds {text : Text Byte} {off : Nat} {delta : Byte} :
    Operand.Adds ⟨1, off, id, delta⟩ text (Havoc.pokeByte text off (· + delta)).text := by
  intro _
  dsimp only [Havoc.pokeByte, inPlace, id]
  rw [load_one, load_one, Nat.sub_zero, update_self]

variable {text : Text Byte} {mutation : Mutation}

private theorem havoc_adds {op : Operand} (known : operand mutation = some op) :
    op.Adds text (mutate text mutation).text := by
  cases mutation <;> cases known <;> simp only [mutate, sub_eq_add_neg]
  case arith8Sub => exact pokeByte_adds
  case arith8 => exact pokeByte_adds
  case arith16Sub => exact @pokeWord_adds 2 id (fun _ => rfl) _ _ _
  case arith16BeSub => exact @pokeWord_adds 2 _ reverses16.swap_swap _ _ _
  case arith16 => exact @pokeWord_adds 2 id (fun _ => rfl) _ _ _
  case arith16Be => exact @pokeWord_adds 2 _ reverses16.swap_swap _ _ _
  case arith32Sub => exact @pokeWord_adds 4 id (fun _ => rfl) _ _ _
  case arith32BeSub => exact @pokeWord_adds 4 _ reverses32.swap_swap _ _ _
  case arith32 => exact @pokeWord_adds 4 id (fun _ => rfl) _ _ _
  case arith32Be => exact @pokeWord_adds 4 _ reverses32.swap_swap _ _ _

private theorem mutateFixed_eq {post : Text Byte} (fixed : mutateFixed text mutation = some post)
    (other : ∀ pos item, mutation ≠ .arith32Be pos item) : post = (mutate text mutation).text := by
  cases mutation <;> cases fixed
  case arith32Be pos item => exact absurd rfl (other _ _)
  all_goals first
    | rfl
    | exact pokeWord_eq _ _ _ _

/-- One is added to the bytes `FF FF FF FF`, which gives zero in both byte orders. -/
def OrderFree (text : Text Byte) (pos item : Nat) : Prop :=
  randBelow arithMax item = 0 ∧ ∀ k, k < 4 → text.cell (randBelow (text.len - 3) pos + k) = 0xff#8

private theorem toNat_swap32_top (x : BitVec 32) : (swap32 x).toNat / 2 ^ 24 = x.toNat % 2 ^ 8 := by
  have lane := congrArg BitVec.toNat (reverses32 x 3 (by decide))
  rw [toNat_laneAt, toNat_laneAt] at lane
  omega

/-- The first bytes of the sums differ unless a carry runs through all of the word. -/
private theorem carry_runs {x y n : Nat} (small : n < arithMax) (inside : y < 2 ^ 32)
    (turned : y / 2 ^ 24 = x % 2 ^ 8)
    (sums : (y + (1 + n)) % 2 ^ 32 / 2 ^ 24 = (x + (1 + n)) % 2 ^ 32 % 2 ^ 8) :
    n = 0 ∧ y % 2 ^ 24 = 2 ^ 24 - 1 := by
  unfold arithMax at small
  obtain ⟨top, low, rfl, below⟩ : ∃ top low, y = 2 ^ 24 * top + low ∧ low < 2 ^ 24 :=
    ⟨y / 2 ^ 24, y % 2 ^ 24, by omega, by omega⟩
  have first : (x + (1 + n)) % 2 ^ 32 % 2 ^ 8 = (top + (1 + n)) % 2 ^ 8 := by omega
  have short : top < 2 ^ 8 := by omega
  rw [first] at sums
  clear first turned
  have carry : (low + (1 + n)) / 2 ^ 24 = 0 ∨ (low + (1 + n)) / 2 ^ 24 = 1 := by
    clear sums
    omega
  have last : (2 ^ 24 * top + low + (1 + n)) % 2 ^ 32 / 2 ^ 24 =
      (top + (low + (1 + n)) / 2 ^ 24) % 2 ^ 8 := by
    clear sums carry
    omega
  rw [last] at sums
  clear last
  rcases carry with none | one
  · rw [none] at sums
    omega
  · rw [one] at sums
    have first : n = 0 := by clear one; omega
    omega

private theorem swap32_add_iff (x : BitVec 32) {n : Nat} (small : n < arithMax) :
    swap32 (swap32 x + BitVec.ofNat 32 (1 + n)) = x + BitVec.ofNat 32 (1 + n) ↔
      n = 0 ∧ x = 0xffffffff#32 := by
  constructor
  · intro same
    have back : swap32 (x + BitVec.ofNat 32 (1 + n)) = swap32 x + BitVec.ofNat 32 (1 + n) :=
      (congrArg swap32 same.symm).trans (reverses32.swap_swap _)
    have turned := toNat_swap32_top (swap32 x)
    have sums := toNat_swap32_top (x + BitVec.ofNat 32 (1 + n))
    have sumsBack := toNat_swap32_top (swap32 x + BitVec.ofNat 32 (1 + n))
    have fits : (1 + n) % 2 ^ 32 = 1 + n := by unfold arithMax at small; omega
    rw [reverses32.swap_swap] at turned
    rw [back, toNat_add, toNat_add, toNat_ofNat, fits] at sums
    rw [same, toNat_add, toNat_add, toNat_ofNat, fits] at sumsBack
    obtain ⟨one, full⟩ := carry_runs small (swap32 x).isLt (toNat_swap32_top x) sums
    obtain ⟨-, fullBack⟩ := carry_runs small x.isLt turned sumsBack
    exact ⟨one, BitVec.eq_of_toNat_eq (by rw [toNat_ofNat]; omega)⟩
  · rintro ⟨rfl, rfl⟩
    decide

theorem orderFree_iff (text : Text Byte) (pos item : Nat) :
    OrderFree text pos item ↔
      let x : BitVec 32 := load 4 text.cell (randBelow (text.len - 3) pos)
      swap32 (swap32 x + arithItem 32 item) = x + arithItem 32 item := by
  have small : randBelow arithMax item < arithMax :=
    Nat.lt_of_le_of_lt (randBelow_le _ _) (by decide)
  dsimp only
  rw [arithItem, swap32_add_iff _ small]
  refine and_congr_right fun _ => ⟨fun bytes => ?_, fun word k inside => ?_⟩
  · refine @eq_of_laneAt_eq 8 4 _ _ fun k inside => ?_
    rw [laneAt_load _ _ _ _ inside, bytes _ inside]
    revert k
    decide
  · rw [← laneAt_load 4 text.cell _ _ inside]
    refine (congrArg (laneAt 8 · k) word).trans ?_
    revert k
    decide

private theorem arith32Be_eq {pos item : Nat} (free : 4 ≤ text.len → OrderFree text pos item) :
    pokeWord 4 text pos (fun x => swap32 (swap32 (x + arithItem 32 item))) =
      (mutate text (.arith32Be pos item)).text := by
  rw [pokeWord_eq]
  simp only [mutate, Havoc.pokeWord]
  split
  · rfl
  · rename_i fits
    rw [reverses32.swap_swap, ← (orderFree_iff _ _ _).1 (free (Nat.not_lt.1 fits))]

private theorem OrderFree.of_adds {pos item : Nat} (fits : 4 ≤ text.len)
    (adds : Operand.Adds ⟨4, pos, swap32, arithItem 32 item⟩ text
      (pokeWord 4 text pos (fun x => swap32 (swap32 (x + arithItem 32 item))))) :
    OrderFree text pos item := by
  have sum := adds fits
  rw [pokeWord_eq, Havoc.pokeWord, if_neg (Nat.not_lt.2 fits)] at sum
  dsimp only [inPlace] at sum
  rw [load_store, reverses32.swap_swap] at sum
  exact (orderFree_iff _ _ _).2 ((congrArg _ sum.symm).trans (reverses32.swap_swap _))

/-- `MUT_ARITH32BE` of the library adds in the wrong byte order, which shows on every word but
one. -/
theorem library_matches_iff (text : Text Byte) (mutation : Mutation) :
    Matches text mutation ↔
      ∀ pos item, mutation = .arith32Be pos item → 4 ≤ text.len → OrderFree text pos item := by
  constructor
  · rintro held pos item rfl fits
    exact .of_adds fits (held.adds _ rfl _ rfl)
  · intro free
    have same : ∀ post, mutateFixed text mutation = some post →
        post = (mutate text mutation).text := by
      intro post fixed
      by_cases other : ∀ pos item, mutation ≠ .arith32Be pos item
      · exact mutateFixed_eq fixed other
      · push Not at other
        obtain ⟨pos, item, rfl⟩ := other
        cases fixed
        exact arith32Be_eq (free _ _ rfl)
    refine ⟨same, fun post fixed op known => ?_⟩
    rw [same _ fixed]
    exact havoc_adds known

/-- Adding one to the big-endian word `00 00 00 00`: the library writes `01 00 00 00`. -/
theorem library_adds_little_endian :
    (mutateFixed ⟨4, fun _ => 0⟩ (.arith32Be 0 0)).map (fun text => text.cell 0) = some 1 ∧
      (mutate ⟨4, fun _ => 0⟩ (.arith32Be 0 0)).text.cell 0 = 0 ∧
      ¬ Matches ⟨4, fun _ => 0⟩ (.arith32Be 0 0) := by
  refine ⟨by decide, by decide, fun held => ?_⟩
  have same := held.same _ rfl
  exact absurd (congrArg (fun text => text.cell 0) same) (by decide)

end AflPlusPlus.Library
