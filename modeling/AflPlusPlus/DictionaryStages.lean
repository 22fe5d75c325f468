/-
The deterministic dictionary stages of `fuzz_one`, without FrameShift.

The overwriting stages write token after token over one place and undo only the last, the
longest one.  The inserting stages build the head of each case byte by byte in a scratch
buffer, at the end of the loop body, which a skipped offset does not reach.
-/

import Mathlib
import AflPlusPlus.Common
import AflPlusPlus.Machine.CountedLoop

namespace AflPlusPlus

open Machine

abbrev Token := List Byte

structure DictCase where
  offset : Nat
  token : Token
  content : Buffer

/-- An entry and what decides how far its stages get.  `effective`: `skip_eff_map`.
`timeout`: `is_det_timeout` at an offset.  `abandons`: what `common_fuzz_stuff` returns
after these cases.  `passes`: the random test, by the offset and the tokens still left. -/
structure DictCall where
  len : Nat
  inBuf : Buffer
  effective : Nat → Bool
  timeout : Nat → Bool
  abandons : List DictCase → Bool
  passes : Nat → Nat → Bool

/-- `buf` is `out_buf` or `ex_tmp`; `ended` means that the stage has been left. -/
structure DictState where
  buf : Buffer
  lastLen : Nat
  cases : List DictCase
  ended : Bool

/-- `memcpy(buf + i, src, count)` -/
def copyAt (buf : Buffer) (i count : Nat) (src : Nat → Byte) : Buffer :=
  fun addr => if i ≤ addr ∧ addr < i + count then src (addr - i) else buf addr

def Token.byte (tok : Token) (k : Nat) : Byte := List.getD tok k 0

namespace DictCall

variable (call : DictCall)

def execute (i : Nat) (tok : Token) (s : DictState) : DictState :=
  let cases := s.cases ++ [⟨i, tok, s.buf⟩]
  { s with cases := cases, ended := call.abandons cases }

/-- The loop over the offsets; `place` is where the map is read. -/
def forOffsets (bound : Nat) (place : Nat → Nat) (body : Nat → DictState → DictState) :
    DictState → DictState :=
  forUpto bound fun i s =>
    if s.ended || !call.effective (place i) then s
    else if call.timeout i then { s with ended := true }
    else body i s

def overwriteTokens (i : Nat) : List Token → DictState → DictState
  | [], s => s
  | tok :: rest, s =>
    overwriteTokens i rest <|
      if s.ended || call.passes i rest.length || decide (call.len - i < tok.length) ||
          (List.range tok.length).all (fun k => tok.byte k == s.buf (i + k)) then s
      else call.execute i tok { s with
        buf := copyAt s.buf i tok.length tok.byte
        lastLen := tok.length }

def overwriteAt (toks : List Token) (i : Nat) (s : DictState) : DictState :=
  let written := call.overwriteTokens i toks { s with lastLen := 0 }
  if written.ended then written
  else { written with buf := copyAt written.buf i written.lastLen fun k => call.inBuf (i + k) }

/-- `user extras (over)`, for the first `bound` offsets. -/
def userExtrasOver (extras : List Token) (bound : Nat) : DictState :=
  call.forOffsets bound id (call.overwriteAt extras) ⟨call.inBuf, 0, [], false⟩

/-- `auto extras (over)`: only the leading tokens, and no random test. -/
def autoExtrasOver (aExtras : List Token) (bound : Nat) : DictState :=
  { call with passes := fun _ _ => false }.userExtrasOver (aExtras.take useAutoExtras) bound

def insertToken (i : Nat) (s : DictState) (tok : Token) : DictState :=
  if s.ended || decide (maxFile < call.len + tok.length) then s
  else call.execute i tok { s with
    buf := copyAt (copyAt s.buf i tok.length tok.byte) (i + tok.length) (call.len - i)
      fun k => call.inBuf (i + k) }

def insertAt (toks : List Token) (i : Nat) (s : DictState) : DictState :=
  let inserted := toks.foldl (call.insertToken i) s
  if inserted.ended then inserted
  else { inserted with buf := Function.update inserted.buf i (call.inBuf i) }

/-- `user extras (insert)`, and `auto extras (insert)` with the other list; `scratch` is
what `ex_tmp` holds before. -/
def extrasInsert (toks : List Token) (scratch : Buffer) : DictState :=
  call.forOffsets (call.len + 1) (· % call.len) (call.insertAt toks) ⟨scratch, 0, [], false⟩

def Overwritten (case : DictCase) : Prop :=
  case.content = copyAt call.inBuf case.offset case.token.length case.token.byte

def Inserted (case : DictCase) : Prop :=
  ∀ addr, addr < call.len + case.token.length → case.content addr =
    if addr < case.offset then call.inBuf addr
    else if addr < case.offset + case.token.length then case.token.byte (addr - case.offset)
    else call.inBuf (addr - case.token.length)

/-- The last offset before `i` that was not skipped. -/
def lastShown : Nat → Option Nat
  | 0 => none
  | i + 1 => if call.effective (i % call.len) then some i else lastShown i

def lastToken (toks : List Token) : Option Token :=
  (toks.filter fun tok => decide (call.len + tok.length ≤ maxFile)).getLast?

/-- What the scratch buffer holds at `k` when the stage comes to the offset `i`: the bytes of
the last insertion before it, or what stood there before the stage. -/
def standing (toks : List Token) (scratch : Buffer) (i k : Nat) : Byte :=
  match call.lastShown i, call.lastToken toks with
  | some place, some tok =>
    if k < place + tok.length then tok.byte (k - place) else call.inBuf (k - tok.length)
  | _, _ => scratch k

end DictCall

variable {call : DictCall} {i : Nat} {s : DictState} {toks : List Token}

theorem DictCall.forOffsets_keeps {bound : Nat} {place : Nat → Nat}
    {body : Nat → DictState → DictState} (holds : Nat → DictState → Prop) (start : holds 0 s)
    (leaves : ∀ i s, i < bound → holds i s → s.ended || !call.effective (place i) → holds (i + 1) s)
    (stops : ∀ i s, holds i s → holds (i + 1) { s with ended := true })
    (advance : ∀ i s, i < bound → holds i s → s.ended = false →
      call.effective (place i) = true → holds (i + 1) (body i s)) :
    holds bound (call.forOffsets bound place body s) := by
  apply forUpto_invariant _ _ _ _ start
  intro i below cur pre
  split
  · rename_i idle
    exact leaves i _ below pre idle
  · rename_i busy
    split
    · exact stops i _ pre
    · rw [Bool.or_eq_true, not_or, Bool.not_eq_true, Bool.not_eq_true', Bool.not_eq_false] at busy
      exact advance i _ below pre busy.1 busy.2

structure DictCall.Covered (call : DictCall) (i : Nat) (s : DictState) : Prop where
  outside : ∀ addr, ¬(i ≤ addr ∧ addr < i + s.lastLen) → s.buf addr = call.inBuf addr
  cases : ∀ case ∈ s.cases, call.Overwritten case

theorem DictCall.Covered.write (covered : call.Covered i s) {tok : Token}
    (longer : s.lastLen ≤ tok.length) :
    call.Covered i (call.execute i tok { s with
      buf := copyAt s.buf i tok.length tok.byte
      lastLen := tok.length }) where
  outside addr beyond := by
    change ¬(i ≤ addr ∧ addr < i + tok.length) at beyond
    exact (if_neg beyond).trans (covered.outside _ (by omega))
  cases case mem := by
    rcases List.mem_append.1 mem with pre | last
    · exact covered.cases _ pre
    · rw [List.mem_singleton.1 last]
      funext addr
      dsimp only [copyAt]
      split
      · rfl
      · exact covered.outside _ (by omega)

private theorem DictCall.Covered.overwriteTokens (covered : call.Covered i s)
    (sorted : toks.Pairwise (·.length ≤ ·.length))
    (longer : ∀ tok ∈ toks, s.lastLen ≤ tok.length) :
    call.Covered i (call.overwriteTokens i toks s) := by
  induction toks generalizing s with
  | nil => exact covered
  | cons tok rest ih =>
    obtain ⟨first, later⟩ := List.pairwise_cons.1 sorted
    unfold DictCall.overwriteTokens
    split
    · exact ih covered later fun other mem => longer _ (List.mem_cons_of_mem _ mem)
    · exact ih (covered.write (longer _ List.mem_cons_self)) later first

/-- Every case is right, and after a whole offset the input is back. -/
def DictCall.Overwrites (call : DictCall) (s : DictState) : Prop :=
  (∀ case ∈ s.cases, call.Overwritten case) ∧ (s.ended = false → s.buf = call.inBuf)

private theorem userExtrasOver_overwrites (call : DictCall)
    (sorted : toks.Pairwise (·.length ≤ ·.length))
    (bound : Nat) : call.Overwrites (call.userExtrasOver toks bound) := by
  apply DictCall.forOffsets_keeps (fun _ s => call.Overwrites s)
  · exact ⟨nofun, fun _ => rfl⟩
  · exact fun _ _ _ pre _ => pre
  · exact fun _ _ pre => ⟨pre.1, nofun⟩
  · intro i s _ pre running _
    have start : call.Covered i { s with lastLen := 0 } :=
      ⟨fun addr _ => congrFun (pre.2 running) _, pre.1⟩
    have written := start.overwriteTokens sorted (fun _ _ => Nat.zero_le _)
    unfold DictCall.overwriteAt
    dsimp only
    split
    · rename_i stopped
      refine ⟨written.cases, fun never => ?_⟩
      rw [stopped] at never
      cases never
    · refine ⟨written.cases, fun _ => funext fun addr => ?_⟩
      dsimp only [copyAt]
      split
      · rename_i inside
        rw [Nat.add_sub_cancel' inside.1]
      · rename_i beyond
        exact written.outside _ beyond

/-- With tokens sorted by length both overwriting stages execute what they mean to, and
leave the input behind at every offset. -/
theorem extras_overwrite_in_place (call : DictCall) (extras aExtras : List Token) (bound : Nat)
    (sorted : extras.Pairwise (·.length ≤ ·.length))
    (autoSorted : (aExtras.take useAutoExtras).Pairwise (·.length ≤ ·.length)) :
    call.Overwrites (call.userExtrasOver extras bound) ∧
      call.Overwrites (call.autoExtrasOver aExtras bound) :=
  ⟨userExtrasOver_overwrites call sorted bound,
    userExtrasOver_overwrites { call with passes := fun _ _ => false } autoSorted bound⟩

def twoBytes : DictCall where
  len := 2
  inBuf := fun _ => 65
  effective := fun i => i != 0
  timeout := fun _ => false
  abandons := fun _ => false
  passes := fun _ _ => false

/-- Tokens of one and of two bytes, at offsets one of which is skipped. -/
theorem extras_overwrite_two_lengths :
    let call := { twoBytes with len := 4 }
    let toks : List Token := [[84], [65, 84], [84, 85]]
    toks.Pairwise (·.length ≤ ·.length) ∧
      (call.userExtrasOver toks 4).cases.map (fun case => (case.offset, case.token)) =
        [(1, [84]), (1, [65, 84]), (1, [84, 85]), (2, [84]), (2, [65, 84]), (2, [84, 85]),
          (3, [84])] ∧
      call.Overwrites (call.userExtrasOver toks 4) ∧ call.Overwrites (call.autoExtrasOver toks 4) :=
  ⟨by decide, by decide, extras_overwrite_in_place { twoBytes with len := 4 }
    [[84], [65, 84], [84, 85]] [[84], [65, 84], [84, 85]] 4 (by decide) (by decide)⟩

/-- The byte in front of the later insertions: of the input, unless the offset was skipped. -/
def DictCall.headByte (call : DictCall) (toks : List Token) (scratch : Buffer) (k : Nat) : Byte :=
  if call.effective (k % call.len) then call.inBuf k else call.standing toks scratch k k

section Inserting

variable {scratch : Buffer}

/-- From the offset on a case is right, and before it it has the bytes of the head. -/
structure DictCall.Built (call : DictCall) (toks : List Token) (scratch : Buffer)
    (case : DictCase) : Prop where
  inside : case.offset ≤ call.len
  behind : ∀ addr, case.offset ≤ addr → addr < call.len + case.token.length →
    case.content addr =
      if addr < case.offset + case.token.length then case.token.byte (addr - case.offset)
      else call.inBuf (addr - case.token.length)
  before : ∀ k, k < case.offset → case.content k = call.headByte toks scratch k

structure DictCall.Copied (call : DictCall) (toks : List Token) (scratch : Buffer) (i : Nat)
    (s : DictState) : Prop where
  head : s.ended = false → ∀ k, k < i → k < call.len → s.buf k = call.headByte toks scratch k
  cases : ∀ case ∈ s.cases, call.Built toks scratch case

/-- `ex_tmp` with a token and the tail behind it. -/
def DictCall.withToken (call : DictCall) (i : Nat) (tok : Token) (buf : Buffer) : Buffer :=
  copyAt (copyAt buf i tok.length tok.byte) (i + tok.length) (call.len - i)
    fun k => call.inBuf (i + k)

private theorem DictCall.withToken_before {tok : Token} {buf : Buffer} {k : Nat} (below : k < i) :
    call.withToken i tok buf k = buf k :=
  (if_neg (by omega)).trans (if_neg (by omega))

theorem DictCall.withToken_behind {tok : Token} {buf : Buffer} {addr : Nat}
    (inside : i ≤ call.len) (from_ : i ≤ addr) (below : addr < call.len + tok.length) :
    call.withToken i tok buf addr =
      if addr < i + tok.length then tok.byte (addr - i)
      else call.inBuf (addr - tok.length) := by
  dsimp only [DictCall.withToken, copyAt]
  by_cases early : addr < i + tok.length
  · rw [if_neg (by omega), if_pos ⟨from_, early⟩, if_pos early]
  · rw [if_pos (by omega), if_neg early]
    congr 1
    omega

theorem DictCall.insertToken_eq (s : DictState) (tok : Token) :
    call.insertToken i s tok =
      if s.ended || decide (maxFile < call.len + tok.length) then s
      else call.execute i tok { s with buf := call.withToken i tok s.buf } := rfl

private theorem DictCall.Copied.insertToken (copied : call.Copied toks scratch i s)
    (inside : i ≤ call.len) (tok : Token) :
    call.Copied toks scratch i (call.insertToken i s tok) := by
  rw [DictCall.insertToken_eq]
  split
  · exact copied
  · rename_i fits
    rw [Bool.or_eq_true, not_or, Bool.not_eq_true] at fits
    constructor
    · intro _ k below within
      exact (DictCall.withToken_before below).trans (copied.head fits.1 k below within)
    · intro case mem
      rcases List.mem_append.1 mem with earlier | last
      · exact copied.cases _ earlier
      · rw [List.mem_singleton.1 last]
        refine ⟨inside, fun _ => DictCall.withToken_behind inside, fun k below => ?_⟩
        exact (DictCall.withToken_before below).trans
          (copied.head fits.1 k below (Nat.lt_of_lt_of_le below inside))

/-- The last token that fits is what the offset leaves behind. -/
private theorem DictCall.foldl_insertToken (inside : i ≤ call.len) {k : Nat} (from_ : i ≤ k)
    (below : k < call.len) (running : (toks.foldl (call.insertToken i) s).ended = false) :
    (toks.foldl (call.insertToken i) s).buf k =
      match call.lastToken toks with
      | some tok =>
        if k < i + tok.length then tok.byte (k - i) else call.inBuf (k - tok.length)
      | none => s.buf k := by
  induction toks using List.reverseRecOn with
  | nil => rfl
  | append_singleton earlier tok ih =>
    unfold DictCall.lastToken at ih ⊢
    rw [List.foldl_append, List.foldl_cons, List.foldl_nil, DictCall.insertToken_eq] at running ⊢
    rw [List.filter_append]
    by_cases fits : call.len + tok.length ≤ maxFile
    · have pre : (earlier.foldl (call.insertToken i) s).ended = false := by
        by_contra stopped
        rw [Bool.not_eq_false] at stopped
        rw [stopped, Bool.true_or, if_pos rfl, stopped] at running
        cases running
      rw [pre, Bool.false_or, if_neg (by simpa using fits)]
      simp only [List.filter_cons, List.filter_nil, fits, decide_true, if_true,
        List.getLast?_append, List.getLast?_singleton, Option.some_or]
      exact DictCall.withToken_behind inside from_ (by omega)
    · rw [if_pos (by simp; omega)] at running ⊢
      rw [ih running]
      simp [fits]

/-- What the loop keeps: the head is copied, and the rest stands as it was left. -/
structure DictCall.Reached (call : DictCall) (toks : List Token) (scratch : Buffer) (i : Nat)
    (s : DictState) : Prop extends DictCall.Copied call toks scratch i s where
  tail : s.ended = false → ∀ k, i ≤ k → k < call.len → s.buf k = call.standing toks scratch i k

theorem DictCall.Reached.skip (reached : call.Reached toks scratch i s)
    (hidden : s.ended = false → call.effective (i % call.len) = false) :
    call.Reached toks scratch (i + 1) s := by
  refine ⟨⟨fun running k below within => ?_, reached.cases⟩, fun running k from_ within => ?_⟩
  · rcases Nat.lt_succ_iff_lt_or_eq.1 below with earlier | rfl
    · exact reached.head running k earlier within
    · unfold DictCall.headByte
      rw [hidden running, if_neg Bool.false_ne_true]
      exact reached.tail running k (Nat.le_refl _) within
  · have same : call.lastShown (i + 1) = call.lastShown i := by
      rw [DictCall.lastShown, hidden running, if_neg Bool.false_ne_true]
    rw [reached.tail running k (by omega) within, DictCall.standing, DictCall.standing, same]

private theorem DictCall.Reached.insertAt (reached : call.Reached toks scratch i s)
    (inside : i ≤ call.len) (running : s.ended = false)
    (shown : call.effective (i % call.len) = true) :
    call.Reached toks scratch (i + 1) (call.insertAt toks i s) := by
  have inserted : call.Copied toks scratch i (toks.foldl (call.insertToken i) s) :=
    toks.foldlRecOn _ reached.toCopied fun s copied tok _ => copied.insertToken inside _
  unfold DictCall.insertAt
  dsimp only
  split
  case isTrue stopped =>
    refine ⟨⟨fun never => ?_, inserted.cases⟩, fun never => ?_⟩ <;>
      rw [stopped] at never <;> cases never
  case isFalse goesOn =>
    rw [Bool.not_eq_true] at goesOn
    refine ⟨⟨fun _ k below within => ?_, inserted.cases⟩, fun _ k from_ within => ?_⟩
    · rcases Nat.lt_succ_iff_lt_or_eq.1 below with earlier | rfl
      · exact (Function.update_of_ne (Nat.ne_of_lt earlier) _ _).trans
          (inserted.head goesOn k earlier within)
      · unfold DictCall.headByte
        rw [if_pos shown]
        exact Function.update_self _ _ _
    · refine (Function.update_of_ne (by omega) _ _).trans ?_
      rw [DictCall.foldl_insertToken inside (by omega) within goesOn]
      unfold DictCall.standing DictCall.lastShown
      rw [if_pos shown]
      cases none : call.lastToken toks with
      | some tok => rfl
      | none =>
        dsimp only
        rw [reached.tail running k (by omega) within, DictCall.standing, none]
        split <;> simp_all

private theorem extrasInsert_built (call : DictCall) (toks : List Token) (scratch : Buffer) :
    ∀ case ∈ (call.extrasInsert toks scratch).cases, call.Built toks scratch case := by
  refine (DictCall.forOffsets_keeps (call.Reached toks scratch) ?_ ?_ ?_ ?_).cases
  · exact ⟨⟨fun _ k below => absurd below (Nat.not_lt_zero k), nofun⟩, fun _ _ _ _ => rfl⟩
  · intro i s _ reached idle
    refine reached.skip fun running => ?_
    rw [running, Bool.false_or, Bool.not_eq_true'] at idle
    exact idle
  · exact fun _ _ reached => ⟨⟨nofun, reached.cases⟩, nofun⟩
  · intro i s within reached running shown
    exact reached.insertAt (Nat.le_of_lt_succ within) running shown

end Inserting

/-- The inserting stages execute what they mean to, exactly if at the skipped offsets in
front of each case the byte of the input stands already: in the scratch buffer from before,
or in what the last insertion has left there. -/
theorem extras_inserted_iff (call : DictCall) (toks : List Token) (scratch : Buffer) :
    (∀ case ∈ (call.extrasInsert toks scratch).cases, call.Inserted case) ↔
      ∀ case ∈ (call.extrasInsert toks scratch).cases, ∀ k, k < case.offset →
        call.effective (k % call.len) = false → call.standing toks scratch k k = call.inBuf k := by
  refine forall₂_congr fun case mem => ?_
  have built := extrasInsert_built _ _ _ _ mem
  have inside := built.inside
  constructor
  · intro inserted k below hidden
    have right := (inserted k (by omega)).trans (if_pos below)
    rwa [built.before _ below, DictCall.headByte, hidden, if_neg Bool.false_ne_true] at right
  · intro skipped addr within
    by_cases below : addr < case.offset
    · rw [if_pos below, built.before _ below, DictCall.headByte]
      split
      · rfl
      · rename_i hidden
        exact skipped _ below (Bool.not_eq_true _ ▸ hidden)
    · rw [if_neg below]
      exact built.behind _ (Nat.not_lt.1 below) within

/-- The first byte is skipped and never copied. -/
theorem skipped_byte_not_copied :
    ((twoBytes.extrasInsert [[84]] fun _ => 0).cases.map fun case =>
      (case.offset, (List.range 3).map case.content)) = [(1, [0, 84, 65])] := by
  decide

end AflPlusPlus
