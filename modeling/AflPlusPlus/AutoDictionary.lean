/-
The automatic dictionary (`maybe_add_auto`).

A token that is a run of one byte, an interesting integer, or in the user's dictionary is
dropped.  Otherwise its use count is raised, or it is added, at the end or over a random
entry of the lower half, and the tokens are sorted again.
-/

import AflPlusPlus.Common
import AflPlusPlus.DetStages
import AflPlusPlus.Machine.GuardedRun
import AflPlusPlus.Machine.Qsort
import Mathlib.Data.List.TakeWhile

namespace AflPlusPlus.AutoDictionary

open Machine List
open Machine.LaneWord

def maxAutoExtra : Nat := 32

def maxAutoExtras : Nat := useAutoExtras * 8

/-- `auto_extra_data`.  Only the proof reads `against`, the user's dictionary at the
time the token was added. -/
structure AutoExtra where
  data : List Byte
  hitCnt : Nat
  against : List (List Byte)

structure AutoState where
  aExtras : List AutoExtra
  autoChanged : Bool

/-- `i` at the end of the first loop: where a byte first differs from the first one. -/
def runLength (mem : List Byte) : Nat :=
  1 + ((mem.drop 1).takeWhile (fun byte => byte = mem.getD 0 0)).length

/-- `*((u16 *)mem)` and `*((u32 *)mem)` -/
def wordOf (w : Nat) (mem : List Byte) : BitVec (8 * w) :=
  load w (fun i => mem.getD i 0) 0

/-- The table is signed, so its entry is compared as an integer; `SWAP16` yields an
unsigned one. -/
def rejects16 (mem : List Byte) : Bool :=
  interesting16.any (fun v =>
    ((wordOf 2 mem).toNat : Int) = v.toInt || wordOf 2 mem = swap16 v)

/-- Here the entry is cast to `u32` first. -/
def rejects32 (mem : List Byte) : Bool :=
  interesting32.any (fun v => wordOf 4 mem = v || wordOf 4 mem = swap32 v)

def toLower (byte : Byte) : Byte :=
  if 65 ≤ byte.toNat ∧ byte.toNat ≤ 90 then byte + 32#8 else byte

/-- `memcmp_nocase`: true if the bytes differ. -/
def memcmpNocase : List Byte → List Byte → Bool
  | first :: rest, second :: others =>
    if toLower first ≠ toLower second then true else memcmpNocase rest others
  | _, _ => false

/-- Skip the shorter tokens, then compare with those of the same length. -/
def matchesExtras (extras : List (List Byte)) (mem : List Byte) : Bool :=
  ((extras.dropWhile (fun extra => extra.length < mem.length)).takeWhile
    (fun extra => extra.length = mem.length)).any (fun extra => !memcmpNocase extra mem)

def passes (extras : List (List Byte)) (mem : List Byte) : Bool :=
  !(runLength mem = mem.length || maxAutoExtra < mem.length) &&
    !(mem.length = 2 && rejects16 mem) && !(mem.length = 4 && rejects32 mem) &&
    !matchesExtras extras mem

def bump (mem : List Byte) : List AutoExtra → Option (List AutoExtra)
  | [] => none
  | tok :: rest =>
    if tok.data.length = mem.length ∧ memcmpNocase tok.data mem = false then
      some ({ tok with hitCnt := (tok.hitCnt + 1) % 2 ^ 32 } :: rest)
    else (bump mem rest).map (tok :: ·)

/-- The slot to overwrite: `MAX_AUTO_EXTRAS / 2 + rand_below(afl, (MAX_AUTO_EXTRAS + 1) / 2)` -/
def evicted (raw : Nat) : Nat := maxAutoExtras / 2 + raw % ((maxAutoExtras + 1) / 2)

def place (extras : List (List Byte)) (raw : Nat) (mem : List Byte) (toks : List AutoExtra) :
    List AutoExtra :=
  if toks.length < maxAutoExtras then toks ++ [⟨mem, 0, extras⟩]
  else toks.set (evicted raw) ⟨mem, 0, extras⟩

def compareAutoExtrasUseD (ae1 ae2 : AutoExtra) : Int :=
  (BitVec.ofNat 32 ae2.hitCnt - BitVec.ofNat 32 ae1.hitCnt).toInt

def compareAutoExtrasLen (ae1 ae2 : AutoExtra) : Int :=
  (BitVec.ofNat 32 ae1.data.length - BitVec.ofNat 32 ae2.data.length).toInt

def sortAExtras (qsort : Qsort) (toks : List AutoExtra) : List AutoExtra :=
  let byUse := qsort.sort compareAutoExtrasUseD toks
  qsort.sort compareAutoExtrasLen (byUse.take useAutoExtras) ++ byUse.drop useAutoExtras

/-- One call with the user's dictionary, the raw random number and the token. -/
structure Found where
  extras : List (List Byte)
  raw : Nat
  mem : List Byte

def maybeAddAuto (qsort : Qsort) (s : AutoState) (found : Found) : AutoState :=
  if passes found.extras found.mem then
    { aExtras := sortAExtras qsort ((bump found.mem s.aExtras).getD
        (place found.extras found.raw found.mem s.aExtras))
      autoChanged := true }
  else s

theorem memcmpNocase_eq_false_iff {first second : List Byte} (same : first.length = second.length) :
    memcmpNocase first second = false ↔ first.map toLower = second.map toLower := by
  induction first generalizing second with
  | nil =>
    rw [length_eq_zero_iff.mp same.symm]
    exact ⟨fun _ => rfl, fun _ => rfl⟩
  | cons head rest ih =>
    cases second with
    | nil => cases same
    | cons other others =>
      have shorter := ih (Nat.succ.inj same)
      rw [memcmpNocase, map_cons, map_cons, List.cons.injEq]
      by_cases equal : toLower head = toLower other
      · rw [if_neg (not_not.mpr equal), shorter]
        exact ⟨fun tail => ⟨equal, tail⟩, And.right⟩
      · rw [if_pos equal]
        constructor
        · intro bad
          cases bad
        · intro both
          exact absurd both.1 equal

variable {mem : List Byte} {toks : List AutoExtra} {extras : List (List Byte)}
  (sorted : extras.Pairwise (fun a b => a.length ≤ b.length))

include sorted

private theorem mem_takeWhile_sorted {extra : List Byte} (member : extra ∈ extras)
    (least : ∀ other ∈ extras, extra.length ≤ other.length) :
    extra ∈ extras.takeWhile (fun other => other.length = extra.length) := by
  induction extras with
  | nil => cases member
  | cons head rest ih =>
    obtain ⟨first, later⟩ := pairwise_cons.mp sorted
    have atLeast := least _ mem_cons_self
    rcases mem_cons.mp member with here | beyond
    · rw [takeWhile_cons_of_pos (by simp [here]), here]
      exact mem_cons_self
    · have atMost := first _ beyond
      have equal : head.length = extra.length := by omega
      rw [takeWhile_cons_of_pos (by simp [equal])]
      exact mem_cons_of_mem _
        (ih later beyond (fun other inside => least _ (mem_cons_of_mem _ inside)))

private theorem matchesExtras_of_mem {mem extra : List Byte} (member : extra ∈ extras)
    (same : extra.map toLower = mem.map toLower) : matchesExtras extras mem = true := by
  have len : extra.length = mem.length := by
    have mapped := congrArg List.length same
    rwa [length_map, length_map] at mapped
  have equal : (!memcmpNocase extra mem) = true := by
    rw [(memcmpNocase_eq_false_iff len).mpr same]
    rfl
  unfold matchesExtras
  rw [← len]
  refine any_eq_true.mpr ⟨extra, ?_, equal⟩
  induction extras with
  | nil => cases member
  | cons head rest ih =>
    obtain ⟨first, later⟩ := pairwise_cons.mp sorted
    by_cases short : head.length < extra.length
    · rw [dropWhile_cons_of_pos (by simpa using short)]
      rcases mem_cons.mp member with here | beyond
      · subst here
        exact absurd short (Nat.lt_irrefl _)
      · exact ih later beyond
    · rw [dropWhile_cons_of_neg (by simpa using short)]
      apply mem_takeWhile_sorted sorted member
      intro other inside
      rcases mem_cons.mp inside with here | beyond
      · rw [here]
        exact Nat.not_lt.mp short
      · exact Nat.le_trans (Nat.not_lt.mp short) (first _ beyond)

omit sorted

/-- The token is an interesting integer in one of the byte orders. -/
def Encodes (mem : List Byte) : Prop :=
  (mem.length = 2 ∧ ∃ v ∈ interesting16, wordOf 2 mem = v ∨ wordOf 2 mem = swap16 v) ∨
  (mem.length = 4 ∧ ∃ v ∈ interesting32, wordOf 4 mem = v ∨ wordOf 4 mem = swap32 v)

/-- Minus 128 as a little endian 16-bit word, which the signed comparison misses. -/
def minus128 : List Byte := [0x80#8, 0xff#8]

private theorem signed_entries :
    interesting16.all (fun v => 0 ≤ v.toInt || v == 0xff80#16 || v == 0xffff#16 ||
      interesting16.any (fun other => v == swap16 other)) = true := by
  decide

private theorem byte_of_word (mem : List Byte) (i : Nat) (inside : i < 2) :
    laneAt 8 (wordOf 2 mem) i = mem.getD i 0 := by
  unfold wordOf
  rw [laneAt_load _ _ _ _ inside, Nat.zero_add]

private theorem two_bytes (two : mem.length = 2) (word : BitVec 16) (holds : wordOf 2 mem = word) :
    mem = [laneAt 8 word 0, laneAt 8 word 1] := by
  obtain ⟨first, second, rfl⟩ := length_eq_two.mp two
  have low := byte_of_word [first, second] 0 (by omega)
  have high := byte_of_word [first, second] 1 (by omega)
  rw [holds] at low high
  rw [low, high]
  rfl

theorem rejects16_misses_iff (two : mem.length = 2) :
    (runLength mem ≠ mem.length ∧ rejects16 mem = false ∧ Encodes mem) ↔ mem = minus128 := by
  constructor
  · rintro ⟨varied, missed, encodes⟩
    simp only [rejects16, any_eq_false, Bool.or_eq_true, decide_eq_true_eq, not_or] at missed
    rcases encodes with ⟨_, v, member, equal⟩ | ⟨_, _⟩
    · have word : wordOf 2 mem = v := equal.resolve_right (missed _ member).2
      have entry := all_eq_true.mp signed_entries _ member
      simp only [Bool.or_eq_true, decide_eq_true_eq, beq_iff_eq, any_eq_true] at entry
      rcases entry with ((pos | low) | ones) | ⟨_, otherMember, swapped⟩
      · refine absurd ?_ (missed _ member).1
        rw [word]
        have msb : v.msb = false := by
          rw [BitVec.msb_eq_toInt]
          exact decide_eq_false (by omega)
        exact (BitVec.toInt_eq_toNat_of_msb msb).symm
      · rw [two_bytes two _ word, low]
        decide
      · refine absurd ?_ varied
        rw [two_bytes two _ word, ones]
        decide
      · exact absurd (word.trans swapped) (missed _ otherMember).2
    · omega
  · intro same
    subst same
    refine ⟨by decide, by decide, .inl ⟨rfl, 0xff80#16, ?_, .inl ?_⟩⟩
    · exact mem_of_elem_eq_true (by decide)
    · decide

def key (tok : AutoExtra) : List Byte := tok.data.map toLower

structure Fit (tok : AutoExtra) : Prop where
  varied : ¬∃ byte, ∀ other ∈ tok.data, other = byte
  ordinary : ¬Encodes tok.data
  fresh : ∀ extra ∈ tok.against, extra.map toLower ≠ key tok

/-- The dictionary is bounded and without duplicates, its tokens are as they should be,
and the leading ones are those used most. -/
structure Wanted (toks : List AutoExtra) : Prop where
  count : toks.length ≤ maxAutoExtras
  distinct : (toks.map key).Nodup
  fit : ∀ tok ∈ toks, Fit tok
  leading : ∀ used ∈ toks.take useAutoExtras, ∀ other ∈ toks.drop useAutoExtras,
    other.hitCnt ≤ used.hitCnt

private theorem runLength_of_constant (filled : mem ≠ []) (byte : Byte)
    (constant : ∀ other ∈ mem, other = byte) : runLength mem = mem.length := by
  cases mem with
  | nil => exact absurd rfl filled
  | cons head rest =>
    have whole : rest.takeWhile (fun other => other = head) = rest := by
      rw [takeWhile_eq_self_iff]
      intro other member
      rw [constant _ (mem_cons_of_mem _ member), constant _ mem_cons_self]
      exact decide_eq_true rfl
    change 1 + (rest.takeWhile (fun other => other = head)).length = rest.length + 1
    rw [whole, Nat.add_comm]

private theorem fit_of_passes (hits : Nat) (long : 2 ≤ mem.length)
    (sorted : extras.Pairwise (fun a b => a.length ≤ b.length)) (spared : mem ≠ minus128)
    (passed : passes extras mem = true) :
    Fit ⟨mem, hits, extras⟩ := by
  simp only [passes, Bool.and_eq_true, Bool.not_eq_true', Bool.or_eq_false_iff,
    Bool.and_eq_false_iff, decide_eq_false_iff_not] at passed
  obtain ⟨⟨⟨⟨notRun, _short⟩, pass16⟩, pass32⟩, unmatched⟩ := passed
  refine ⟨?_, ?_, ?_⟩
  · rintro ⟨_, constant⟩
    refine notRun (runLength_of_constant ?_ _ constant)
    intro empty
    rw [empty] at long
    cases long
  · intro encodes
    rcases encodes with ⟨two, entry⟩ | ⟨four, entry⟩
    · have missed := pass16.resolve_left (not_not.mpr two)
      exact spared ((rejects16_misses_iff two).mp ⟨notRun, missed, .inl ⟨two, entry⟩⟩)
    · have missed := pass32.resolve_left (not_not.mpr four)
      obtain ⟨_, member, equal⟩ := entry
      simp only [rejects32, any_eq_false, Bool.or_eq_true, decide_eq_true_eq] at missed
      exact missed _ member equal
  · intro extra member same
    rw [matchesExtras_of_mem sorted member same] at unmatched
    cases unmatched

def HitsBelow (toks : List AutoExtra) : Prop := ∀ tok ∈ toks, tok.hitCnt < 2 ^ 31

instance (toks : List AutoExtra) : Decidable (HitsBelow toks) :=
  inferInstanceAs (Decidable (∀ tok ∈ toks, _ < _))

private theorem toInt_sub_small {first second : Nat} (left : first < 2 ^ 31)
    (right : second < 2 ^ 31) :
    (BitVec.ofNat 32 first - BitVec.ofNat 32 second).toInt = (first : Int) - second := by
  have small (n : Nat) (below : n < 2 ^ 31) : (BitVec.ofNat 32 n).toInt = n := by
    have v : (BitVec.ofNat 32 n).toNat = n := by
      rw [BitVec.toNat_ofNat]
      omega
    rw [BitVec.toInt_eq_toNat_of_lt (by omega), v]
  rw [BitVec.toInt_sub, small _ left, small _ right]
  apply Int.bmod_eq_of_le <;> omega

private theorem useD_lawful (below : HitsBelow toks) :
    LawfulOn compareAutoExtrasUseD toks := by
  refine LawfulOn.of_key (fun tok => -(tok.hitCnt : Int)) ?_
  intro a first b second
  rw [compareAutoExtrasUseD, toInt_sub_small (below b second) (below a first)]
  omega

variable (qsort : Qsort)

theorem sortAExtras_perm (toks : List AutoExtra) :
    (sortAExtras qsort toks).Perm toks := by
  refine ((qsort.perm _ _).append_right _).trans ?_
  rw [take_append_drop]
  exact qsort.perm _ _

private theorem sortAExtras_leading (below : HitsBelow toks) :
    ∀ used ∈ (sortAExtras qsort toks).take useAutoExtras,
      ∀ other ∈ (sortAExtras qsort toks).drop useAutoExtras, other.hitCnt ≤ used.hitCnt := by
  have ordered := qsort.ordered _ _ (useD_lawful below)
  have same := qsort.perm compareAutoExtrasUseD toks
  unfold sortAExtras
  dsimp only
  generalize qsort.sort compareAutoExtrasUseD toks = byUse at ordered same
  have top := qsort.perm compareAutoExtrasLen (byUse.take useAutoExtras)
  generalize qsort.sort compareAutoExtrasLen (byUse.take useAutoExtras) = byLen at top
  have len : byLen.length = min useAutoExtras byUse.length := by
    rw [top.length_eq, length_take]
  intro used inTop other inRest
  by_cases full : useAutoExtras ≤ byUse.length
  · have exactly : byLen.length = useAutoExtras := by omega
    rw [← exactly, take_left] at inTop
    rw [← exactly, drop_left, exactly] at inRest
    have split := ordered
    rw [← take_append_drop _ byUse] at split
    have compared := (pairwise_append.mp split).2.2 _ (top.mem_iff.mp inTop) _ inRest
    have usedBelow := below _ (same.mem_iff.mp (mem_of_mem_take (top.mem_iff.mp inTop)))
    have otherBelow := below _ (same.mem_iff.mp (mem_of_mem_drop inRest))
    rw [compareAutoExtrasUseD, toInt_sub_small otherBelow usedBelow] at compared
    omega
  · rw [drop_eq_nil_of_le] at inRest
    · cases inRest
    · rw [length_append, length_drop]
      omega

private theorem wanted_sorted (count : toks.length ≤ maxAutoExtras)
    (distinct : (toks.map key).Nodup) (fit : ∀ tok ∈ toks, Fit tok)
    (below : HitsBelow toks) :
    Wanted (sortAExtras qsort toks) := by
  have same := sortAExtras_perm qsort toks
  refine ⟨?_, ?_, ?_, sortAExtras_leading _ below⟩
  · rw [same.length_eq]
    exact count
  · exact (same.map _).nodup_iff.mpr distinct
  · intro tok member
    exact fit _ (same.mem_iff.mp member)

private theorem bump_eq_none (missing : bump mem toks = none) :
    mem.map toLower ∉ toks.map key := by
  induction toks with
  | nil => exact not_mem_nil
  | cons tok rest ih =>
    rw [bump] at missing
    split at missing
    · cases missing
    · rename_i differs
      rw [map_cons, mem_cons, not_or]
      refine ⟨?_, ih (Option.map_eq_none_iff.mp missing)⟩
      intro same
      have len : tok.data.length = mem.length := by
        have mapped := congrArg List.length same
        rw [key, length_map, length_map] at mapped
        exact mapped.symm
      exact differs ⟨len, (memcmpNocase_eq_false_iff len).mpr same.symm⟩

private theorem bump_eq_some {toks raised : List AutoExtra} (found : bump mem toks = some raised) :
    raised.map key = toks.map key ∧
      ∀ tok ∈ raised, ∃ old ∈ toks, tok.data = old.data ∧ tok.against = old.against := by
  induction toks generalizing raised with
  | nil => cases found
  | cons tok rest ih =>
    rw [bump] at found
    split at found
    · cases found
      refine ⟨rfl, ?_⟩
      intro other member
      rcases mem_cons.mp member with here | beyond
      · exact ⟨tok, mem_cons_self, by rw [here], by rw [here]⟩
      · exact ⟨other, mem_cons_of_mem _ beyond, rfl, rfl⟩
    · obtain ⟨_, inTail, same⟩ := Option.map_eq_some_iff.mp found
      subst same
      obtain ⟨keys, members⟩ := ih inTail
      refine ⟨by rw [map_cons, map_cons, keys], ?_⟩
      intro other member
      rcases mem_cons.mp member with here | beyond
      · exact ⟨tok, mem_cons_self, by rw [here], by rw [here]⟩
      · obtain ⟨old, oldMember, same⟩ := members other beyond
        exact ⟨old, mem_cons_of_mem _ oldMember, same⟩

private theorem Fit.congr {tok old : AutoExtra} (fit : Fit old) (data : tok.data = old.data)
    (against : tok.against = old.against) : Fit tok := by
  obtain ⟨varied, ordinary, fresh⟩ := fit
  refine ⟨?_, ?_, ?_⟩
  · rw [data]
    exact varied
  · rw [data]
    exact ordinary
  · rw [against, key, data]
    exact fresh

private theorem evicted_lt (raw : Nat) : evicted raw < maxAutoExtras := by
  have drawn : raw % ((maxAutoExtras + 1) / 2) < (maxAutoExtras + 1) / 2 := Nat.mod_lt _ (by decide)
  unfold evicted
  omega

private theorem place_perm (extras : List (List Byte)) (raw : Nat) (mem : List Byte)
    (toks : List AutoExtra) (count : toks.length ≤ maxAutoExtras) :
    ∃ kept, List.Sublist kept toks ∧ kept.length + 1 ≤ maxAutoExtras ∧
      (place extras raw mem toks).Perm (⟨mem, 0, extras⟩ :: kept) := by
  unfold place
  by_cases room : toks.length < maxAutoExtras
  · rw [if_pos room]
    exact ⟨toks, List.Sublist.refl _, room, perm_append_singleton _ _⟩
  · have full : evicted raw < toks.length := by
      have inside := evicted_lt raw
      omega
    rw [if_neg room]
    refine ⟨toks.eraseIdx (evicted _), eraseIdx_sublist _ _, ?_, set_perm_cons_eraseIdx full _⟩
    rw [length_eraseIdx_of_lt full]
    omega

/-- A call as the program makes it: tokens of at least two bytes, a user dictionary sorted
by length, and use counts that stay below two to the 31. -/
structure Admitted (qsort : Qsort) (s : AutoState) (found : Found) : Prop where
  long : 2 ≤ found.mem.length
  sorted : found.extras.Pairwise (fun a b => a.length ≤ b.length)
  below : HitsBelow (maybeAddAuto qsort s found).aExtras

private theorem maybeAddAuto_wanted {qsort : Qsort} {s : AutoState} {found : Found}
    (wanted : Wanted s.aExtras) (admitted : Admitted qsort s found)
    (spared : found.mem ≠ minus128) : Wanted (maybeAddAuto qsort s found).aExtras := by
  have below := admitted.below
  unfold maybeAddAuto at below ⊢
  by_cases passed : passes found.extras found.mem = true
  · rw [if_pos passed] at below ⊢
    have fresh := fit_of_passes 0 admitted.long admitted.sorted spared passed
    have hits : HitsBelow ((bump found.mem s.aExtras).getD
        (place found.extras found.raw found.mem s.aExtras)) := by
      intro tok member
      exact below _ ((sortAExtras_perm _ _).mem_iff.mpr member)
    cases bumped : bump found.mem s.aExtras with
    | some raised =>
      rw [bumped] at hits
      obtain ⟨keys, members⟩ := bump_eq_some bumped
      refine wanted_sorted _ ?_ ?_ ?_ hits
      · have len := congrArg List.length keys
        rw [length_map, length_map] at len
        change raised.length ≤ _
        rw [len]
        exact wanted.count
      · change (raised.map key).Nodup
        rw [keys]
        exact wanted.distinct
      · intro tok member
        obtain ⟨_, oldMember, data, against⟩ := members tok member
        exact (wanted.fit _ oldMember).congr data against
    | none =>
      rw [bumped] at hits
      obtain ⟨_, inside, room, arranged⟩ :=
        place_perm found.extras found.raw found.mem s.aExtras wanted.count
      refine wanted_sorted _ ?_ ?_ ?_ hits
      · change (place _ _ _ _).length ≤ _
        rw [arranged.length_eq]
        exact room
      · refine (arranged.map _).nodup_iff.mpr ?_
        rw [map_cons, nodup_cons]
        refine ⟨?_, wanted.distinct.sublist (inside.map _)⟩
        intro repeated
        exact bump_eq_none bumped ((inside.map _).subset repeated)
      · intro tok member
        rcases mem_cons.mp (arranged.mem_iff.mp member) with here | older
        · rw [here]
          exact fresh
        · exact wanted.fit _ (inside.subset older)
  · rw [if_neg passed]
    exact wanted

/-- Of all two-byte tokens that encode an interesting integer exactly one passes the filter,
and as long as it is not found the dictionary is as wanted after every sequence of calls. -/
theorem auto_dictionary_wanted (qsort : Qsort) :
    (∀ mem : List Byte, mem.length = 2 →
      ((runLength mem ≠ mem.length ∧ rejects16 mem = false ∧ Encodes mem) ↔ mem = minus128)) ∧
    ∀ calls : List Found, Along (maybeAddAuto qsort)
        (fun s found => Admitted qsort s found ∧ found.mem ≠ minus128)
        ⟨[], false⟩ calls →
      Wanted (runFrom (maybeAddAuto qsort) ⟨[], false⟩ calls).aExtras := by
  refine ⟨fun _ two => rejects16_misses_iff two, ?_⟩
  intro calls admitted
  have start : Wanted (AutoState.mk [] false).aExtras := by
    refine ⟨Nat.zero_le _, nodup_nil, ?_, ?_⟩
    · intro tok member
      cases member
    · intro used member
      cases member
  exact runFrom_invariant (fun s => Wanted s.aExtras)
    (fun _ _ kept allowed => maybeAddAuto_wanted kept allowed.1 allowed.2) _ start _ admitted

def sampleCalls : List Found :=
  [⟨[], 0, [105#8, 100#8]⟩, ⟨[], 0, [73#8, 68#8]⟩]

theorem sample_dictionary_wanted :
    (runFrom (maybeAddAuto insertionQsort) ⟨[], false⟩ sampleCalls).aExtras.map
        AutoExtra.hitCnt = [1] ∧
      Wanted (runFrom (maybeAddAuto insertionQsort) ⟨[], false⟩ sampleCalls).aExtras := by
  refine ⟨by decide, (auto_dictionary_wanted insertionQsort).2 sampleCalls ?_⟩
  exact ⟨⟨⟨by decide, List.Pairwise.nil, by decide⟩, by decide⟩,
    ⟨⟨by decide, List.Pairwise.nil, by decide⟩, by decide⟩, trivial⟩

/-- The token 80 FF is added, although it is minus 128 in little endian order. -/
theorem minus128_added :
    (maybeAddAuto insertionQsort ⟨[], false⟩ ⟨[], 0, minus128⟩).aExtras.map AutoExtra.data =
        [minus128] ∧
      interesting16.contains (wordOf 2 minus128) = true := by
  decide

end AflPlusPlus.AutoDictionary
