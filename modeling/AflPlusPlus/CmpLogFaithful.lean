/-
What the fuzzer reads in the comparison log.

A row is good for as many bytes as the logger wrote.  As long as every call fits the header
it meets, the rows that are read are good for the width of the header.
-/

import AflPlusPlus.CmpLog

namespace AflPlusPlus.CmpLog

open Machine List Function

private theorem byteOf_eq_zero {n width j : Nat} (small : n < 256 ^ width) (beyond : width ≤ j) :
    byteOf n j = 0 := by
  have fits : n < 256 ^ j := Nat.lt_of_lt_of_le small (Nat.pow_le_pow_right (by decide) beyond)
  unfold byteOf
  rw [Nat.div_eq_of_lt fits]

private theorem extend_byteOf {n width : Nat} (small : n < 256 ^ width) :
    extend width (byteOf n) = byteOf n := by
  funext j
  unfold extend
  split
  · rfl
  case isFalse beyond => exact (byteOf_eq_zero small (Nat.le_of_not_lt beyond)).symm

theorem Row.write_of_lt {row : Row} {count j : Nat} {bytes0 bytes1 : Nat → Nat}
    (below : j < count) :
    (row.write count bytes0 bytes1).v0 j = bytes0 j ∧
      (row.write count bytes0 bytes1).v1 j = bytes1 j := by
  exact ⟨if_pos below, if_pos below⟩

variable {w : World} {hdr : Header} {j width k r : Nat} {entry : Logged} {content : Row}
variable {log : InsLog}

private theorem extend_of_lt {bytes : Nat → Nat} (below : j < width) :
    extend width bytes j = bytes j :=
  if_pos below

def Header.cover (hdr : Header) : Nat :=
  match hdr.type with
  | .ins => if hdr.shape ≤ 7 then 8 else 16
  | .rtn => hdr.width

structure Kept (w : World) (k : Nat) : Prop where
  hits : (w.headers k).hits < 64
  shape : (w.headers k).type = .ins → (w.headers k).shape ≤ 15
  rows : ∀ r < (w.headers k).loggeds, ∃ entry ∈ w.logged,
    entry.key = k ∧ entry.row = r ∧ entry.type = (w.headers k).type ∧
      entry.width ≤ (w.headers k).width ∧
      ∀ j < (w.headers k).cover, (w.rows k r).v0 j = entry.v0 j ∧ (w.rows k r).v1 j = entry.v1 j
  widths : w.widths k ≠ [] → (w.headers k).width ∈ w.widths k ∧
      ∀ width ∈ w.widths k, width ≤ (w.headers k).width
  cleared : w.widths k = [] →
    (w.headers k).type = .ins ∧ (w.headers k).hits = 0 ∧ (w.headers k).shape = 0

variable (rows : Nat → Nat → Row)

theorem Kept.initial (k : Nat) : Kept (World.initial rows) k := by
  refine ⟨Nat.zero_lt_succ 63, fun _ => Nat.zero_le 15, ?_, ?_, fun _ => ⟨rfl, rfl, rfl⟩⟩
  · intro r below
    exact absurd below (Nat.not_lt_zero r)
  · intro some
    exact absurd rfl some

private theorem Kept.width_le_cover (kept : Kept w k) :
    (w.headers k).width ≤ (w.headers k).cover := by
  have shape := kept.shape
  unfold Header.cover Header.width
  cases type : (w.headers k).type with
  | ins =>
    have small := shape type
    dsimp only
    split <;> omega
  | rtn => exact Nat.le_refl _

theorem Kept.faithful (kept : Kept w k) : w.Faithful k := by
  refine ⟨?_, kept.widths⟩
  intro r below
  obtain ⟨entry, mem, key, row, type, width, bytes⟩ := kept.rows r below
  exact ⟨entry, mem, key, row, type, width,
    fun j inside => bytes j (Nat.lt_of_lt_of_le inside kept.width_le_cover)⟩

private theorem Kept.enter_other (kept : Kept w k) (other : k ≠ entry.key) :
    Kept (w.enter hdr entry content) k := by
  have headers : (w.enter hdr entry content).headers k = w.headers k := update_of_ne other ..
  have rows : (w.enter hdr entry content).rows k = w.rows k := update_of_ne other ..
  have widths : (w.enter hdr entry content).widths k = w.widths k := update_of_ne other ..
  refine ⟨?_, ?_, ?_, ?_, ?_⟩
  · rw [headers]
    exact kept.hits
  · rw [headers]
    exact kept.shape
  · rw [headers, rows]
    intro r below
    obtain ⟨old, mem, holds⟩ := kept.rows r below
    exact ⟨old, mem_cons_of_mem _ mem, holds⟩
  · rw [headers, widths]
    exact kept.widths
  · rw [headers, widths]
    exact kept.cleared

/-- The new header, the new row and the rows that are still read. -/
structure Enters (old hdr : Header) (entry : Logged) (content : Row) : Prop where
  type : hdr.type = entry.type
  hits : hdr.hits < 64
  shape : hdr.type = .ins → hdr.shape ≤ 15
  width : entry.width ≤ hdr.width
  bytes : ∀ j < hdr.cover, content.v0 j = entry.v0 j ∧ content.v1 j = entry.v1 j
  others : ∀ r < hdr.loggeds, r ≠ entry.row →
    r < old.loggeds ∧ old.type = hdr.type ∧ old.width ≤ hdr.width ∧ hdr.cover ≤ old.cover
  positive : 0 < entry.width
  again : old.type = entry.type → hdr.width = max old.width entry.width
  anew : old.type ≠ entry.type → hdr.width = entry.width

private theorem Kept.widths_enter (kept : Kept w entry.key)
    (enters : Enters (w.headers entry.key) hdr entry content) :
    let widths :=
      if (w.headers entry.key).type = entry.type then entry.width :: w.widths entry.key
      else [entry.width]
    hdr.width ∈ widths ∧ ∀ width ∈ widths, width ≤ hdr.width := by
  split
  case isTrue same =>
    have largest := enters.again same
    by_cases none_ : w.widths entry.key = []
    · -- a cleared header stands for one byte
      have cleared : (w.headers entry.key).width = 1 := by
        rw [Header.width, (kept.cleared none_).2.2]
      rw [cleared, Nat.max_eq_right enters.positive] at largest
      rw [none_, largest]
      exact ⟨mem_cons_self, fun width mem => Nat.le_of_eq (mem_singleton.1 mem)⟩
    · obtain ⟨present, bound⟩ := kept.widths none_
      rw [largest]
      constructor
      · rcases Nat.le_total (w.headers entry.key).width entry.width with less | more
        · rw [Nat.max_eq_right less]
          exact mem_cons_self
        · rw [Nat.max_eq_left more]
          exact mem_cons_of_mem _ present
      · intro width mem
        rcases mem_cons.1 mem with rfl | pre
        · exact Nat.le_max_right _ _
        · exact Nat.le_trans (bound _ pre) (Nat.le_max_left _ _)
  case isFalse other =>
    rw [enters.anew other]
    exact ⟨mem_cons_self, fun width mem => Nat.le_of_eq (mem_singleton.1 mem)⟩

private theorem Kept.enter_own (kept : Kept w entry.key)
    (enters : Enters (w.headers entry.key) hdr entry content) :
    Kept (w.enter hdr entry content) entry.key := by
  have headers : (w.enter hdr entry content).headers entry.key = hdr := update_self ..
  have rows : (w.enter hdr entry content).rows entry.key =
      update (w.rows entry.key) entry.row content := update_self ..
  have widths : (w.enter hdr entry content).widths entry.key =
      if (w.headers entry.key).type = entry.type then entry.width :: w.widths entry.key
      else [entry.width] := update_self ..
  obtain ⟨present, bound⟩ := kept.widths_enter enters
  refine ⟨?_, ?_, ?_, ?_, ?_⟩
  · rw [headers]
    exact enters.hits
  · rw [headers]
    exact enters.shape
  · rw [headers, rows]
    intro r below
    by_cases own : r = entry.row
    · rw [own, update_self]
      exact ⟨entry, mem_cons_self, rfl, rfl, enters.type.symm, enters.width, enters.bytes⟩
    · obtain ⟨pre, type, wider, cover⟩ := enters.others r below own
      obtain ⟨old, mem, key, row, kind, width, bytes⟩ := kept.rows r pre
      rw [update_of_ne own]
      exact ⟨old, mem_cons_of_mem _ mem, key, row, kind.trans type,
        Nat.le_trans width wider, fun j inside => bytes j (Nat.lt_of_lt_of_le inside cover)⟩
  · rw [headers, widths]
    exact fun _ => ⟨present, bound⟩
  · rw [widths]
    intro none_
    rw [none_] at present
    cases present

variable (kept : ∀ k, Kept w k)

include kept in
theorem Kept.enter (enters : Enters (w.headers entry.key) hdr entry content) (k : Nat) :
    Kept (w.enter hdr entry content) k := by
  by_cases own : k = entry.key
  · subst own
    exact (kept entry.key).enter_own enters
  · exact (kept k).enter_other own

theorem loggeds_next {hdr next : Header} (type : next.type = hdr.type)
    (hits : hdr.hits < 64) (counted : next.hits = (hdr.hits + 1) % 64)
    (below : r < next.loggeds) (other : r ≠ hdr.hits % rowLimit hdr.type) :
    r < hdr.loggeds := by
  unfold Header.loggeds at *
  rw [type] at below
  cases kind : hdr.type with
  | ins =>
    rw [kind] at below other
    unfold rowLimit mapH at *
    dsimp only at *
    omega
  | rtn =>
    rw [kind] at below other
    unfold rowLimit mapRtnH mapH at *
    dsimp only at *
    omega

theorem loggeds_first (hits : hdr.hits = 1) (below : r < hdr.loggeds) : r = 0 := by
  unfold Header.loggeds at below
  omega

theorem loggeds_pos (below : r < hdr.loggeds) :
    hdr.hits ≠ 0 := by
  unfold Header.loggeds at below
  omega

theorem raised (shape size : Nat) : (if shape < size then size else shape) = max shape size := by
  rw [Nat.max_def]
  split
  case isTrue less => rw [if_pos (Nat.le_of_lt less)]
  case isFalse more =>
    split
    · omega
    · rfl

structure InsLog.Proper (log : InsLog) : Prop where
  size : log.size ≤ 15
  bytes : log.bytes = if log.size ≤ 7 then 8 else 16
  arg1 : log.arg1 < 256 ^ (log.size + 1)
  arg2 : log.arg2 < 256 ^ (log.size + 1)

section

variable (proper : log.Proper)

include proper

theorem InsLog.Proper.written (row : Row) (position : Nat) (below : j < log.bytes) :
    (row.write log.bytes (byteOf log.arg1) (byteOf log.arg2)).v0 j = (log.entry position).v0 j ∧
      (row.write log.bytes (byteOf log.arg1) (byteOf log.arg2)).v1 j =
        (log.entry position).v1 j := by
  unfold InsLog.entry
  rw [extend_byteOf proper.arg1, extend_byteOf proper.arg2]
  exact Row.write_of_lt below

private theorem Enters.ins_anew (type : hdr.type ≠ .ins) (row : Row) :
    Enters hdr ⟨1, log.size, .ins, log.attr % 16⟩ (log.entry 0)
      (row.write log.bytes (byteOf log.arg1) (byteOf log.arg2)) := by
  refine ⟨rfl, (by decide : 1 < 64), fun _ => proper.size, Nat.le_refl _, ?_, ?_,
    Nat.succ_pos _, fun same => absurd same type, fun _ => rfl⟩
  · intro j below
    refine proper.written _ 0 ?_
    rw [proper.bytes]
    exact below
  · intro r below other
    exact absurd (loggeds_first rfl below) other

private theorem Enters.ins_again (hits : hdr.hits < 64) (shape : hdr.shape ≤ 15)
    (type : hdr.type = .ins) (admits : hdr.AdmitsIns log.size) (row : Row) :
    Enters hdr ⟨(hdr.hits + 1) % 64, max hdr.shape log.size, .ins, log.attr % 16⟩
      (log.entry (hdr.hits % mapH))
      (row.write log.bytes (byteOf log.arg1) (byteOf log.arg2)) := by
  have small := proper.size
  have fits := admits type
  have cover : hdr.cover = if hdr.shape ≤ 7 then 8 else 16 := by
    unfold Header.cover
    rw [type]
  refine ⟨rfl, Nat.mod_lt _ (by decide), ?_, ?_, ?_, ?_, Nat.succ_pos _, ?_,
    fun ne => absurd type ne⟩
  · intro _
    exact Nat.max_le.2 ⟨shape, small⟩
  · exact Nat.succ_le_succ (Nat.le_max_right _ _)
  · intro j below
    refine proper.written _ _ (Nat.lt_of_lt_of_le below ?_)
    rw [proper.bytes]
    unfold Header.cover
    dsimp only
    -- the header gets wide only by a wide operand
    split at fits
    case isTrue narrow => rw [if_pos narrow, if_pos (by omega)]
    case isFalse wide =>
      split <;> decide
  · intro r below other
    have pre : r < hdr.loggeds := loggeds_next type.symm hits rfl below (by
      rw [type]
      exact other)
    have counted := loggeds_pos pre
    refine ⟨pre, type, Nat.succ_le_succ (Nat.le_max_left _ _), ?_⟩
    rw [cover]
    unfold Header.cover
    dsimp only
    split at fits
    case isTrue narrow => rw [if_pos fits, if_pos (Nat.max_le.2 ⟨fits, narrow⟩)]
    case isFalse wide =>
      rw [if_neg (Nat.not_le.2 (fits.resolve_right counted))]
      split <;> decide
  · intro _
    unfold Header.width
    dsimp only [InsLog.entry]
    omega

include kept in
private theorem Kept.logIns (admits : (w.headers log.key).AdmitsIns log.size) (k : Nat) :
    Kept (w.logIns log) k := by
  obtain ⟨hits, shape, -⟩ := kept log.key
  have mod : log.size % 32 = log.size :=
    Nat.mod_eq_of_lt (Nat.lt_of_le_of_lt proper.size (by decide))
  unfold World.logIns Header.countIns
  rw [mod, raised]
  by_cases type : (w.headers log.key).type = .ins
  · rw [if_neg (not_not_intro type)]
    exact Kept.enter kept (Enters.ins_again proper hits (shape type) type admits _) k
  · rw [if_pos type]
    exact Kept.enter kept (Enters.ins_anew proper type _) k

end

structure RtnLog.Proper (log : RtnLog) : Prop where
  positive : 0 < log.length
  length : log.length ≤ 32

theorem RtnLog.written (log : RtnLog) (row : Row) (position : Nat) (below : j < log.length) :
    (log.content row).v0 j = (log.entry position).v0 j ∧
      (log.content row).v1 j = (log.entry position).v1 j := by
  unfold RtnLog.entry
  dsimp only
  rw [extend_of_lt below, extend_of_lt below]
  exact @Row.write_of_lt _ log.length j log.ptr1 log.ptr2 below

theorem Enters.rtn_anew {log : RtnLog} (proper : log.Proper) (type : hdr.type ≠ .rtn)
    (attr : Nat) (row : Row) :
    Enters hdr ⟨1, log.length - 1, .rtn, attr⟩ (log.entry 0) (log.content row) := by
  have width : log.length - 1 + 1 = log.length := Nat.sub_add_cancel proper.positive
  refine ⟨rfl, (by decide : 1 < 64), nofun, Nat.le_of_eq width.symm, ?_, ?_, proper.positive,
    fun same => absurd same type, fun _ => width⟩
  · intro j below
    exact log.written _ 0 (Nat.lt_of_lt_of_eq below width)
  · intro r below other
    exact absurd (loggeds_first rfl below) other

theorem Enters.rtn_again {log : RtnLog} (proper : log.Proper) (hits : hdr.hits < 64)
    (type : hdr.type = .rtn) (admits : hdr.AdmitsRtn log.length) (attr : Nat) (row : Row) :
    Enters hdr ⟨(hdr.hits + 1) % 64, max hdr.shape (log.length - 1), .rtn, attr⟩
      (log.entry (hdr.hits % mapRtnH)) (log.content row) := by
  have pos := proper.positive
  have fits := admits type
  have width : max hdr.shape (log.length - 1) + 1 = log.length := by
    unfold Header.width at fits
    omega
  have cover : hdr.cover = hdr.width := by
    unfold Header.cover
    rw [type]
  refine ⟨rfl, Nat.mod_lt _ (by decide), nofun, Nat.le_of_eq width.symm, ?_, ?_, pos, ?_,
    fun ne => absurd type ne⟩
  · intro j below
    exact log.written _ _ (Nat.lt_of_lt_of_eq below width)
  · intro r below other
    have pre : r < hdr.loggeds := loggeds_next type.symm hits rfl below (by
      rw [type]
      exact other)
    have counted := loggeds_pos pre
    have same : hdr.width = log.length := fits.resolve_right (fun wrapped => counted wrapped.1)
    refine ⟨pre, type, Nat.succ_le_succ (Nat.le_max_left _ _), ?_⟩
    rw [cover, same]
    exact Nat.le_of_eq width
  · intro _
    unfold Header.width at *
    dsimp only [RtnLog.entry]
    omega

include kept

private theorem Kept.logRtn {log : RtnLog} (proper : log.Proper)
    (admits : (w.headers log.key).AdmitsRtn log.length) (k : Nat) :
    Kept (w.logRtn log) k := by
  have hits := (kept log.key).hits
  have length := proper.length
  have mod : (log.length - 1) % 32 = log.length - 1 := Nat.mod_eq_of_lt (by omega)
  have raise (shape : Nat) : (if shape < log.length then log.length - 1 else shape) =
      max shape (log.length - 1) := by
    rw [← raised]
    split
    · split
      · rfl
      · omega
    · split
      · omega
      · rfl
  unfold World.logRtn Header.countRtn
  rw [mod, raise]
  by_cases type : (w.headers log.key).type = .rtn
  · rw [type]
    exact Kept.enter kept (Enters.rtn_again proper hits type admits _ _) k
  · rw [if_pos type]
    exact Kept.enter kept (Enters.rtn_anew proper type _ _) k

private theorem Kept.logDerive {record : DeriveRecord}
    (admits : (w.headers record.key).AdmitsDerive) (k : Nat) :
    Kept (w.logDerive record) k := by
  have proper : record.log.Proper := ⟨(by decide : 0 < 8), (by decide : 8 ≤ 32)⟩
  have hits := (kept record.key).hits
  unfold World.logDerive
  dsimp only
  split
  · exact kept k
  case isFalse room =>
    have below : (w.headers record.key).hits < mapRtnH := Nat.lt_of_not_le room
    have fits := admits below
    cases type : (w.headers record.key).type with
    | ins =>
      rw [type] at fits
      rw [fits]
      have ne : (w.headers record.key).type ≠ .rtn := by
        rw [type]
        nofun
      exact Kept.enter kept (Enters.rtn_anew proper ne 0 _) k
    | rtn =>
      rw [type] at fits
      have shape : max (w.headers record.key).shape (record.log.length - 1) = 7 := by
        dsimp only [DeriveRecord.log]
        omega
      have admitted : (w.headers record.key).AdmitsRtn record.log.length := by
        intro _
        unfold Header.width
        dsimp only [DeriveRecord.log]
        omega
      have enters := fun row => Enters.rtn_again proper hits type admitted 0 row
      rw [shape, Nat.mod_eq_of_lt below] at enters
      exact Kept.enter kept (enters _) k

omit kept

def Log.Proper : Log → Prop
  | .ins log => log.Proper
  | .rtn log => log.Proper
  | .sizeDerive _ => True

include kept

variable {log : Log}

private theorem Kept.log_one (proper : log.Proper)
    (admits : w.Admits log) (k : Nat) : Kept (w.log log) k := by
  cases log with
  | ins log => exact Kept.logIns kept proper admits k
  | rtn log => exact Kept.logRtn kept proper admits k
  | sizeDerive record => exact Kept.logDerive kept admits k

theorem Kept.logs (logs : List Log) (proper : ∀ log ∈ logs, log.Proper)
    (admits : Along World.log World.Admits w logs) (k : Nat) :
    Kept (runFrom World.log w logs) k := by
  induction logs generalizing w with
  | nil => exact kept k
  | cons log rest ih =>
    exact ih (Kept.log_one kept (proper _ mem_cons_self) admits.1)
      (fun later mem => proper _ (mem_cons_of_mem _ mem)) admits.2

omit kept

private theorem stringLenWithNul_le (len cap : Nat) : stringLenWithNul len cap ≤ cap := by
  unfold stringLenWithNul
  split <;> omega

variable {rt : Runtime} {returnAddress : Nat} {ptr1 ptr2 : Pointer}

private theorem rtnStrings_proper {limit : Nat} (small : limit ≤ 32)
    (mem : log ∈ rt.rtnStrings limit returnAddress ptr1 ptr2) : log.Proper := by
  unfold Runtime.rtnStrings at mem
  dsimp only at mem
  split at mem
  · cases mem
  · split at mem
    · cases mem
    case isFalse long =>
      rw [mem_singleton.1 mem]
      have first := stringLenWithNul_le (strnlen ptr1.byte
        (min (ptr1.areaIsValid limit) (ptr2.areaIsValid limit)))
        (min (ptr1.areaIsValid limit) (ptr2.areaIsValid limit))
      have second := stringLenWithNul_le (strnlen ptr2.byte
        (min (ptr1.areaIsValid limit) (ptr2.areaIsValid limit)))
        (min (ptr1.areaIsValid limit) (ptr2.areaIsValid limit))
      have area : ptr1.areaIsValid limit ≤ limit := Nat.min_le_right _ _
      constructor
      all_goals
        dsimp only
        omega

private theorem rtnHook_proper (mem : log ∈ rt.rtnHook returnAddress ptr1 ptr2) :
    log.Proper := by
  have least := rt.maxLen_ge
  have most := rt.maxLen_le
  unfold Runtime.rtnHook at mem
  dsimp only at mem
  split at mem
  · cases mem
  case isFalse valid =>
    rw [mem_singleton.1 mem]
    constructor
    all_goals
      dsimp only
      omega

theorem ins_proper {key size attr bytes arg1 arg2 : Nat} (small : size ≤ 15)
    (written : bytes = if size ≤ 7 then 8 else 16) (fits1 : arg1 < 2 ^ (8 * (size + 1)))
    (fits2 : arg2 < 2 ^ (8 * (size + 1))) :
    InsLog.Proper ⟨key, size, attr, bytes, arg1, arg2⟩ := by
  rw [Nat.pow_mul] at fits1 fits2
  exact ⟨small, written, fits1, fits2⟩

private theorem insHook_proper {size returnAddress : Nat} {arg1 arg2 : BitVec (8 * (size + 1))}
    {attr : BitVec 8} {log : Log} (small : size ≤ 7)
    (mem : log ∈ rt.insHook size returnAddress arg1 arg2 attr) : log.Proper := by
  unfold Runtime.insHook at mem
  split at mem
  · cases mem
  · rw [mem_singleton.1 mem]
    exact ins_proper (by omega) (if_pos small).symm arg1.isLt arg2.isLt

/-- Every hook logs what it should, `__cmplog_ins_hookN` if it is told the right size. -/
private theorem logs_proper {call : Call} (typed : call.Typed) (mem : log ∈ rt.logs call) :
    log.Proper := by
  cases call with
  | insHook2 returnAddress arg1 arg2 attr => exact @insHook_proper _ 1 _ _ _ _ _ (by decide) mem
  | insHook4 returnAddress arg1 arg2 attr => exact @insHook_proper _ 3 _ _ _ _ _ (by decide) mem
  | insHook8 returnAddress arg1 arg2 attr => exact @insHook_proper _ 7 _ _ _ _ _ (by decide) mem
  | insHookN returnAddress arg1 arg2 attr size =>
    change log ∈ rt.insHookN returnAddress arg1 arg2 attr size at mem
    unfold Runtime.insHookN at mem
    split at mem
    · cases mem
    · rw [mem_singleton.1 mem]
      refine ⟨typed.1, ?_, typed.2.1, typed.2.2⟩
      split
      case isTrue wide => rw [if_neg (Nat.not_le.2 wide)]
      case isFalse narrow => rw [if_pos (Nat.le_of_not_lt narrow)]
  | insHook16 returnAddress arg1 arg2 attr =>
    change log ∈ rt.insHook16 returnAddress arg1 arg2 attr at mem
    unfold Runtime.insHook16 at mem
    split at mem
    · cases mem
    · rw [mem_singleton.1 mem]
      exact ins_proper (by decide) rfl arg1.isLt arg2.isLt
  | traceSwitch returnAddress val cases =>
    obtain ⟨⟨v, i⟩, -, rfl⟩ := mem_map.1 mem
    exact ins_proper (by decide) rfl val.isLt v.isLt
  | rtnHookStrn returnAddress ptr1 ptr2 len =>
    change log ∈ rt.rtnHookStrn returnAddress ptr1 ptr2 len at mem
    unfold Runtime.rtnHookStrn at mem
    split at mem
    · cases mem
    · exact rtnStrings_proper rt.maxLen_le mem
  | rtnHookStr returnAddress ptr1 ptr2 => exact rtnStrings_proper (Nat.le_refl 32) mem
  | rtnHook returnAddress ptr1 ptr2 => exact rtnHook_proper mem
  | sizeDeriveLog record =>
    change log ∈ rt.sizeDeriveLog record at mem
    unfold Runtime.sizeDeriveLog at mem
    split at mem
    · cases mem
    · rw [mem_singleton.1 mem]
      trivial

private theorem kept_run (calls : List Call)
    (admitted : Along (World.step rt) (World.Admitted rt) (World.initial rows) calls) :
    ∀ k, Kept (runFrom (World.step rt) (World.initial rows) calls) k :=
  runFrom_invariant (fun w => ∀ k, Kept w k) (fun _ call kept guard =>
      Kept.logs kept (rt.logs call) (fun _ mem => logs_proper guard.1 mem) guard.2)
    _ (Kept.initial rows) calls admitted

/-- If every call fits the header it meets, the log is faithful under every key, whatever the
rows held before. -/
theorem cmplog_faithful (rt : Runtime) (rows : Nat → Nat → Row) (calls : List Call)
    (admitted : Along (World.step rt) (World.Admitted rt) (World.initial rows) calls)
    (k : Nat) : (runFrom (World.step rt) (World.initial rows) calls).Faithful k :=
  (kept_run rows calls admitted k).faithful

def staleRows : Nat → Nat → Row := fun _ _ => ⟨fun _ => 255, fun _ => 255, 255, 255, 255⟩

def sampleRuntime : Runtime := ⟨id, 32, true, by decide, by decide⟩

/-- Two instructions and a switch under one key, a string and a size under keys of their own. -/
def sampleCalls : List Call :=
  [.insHook4 5 1 2 0, .insHook8 5 3 4 0, .traceSwitch 5 9 [1, 2],
    .rtnHookStr 9 ⟨4, byteOf 0x6f6f66, 0⟩ ⟨8, byteOf 0x726162, 1⟩,
    .sizeDeriveLog ⟨24, 24, 3, false⟩]

theorem cmplog_faithful_sample :
    Along (World.step sampleRuntime) (World.Admitted sampleRuntime) (World.initial staleRows)
        sampleCalls ∧
      (runFrom (World.step sampleRuntime) (World.initial staleRows) sampleCalls).Faithful 5 :=
  ⟨by decide, cmplog_faithful sampleRuntime staleRows sampleCalls (by decide) 5⟩

def crowdedRuntime : Runtime := ⟨fun _ => 7, 32, true, by decide, by decide⟩

/-- A comparison of 16 bytes, then one of 4 bytes under the same key. -/
def mixedCalls : List Call := [.insHook16 1 1 2 0, .insHook4 2 3 4 0]

/-- The second row is read with 16 bytes, and the upper ones are from an earlier execution. -/
theorem narrow_row_reads_stale_word :
    (∀ call ∈ mixedCalls, call.Typed) ∧
      ¬ (runFrom (World.step crowdedRuntime) (World.initial staleRows) mixedCalls).Faithful 7 := by
  refine ⟨by decide, ?_⟩
  intro faithful
  obtain ⟨_, mem, -, row, -, -, bytes⟩ := faithful.rows 1 (by decide)
  have upper := (bytes 8 (by decide)).1
  rcases mem_cons.1 mem with rfl | pre
  · exact absurd upper (by decide)
  · rw [mem_singleton.1 pre] at row
    exact absurd row (by decide)

end AflPlusPlus.CmpLog
