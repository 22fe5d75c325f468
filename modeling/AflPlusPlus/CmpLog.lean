/-
The comparison log of the target.

The header of a key counts the hits, keeps the largest width and says whether its rows
hold instructions or routines.  The rows are shared, and a logger writes only as much of
a row as it needs.

The map is attached.  What is known about the logged comparisons, `logged` and `widths`, is
carried along and read by no logger.
-/

import AflPlusPlus.InputToState

namespace AflPlusPlus.CmpLog

open Machine

def mapW : Nat := 65536

def mapH : Nat := 32

def mapRtnH : Nat := mapH / 2

/-- `struct cmp_header`: six bits of hits, five of shape and four of `attribute`. -/
structure Header where
  hits : Nat
  shape : Nat
  type : CmpType
  attr : Nat
  deriving DecidableEq

/-- A row as bytes.  The words `v0` and `v0_128` of an instruction are the first 16 bytes of
`v0` of a routine, and the same for `v1`. -/
structure Row where
  v0 : Nat → Nat
  v1 : Nat → Nat
  v0Len : Nat
  v1Len : Nat
  addrAttr : Nat

def byteOf (n j : Nat) : Nat := n / 256 ^ j % 256

def Row.write (row : Row) (count : Nat) (bytes0 bytes1 : Nat → Nat) : Row :=
  { row with
    v0 := fun j => if j < count then bytes0 j else row.v0 j
    v1 := fun j => if j < count then bytes1 j else row.v1 j }

def extend (width : Nat) (bytes : Nat → Nat) : Nat → Nat :=
  fun j => if j < width then bytes j else 0

structure Logged where
  key : Nat
  row : Nat
  type : CmpType
  width : Nat
  v0 : Nat → Nat
  v1 : Nat → Nat

/-- The map; `logged` is what was logged in this execution and `widths` are the widths that
were logged under a key since its type was set. -/
structure World where
  headers : Nat → Header
  rows : Nat → Nat → Row
  logged : List Logged
  widths : Nat → List Nat

def World.initial (rows : Nat → Nat → Row) : World :=
  { headers := fun _ => ⟨0, 0, .ins, 0⟩
    rows := rows
    logged := []
    widths := fun _ => [] }

def World.enter (w : World) (hdr : Header) (entry : Logged) (content : Row) : World :=
  { headers := Function.update w.headers entry.key hdr
    rows := Function.update w.rows entry.key
      (Function.update (w.rows entry.key) entry.row content)
    logged := entry :: w.logged
    widths := Function.update w.widths entry.key
      (if (w.headers entry.key).type = entry.type then entry.width :: w.widths entry.key
      else [entry.width]) }

/-- What an instruction hook logs: `bytes` is 8, or 16 if it writes the upper words too. -/
structure InsLog where
  key : Nat
  size : Nat
  attr : Nat
  bytes : Nat
  arg1 : Nat
  arg2 : Nat

/-- The row and the new header; the lines are the same in all instruction hooks. -/
def Header.countIns (hdr : Header) (size attr : Nat) : Nat × Header :=
  if hdr.type ≠ .ins then
    (0, { type := .ins, hits := 1, shape := size % 32, attr := attr % 16 })
  else
    (hdr.hits % mapH,
      { type := .ins
        hits := (hdr.hits + 1) % 64
        shape := if hdr.shape < size then size % 32 else hdr.shape
        attr := attr % 16 })

def InsLog.entry (log : InsLog) (row : Nat) : Logged :=
  ⟨log.key, row, .ins, log.size + 1, extend (log.size + 1) (byteOf log.arg1),
    extend (log.size + 1) (byteOf log.arg2)⟩

def World.logIns (w : World) (log : InsLog) : World :=
  let (row, hdr) := (w.headers log.key).countIns log.size log.attr
  w.enter hdr (log.entry row)
    ((w.rows log.key row).write log.bytes (byteOf log.arg1) (byteOf log.arg2))

structure RtnLog where
  key : Nat
  length : Nat
  v0Len : Nat
  v1Len : Nat
  ptr1 : Nat → Nat
  ptr2 : Nat → Nat
  addrAttr : Nat

/-- The row and the new header; the lines are the same in all routine hooks. -/
def Header.countRtn (hdr : Header) (length : Nat) : Nat × Header :=
  if hdr.type ≠ .rtn then
    (0, { hdr with type := .rtn, hits := 1, shape := (length - 1) % 32 })
  else
    (hdr.hits % mapRtnH, { hdr with
        hits := (hdr.hits + 1) % 64
        shape := if hdr.shape < length then (length - 1) % 32 else hdr.shape })

def RtnLog.entry (log : RtnLog) (row : Nat) : Logged :=
  ⟨log.key, row, .rtn, log.length, extend log.length log.ptr1, extend log.length log.ptr2⟩

def RtnLog.content (log : RtnLog) (row : Row) : Row :=
  { row.write log.length log.ptr1 log.ptr2 with
    v0Len := log.v0Len
    v1Len := log.v1Len
    addrAttr := log.addrAttr }

def World.logRtn (w : World) (log : RtnLog) : World :=
  let (row, hdr) := (w.headers log.key).countRtn log.length
  w.enter hdr (log.entry row) (log.content (w.rows log.key row))

structure DeriveRecord where
  size : BitVec 64
  maxObservedOff : BitVec 64
  allocSiteId : BitVec 32
  deriveLogged : Bool

def DeriveRecord.key (record : DeriveRecord) : Nat :=
  let lg := if record.size = 0 then 0 else Nat.log2 record.size.toNat + 1
  ((record.allocSiteId.toNat * 2654435761 % 2 ^ 32) ^^^ (lg * 1597334677 % 2 ^ 32)) % mapW

def DeriveRecord.log (record : DeriveRecord) : RtnLog :=
  ⟨record.key, 8, 8, 8, byteOf record.size.toNat, byteOf record.maxObservedOff.toNat, 0⟩

/-- The lines of `__afl_size_derive_log` behind its first checks.  The count of the hits goes
on, whatever the type was. -/
def World.logDerive (w : World) (record : DeriveRecord) : World :=
  let h := w.headers record.key
  if h.hits ≥ mapRtnH then w
  else
    w.enter { type := .rtn, shape := 7, attr := 0, hits := (h.hits + 1) % 64 }
      (record.log.entry h.hits) (record.log.content (w.rows record.key h.hits))

inductive Log
  | ins (log : InsLog)
  | rtn (log : RtnLog)
  | sizeDerive (record : DeriveRecord)

def World.log (w : World) : Log → World
  | .ins log => w.logIns log
  | .rtn log => w.logRtn log
  | .sizeDerive record => w.logDerive record

/-- `default_hash` of an address, `__afl_cmplog_max_len` and `__afl_size_derive_active`. -/
structure Runtime where
  hash : Nat → Nat
  maxLen : Nat
  sizeDeriveActive : Bool
  maxLen_ge : 16 ≤ maxLen
  maxLen_le : maxLen ≤ 32

variable (rt : Runtime)

def Runtime.key (addr : Nat) : Nat := rt.hash (addr % 2 ^ 64) % mapW

def Runtime.insHook {width : Nat} (size returnAddress : Nat) (arg1 arg2 : BitVec width)
    (attr : BitVec 8) : List Log :=
  if arg1 = arg2 then []
  else [.ins ⟨rt.key returnAddress, size, attr.toNat, 8, arg1.toNat, arg2.toNat⟩]

def Runtime.insHook2 := @Runtime.insHook rt 16 1

def Runtime.insHook4 := @Runtime.insHook rt 32 3

def Runtime.insHook8 := @Runtime.insHook rt 64 7

def Runtime.insHookN (returnAddress : Nat) (arg1 arg2 : BitVec 128) (attr size : BitVec 8) :
    List Log :=
  if arg1 = arg2 ∨ size.toNat > rt.maxLen then []
  else [.ins ⟨rt.key returnAddress, size.toNat, attr.toNat,
    if size.toNat > 7 then 16 else 8, arg1.toNat, arg2.toNat⟩]

/-- `__cmplog_ins_hook16`, which logs equal operands too. -/
def Runtime.insHook16 (returnAddress : Nat) (arg1 arg2 : BitVec 128) (attr : BitVec 8) :
    List Log :=
  if 16 > rt.maxLen then []
  else [.ins ⟨rt.key returnAddress, 15, attr.toNat, 16, arg1.toNat, arg2.toNat⟩]

/-- `__sanitizer_cov_trace_switch`: every case has a key of its own. -/
def Runtime.traceSwitch (returnAddress : Nat) (val : BitVec 64) (cases : List (BitVec 64)) :
    List Log :=
  cases.zipIdx.map fun (v, i) =>
    .ins ⟨rt.key (returnAddress + i), 7, 1, 8, val.toNat, v.toNat⟩

/-- What a pointer points to: `reach` bytes can be read, none for a null pointer. -/
structure Pointer where
  reach : Nat
  byte : Nat → Nat
  attr : Nat

def Pointer.areaIsValid (ptr : Pointer) (len : Nat) : Nat := min ptr.reach len

def strnlen (byte : Nat → Nat) (cap : Nat) : Nat :=
  ((List.range cap).find? (fun j => byte j = 0)).getD cap

def stringLenWithNul (len cap : Nat) : Nat := if len < cap then len + 1 else cap

def addrAttrCombine (attr1 attr2 : Nat) : Nat := attr1 % 4 + attr2 % 4 * 4

/-- The common lines of `__cmplog_rtn_hook_strn` and `__cmplog_rtn_hook_str`. -/
def Runtime.rtnStrings (limit returnAddress : Nat) (ptr1 ptr2 : Pointer) : List Log :=
  let l1 := ptr1.areaIsValid limit
  let l2 := ptr2.areaIsValid limit
  if l1 = 0 ∨ l2 = 0 then []
  else
    let cap := min l1 l2
    let len1 := stringLenWithNul (strnlen ptr1.byte cap) cap
    let len2 := stringLenWithNul (strnlen ptr2.byte cap) cap
    let l := max len1 len2
    if l < 2 then []
    else [.rtn ⟨rt.key returnAddress, l, 0x80 + len1, 0x80 + len2, ptr1.byte, ptr2.byte,
      addrAttrCombine ptr1.attr ptr2.attr⟩]

def Runtime.rtnHookStrn (returnAddress : Nat) (ptr1 ptr2 : Pointer) (len : BitVec 64) :
    List Log :=
  if len = 0 then [] else rt.rtnStrings rt.maxLen returnAddress ptr1 ptr2

def Runtime.rtnHookStr (returnAddress : Nat) (ptr1 ptr2 : Pointer) : List Log :=
  rt.rtnStrings 32 returnAddress ptr1 ptr2

def Runtime.rtnHook (returnAddress : Nat) (ptr1 ptr2 : Pointer) : List Log :=
  let l1 := ptr1.areaIsValid 32
  let l2 := ptr2.areaIsValid 32
  if l1 = 0 ∨ l2 = 0 then []
  else
    let len := min rt.maxLen (min l1 l2)
    [.rtn ⟨rt.key returnAddress, len, len, len, ptr1.byte, ptr2.byte,
      addrAttrCombine ptr1.attr ptr2.attr⟩]

def Runtime.sizeDeriveLog (record : DeriveRecord) : List Log :=
  if rt.sizeDeriveActive = false ∨ record.deriveLogged = true ∨ record.size = 0 then []
  else [.sizeDerive record]

inductive Call
  | insHook2 (returnAddress : Nat) (arg1 arg2 : BitVec 16) (attr : BitVec 8)
  | insHook4 (returnAddress : Nat) (arg1 arg2 : BitVec 32) (attr : BitVec 8)
  | insHook8 (returnAddress : Nat) (arg1 arg2 : BitVec 64) (attr : BitVec 8)
  | insHookN (returnAddress : Nat) (arg1 arg2 : BitVec 128) (attr size : BitVec 8)
  | insHook16 (returnAddress : Nat) (arg1 arg2 : BitVec 128) (attr : BitVec 8)
  | traceSwitch (returnAddress : Nat) (val : BitVec 64) (cases : List (BitVec 64))
  | rtnHookStrn (returnAddress : Nat) (ptr1 ptr2 : Pointer) (len : BitVec 64)
  | rtnHookStr (returnAddress : Nat) (ptr1 ptr2 : Pointer)
  | rtnHook (returnAddress : Nat) (ptr1 ptr2 : Pointer)
  | sizeDeriveLog (record : DeriveRecord)

def Runtime.logs : Call → List Log
  | .insHook2 returnAddress arg1 arg2 attr => rt.insHook2 returnAddress arg1 arg2 attr
  | .insHook4 returnAddress arg1 arg2 attr => rt.insHook4 returnAddress arg1 arg2 attr
  | .insHook8 returnAddress arg1 arg2 attr => rt.insHook8 returnAddress arg1 arg2 attr
  | .insHookN returnAddress arg1 arg2 attr size =>
    rt.insHookN returnAddress arg1 arg2 attr size
  | .insHook16 returnAddress arg1 arg2 attr => rt.insHook16 returnAddress arg1 arg2 attr
  | .traceSwitch returnAddress val cases => rt.traceSwitch returnAddress val cases
  | .rtnHookStrn returnAddress ptr1 ptr2 len => rt.rtnHookStrn returnAddress ptr1 ptr2 len
  | .rtnHookStr returnAddress ptr1 ptr2 => rt.rtnHookStr returnAddress ptr1 ptr2
  | .rtnHook returnAddress ptr1 ptr2 => rt.rtnHook returnAddress ptr1 ptr2
  | .sizeDeriveLog record => rt.sizeDeriveLog record

def World.step (w : World) (call : Call) : World :=
  runFrom World.log w (rt.logs call)

def rowLimit : CmpType → Nat
  | .ins => mapH
  | .rtn => mapRtnH

def Header.loggeds (hdr : Header) : Nat := min hdr.hits (rowLimit hdr.type)

/-- `SHAPE_BYTES` of the header. -/
def Header.width (hdr : Header) : Nat := hdr.shape + 1

/-- Every row that is read was written by a logger of the header's type, and holds, at the
header's width, the operands of one comparison logged there; and the header has the largest
width that was logged since its type was set. -/
structure World.Faithful (w : World) (k : Nat) : Prop where
  rows : ∀ r < (w.headers k).loggeds, ∃ entry ∈ w.logged,
    entry.key = k ∧ entry.row = r ∧ entry.type = (w.headers k).type ∧
      entry.width ≤ (w.headers k).width ∧
      ∀ j < (w.headers k).width, (w.rows k r).v0 j = entry.v0 j ∧ (w.rows k r).v1 j = entry.v1 j
  widths : w.widths k ≠ [] → (w.headers k).width ∈ w.widths k ∧
      ∀ width ∈ w.widths k, width ≤ (w.headers k).width

/-- Narrow and wide operands do not meet under one key: a wide one may follow narrow ones only
when no row of theirs is read any more. -/
def Header.AdmitsIns (hdr : Header) (size : Nat) : Prop :=
  hdr.type = .ins →
    if size ≤ 7 then hdr.shape ≤ 7 else 7 < hdr.shape ∨ hdr.hits = 0

def Header.AdmitsRtn (hdr : Header) (length : Nat) : Prop :=
  hdr.type = .rtn → hdr.width = length ∨ (hdr.hits = 0 ∧ hdr.width ≤ length)

/-- A size is logged under a key without instruction rows, and with 8-byte routine rows only. -/
def Header.AdmitsDerive (hdr : Header) : Prop :=
  hdr.hits < mapRtnH →
    match hdr.type with
    | .ins => hdr.hits = 0
    | .rtn => hdr.shape = 7 ∨ (hdr.hits = 0 ∧ hdr.shape ≤ 7)

def World.Admits (w : World) : Log → Prop
  | .ins log => (w.headers log.key).AdmitsIns log.size
  | .rtn log => (w.headers log.key).AdmitsRtn log.length
  | .sizeDerive record => (w.headers record.key).AdmitsDerive

/-- The operands of `__cmplog_ins_hookN` have the size it is told, which is at most 16 bytes. -/
def Call.Typed : Call → Prop
  | .insHookN _ arg1 arg2 _ size =>
    size.toNat ≤ 15 ∧ arg1.toNat < 256 ^ (size.toNat + 1) ∧ arg2.toNat < 256 ^ (size.toNat + 1)
  | _ => True

def World.Admitted (w : World) (call : Call) : Prop :=
  call.Typed ∧ Along World.log World.Admits w (rt.logs call)

instance (hdr : Header) (size : Nat) : Decidable (hdr.AdmitsIns size) :=
  inferInstanceAs (Decidable (hdr.type = .ins →
    if size ≤ 7 then hdr.shape ≤ 7 else 7 < hdr.shape ∨ hdr.hits = 0))

instance (hdr : Header) (length : Nat) : Decidable (hdr.AdmitsRtn length) :=
  inferInstanceAs (Decidable (_ → _))

instance : (hdr : Header) → Decidable hdr.AdmitsDerive
  | ⟨_, _, .ins, _⟩ => inferInstanceAs (Decidable (_ → _ = _))
  | ⟨_, _, .rtn, _⟩ => inferInstanceAs (Decidable (_ → _ ∨ _))

instance (w : World) : (log : Log) → Decidable (w.Admits log)
  | .ins log => inferInstanceAs (Decidable ((w.headers log.key).AdmitsIns log.size))
  | .rtn log => inferInstanceAs (Decidable ((w.headers log.key).AdmitsRtn log.length))
  | .sizeDerive record => inferInstanceAs (Decidable (w.headers record.key).AdmitsDerive)

instance : (call : Call) → Decidable call.Typed
  | .insHookN _ _ _ _ _ => inferInstanceAs (Decidable (_ ∧ _ ∧ _))
  | .insHook2 .. | .insHook4 .. | .insHook8 .. | .insHook16 .. | .traceSwitch ..
  | .rtnHookStrn .. | .rtnHookStr .. | .rtnHook .. | .sizeDeriveLog .. =>
    inferInstanceAs (Decidable True)

instance (w : World) (call : Call) : Decidable (w.Admitted rt call) :=
  inferInstanceAs (Decidable (_ ∧ _))

end AflPlusPlus.CmpLog
