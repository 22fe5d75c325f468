/-
The message queue of afl-cmin.

Messages are written one after the other into a ring of bytes shared by all
workers: a type, a length, and the payload.  Headers and payloads may run over
the end of the ring.  The queue is a list of messages.
-/

import AflPlusPlus.Machine.Format
import AflPlusPlus.Machine.RingBuffer
import AflPlusPlus.Machine.Tally

namespace AflPlusPlus.Cmin

open Machine List

structure CminQueue where
  head : Nat
  tail : Nat
  size : Nat
  capacity : Nat
  buf : Buffer

def queueInit (cap : Nat) : CminQueue where
  head := 0
  tail := 0
  size := 0
  capacity := cap
  buf := fun _ => 0

def queueCapacity : Nat := 64 * 1024 * 1024

/-- Write at a position; the result is the queue and the position behind. -/
def queueWrite (queue : CminQueue) (src : List Byte) (tail : Nat) : CminQueue × Nat :=
  let part1 := queue.capacity - tail
  if src.length ≤ part1 then
    ({ queue with buf := memcpy queue.buf tail src }, (tail + src.length) % queue.capacity)
  else
    ({ queue with buf := memcpy (memcpy queue.buf tail (src.take part1)) 0 (src.drop part1) },
      src.length - part1)

def queueRead (queue : CminQueue) (len head : Nat) : List Byte × Nat :=
  let part1 := queue.capacity - head
  if len ≤ part1 then (block queue.buf head len, (head + len) % queue.capacity)
  else (block queue.buf head part1 ++ block queue.buf 0 (len - part1), len - part1)

structure Message where
  type : BitVec 32
  data : List Byte
  deriving DecidableEq

def queueMsgData : BitVec 32 := 1
def queueMsgStop : BitVec 32 := 2

def u32Bytes (v : BitVec 32) : List Byte := (Format.word 4).write v

def u32Of (bytes : List Byte) : BitVec 32 :=
  match (Format.word 4).read bytes with
  | some (v, _) => v
  | none => 0

def packetLen (len : Nat) : Nat := u32 (4 * 2 + len)

/-- What a pass through a critical section comes to: the process dies, waits for
its condition, or is through. -/
inductive Turn (Result : Type) where
  | fatal
  | wait
  | done (res : Result)

def queuePush (queue : CminQueue) (msg : Message) : Turn CminQueue :=
  let len := msg.data.length
  if queue.capacity < packetLen len then .fatal
  else if queue.capacity - queue.size < packetLen len then .wait
  else
    let (queue, tail) := queueWrite queue (u32Bytes msg.type) queue.tail
    let (queue, tail) := queueWrite queue (u32Bytes (BitVec.ofNat 32 len)) tail
    let (queue, tail) := if 0 < len then queueWrite queue msg.data tail else (queue, tail)
    .done { queue with tail := tail, size := u32 (queue.size + packetLen len) }

def queuePop (queue : CminQueue) (maxLen : Nat) : Turn (Message × CminQueue) :=
  if queue.size = 0 then .wait
  else
    let (type, head) := queueRead queue 4 queue.head
    let (lenBytes, head) := queueRead queue 4 head
    let len := (u32Of lenBytes).toNat
    if maxLen < len then .fatal
    else
      let (data, head) := if 0 < len then queueRead queue len head else ([], head)
      .done (⟨u32Of type, data⟩,
        { queue with head := head, size := u32 (queue.size + 2 ^ 32 - packetLen len) })

def Message.bytes (msg : Message) : List Byte :=
  u32Bytes msg.type ++ (u32Bytes (BitVec.ofNat 32 msg.data.length) ++ msg.data)

variable (v : BitVec 32)

@[simp] theorem length_u32Bytes : (u32Bytes v).length = 4 :=
  length_blockBytes 4 _

@[simp] theorem u32Of_u32Bytes : u32Of (u32Bytes v) = v := by
  have back := (Format.word 4).read_write v []
  rw [append_nil] at back
  simp only [u32Of, u32Bytes, back]

@[simp] theorem Message.length_bytes (msg : Message) :
    msg.bytes.length = 8 + msg.data.length := by
  simp only [Message.bytes, length_append, length_u32Bytes]
  omega

theorem packetLen_eq {len : Nat} (short : 8 + len < 2 ^ 32) : packetLen len = 8 + len :=
  Nat.mod_eq_of_lt short

variable {queue : CminQueue}

private theorem queueWrite_eq {src : List Byte} {tail : Nat} (inside : tail < queue.capacity)
    (fits : src.length ≤ queue.capacity) :
    queueWrite queue src tail = ({ queue with buf := inscribe queue.capacity queue.buf tail src },
        (tail + src.length) % queue.capacity) := by
  unfold queueWrite
  by_cases whole : src.length ≤ queue.capacity - tail
  · rw [if_pos whole, memcpy_eq_inscribe queue.capacity (by omega)]
  · rw [if_neg whole]
    have ends : src.length - (queue.capacity - tail) = (tail + src.length) % queue.capacity := by
      rw [Nat.mod_eq_sub_mod (by omega), Nat.mod_eq_of_lt (by omega)]
      omega
    have around : tail + (src.take (queue.capacity - tail)).length = queue.capacity := by
      rw [length_take]
      omega
    have written : inscribe queue.capacity queue.buf tail src =
        memcpy (memcpy queue.buf tail (src.take (queue.capacity - tail))) 0
          (src.drop (queue.capacity - tail)) := by
      rw [memcpy_eq_inscribe queue.capacity (by rw [length_drop]; omega),
        memcpy_eq_inscribe queue.capacity (by omega)]
      rw [← inscribe_mod 0, Nat.zero_mod, ← Nat.mod_self queue.capacity, inscribe_mod]
      conv_lhs => rw [← take_append_drop (queue.capacity - tail) src, inscribe_append, around]
    rw [written, ends]

private theorem queueRead_eq {len head : Nat} (inside : head < queue.capacity)
    (fits : len ≤ queue.capacity) :
    queueRead queue len head =
      (stretch queue.capacity queue.buf head len, (head + len) % queue.capacity) := by
  unfold queueRead
  by_cases whole : len ≤ queue.capacity - head
  · rw [if_pos whole, block_eq_stretch queue.capacity (by omega)]
  · rw [if_neg whole]
    have ends : len - (queue.capacity - head) = (head + len) % queue.capacity := by
      rw [Nat.mod_eq_sub_mod (by omega), Nat.mod_eq_of_lt (by omega)]
      omega
    have parts : len = (queue.capacity - head) + (len - (queue.capacity - head)) := by omega
    have around : head + (queue.capacity - head) = queue.capacity := by omega
    have read : stretch queue.capacity queue.buf head len =
        block queue.buf head (queue.capacity - head) ++
          block queue.buf 0 (len - (queue.capacity - head)) := by
      rw [block_eq_stretch queue.capacity (by omega), block_eq_stretch queue.capacity (by omega)]
      have behind : stretch queue.capacity queue.buf queue.capacity
          (len - (queue.capacity - head)) =
            stretch queue.capacity queue.buf 0 (len - (queue.capacity - head)) := by
        rw [← stretch_mod, Nat.mod_self]
      conv_lhs => rw [parts, stretch_append, around, behind]
    rw [read, ends]

structure Contains (queue : CminQueue) (messages : List Message) : Prop where
  small : queue.capacity < 2 ^ 32
  inside : queue.head < queue.capacity
  room : queue.size ≤ queue.capacity
  tail : queue.tail = (queue.head + queue.size) % queue.capacity
  bytes : stretch queue.capacity queue.buf queue.head queue.size = messages.flatMap Message.bytes

theorem Contains.init {cap : Nat} (pos : 0 < cap) (small : cap < 2 ^ 32) :
    Contains (queueInit cap) [] where
  small := small
  inside := pos
  room := Nat.zero_le cap
  tail := (Nat.zero_mod cap).symm
  bytes := rfl

variable {messages : List Message} {msg : Message}

theorem Contains.size_eq (contains : Contains queue messages) :
    queue.size = (messages.flatMap Message.bytes).length := by
  rw [← contains.bytes, length_stretch]

variable {rest : List Message} (contains : Contains queue (msg :: rest))

include contains in
theorem Contains.size_cons :
    queue.size = 8 + msg.data.length + (rest.flatMap Message.bytes).length := by
  rw [contains.size_eq, flatMap_cons, length_append, msg.length_bytes]

theorem Contains.size_eq_zero_iff (contains : Contains queue messages) :
    queue.size = 0 ↔ messages = [] := by
  cases messages with
  | nil => simp [contains.size_eq]
  | cons msg rest =>
    simp only [contains.size_cons, reduceCtorEq, iff_false]
    omega

private theorem queuePush_written (msg : Message) (inside : queue.tail < queue.capacity)
    (fits : 8 + msg.data.length ≤ queue.capacity - queue.size)
    (small : queue.capacity < 2 ^ 32) :
    queuePush queue msg = .done { queue with
        buf := inscribe queue.capacity queue.buf queue.tail msg.bytes
        tail := (queue.tail + msg.bytes.length) % queue.capacity
        size := queue.size + msg.bytes.length } := by
  have packet : packetLen msg.data.length = 8 + msg.data.length := packetLen_eq (by omega)
  have kept : u32 (queue.size + (8 + msg.data.length)) = queue.size + msg.bytes.length := by
    rw [msg.length_bytes]
    exact Nat.mod_eq_of_lt (by omega)
  have around (position : Nat) : position % queue.capacity < queue.capacity :=
    Nat.mod_lt _ (by omega)
  -- the buffer and the position after the type, and after the length
  let typed := inscribe queue.capacity queue.buf queue.tail (u32Bytes msg.type)
  let headed := inscribe queue.capacity typed ((queue.tail + 4) % queue.capacity)
    (u32Bytes (BitVec.ofNat 32 msg.data.length))
  have first : queueWrite queue (u32Bytes msg.type) queue.tail =
      ({ queue with buf := typed }, (queue.tail + 4) % queue.capacity) :=
    queueWrite_eq inside (by rw [length_u32Bytes]; omega)
  have second : queueWrite { queue with buf := typed }
      (u32Bytes (BitVec.ofNat 32 msg.data.length)) ((queue.tail + 4) % queue.capacity) =
        ({ queue with buf := headed }, ((queue.tail + 4) % queue.capacity + 4) % queue.capacity) :=
    queueWrite_eq (around _) (by simp only [length_u32Bytes]; omega)
  have third : (if 0 < msg.data.length then
        queueWrite { queue with buf := headed } msg.data
          (((queue.tail + 4) % queue.capacity + 4) % queue.capacity)
      else ({ queue with buf := headed },
        ((queue.tail + 4) % queue.capacity + 4) % queue.capacity)) =
      ({ queue with buf := inscribe queue.capacity queue.buf queue.tail msg.bytes },
        (queue.tail + msg.bytes.length) % queue.capacity) := by
    have buffer : inscribe queue.capacity queue.buf queue.tail msg.bytes =
        inscribe queue.capacity headed (queue.tail + 4 + 4) msg.data := by
      simp [headed, typed, Message.bytes, inscribe_append]
    have position : (queue.tail + msg.bytes.length) % queue.capacity =
        (queue.tail + 4 + 4 + msg.data.length) % queue.capacity := by
      rw [msg.length_bytes]
      congr 1
      omega
    rw [Nat.mod_add_mod, buffer, position]
    by_cases payload : 0 < msg.data.length
    · have last := @queueWrite_eq { queue with buf := headed } msg.data
        ((queue.tail + 4 + 4) % queue.capacity) (around _) (by simp only; omega)
      rw [if_pos payload, last]
      simp
    · have nothing : msg.data = [] := length_eq_zero_iff.1 (by omega)
      rw [nothing]
      rfl
  simp only [queuePush, packet]
  rw [if_neg (by omega), if_neg (by omega)]
  simp only [first, second, third, kept]

theorem Contains.push (contains : Contains queue messages) (short : 8 + msg.data.length < 2 ^ 32) :
    queuePush queue msg = .fatal ∧ queue.capacity < msg.bytes.length ∨
    queuePush queue msg = .wait ∧ msg.bytes.length ≤ queue.capacity ∧
      queue.capacity - queue.size < msg.bytes.length ∨
    ∃ later, queuePush queue msg = .done later ∧ later.capacity = queue.capacity ∧
      Contains later (messages ++ [msg]) := by
  have packet := packetLen_eq short
  rw [msg.length_bytes]
  by_cases large : queue.capacity < 8 + msg.data.length
  · refine .inl ⟨?_, large⟩
    simp only [queuePush, packet, if_pos large]
  · by_cases full : queue.capacity - queue.size < 8 + msg.data.length
    · refine .inr (.inl ⟨?_, by omega, full⟩)
      simp only [queuePush, packet, if_neg large, if_pos full]
    · have tailInside : queue.tail < queue.capacity := by
        rw [contains.tail]
        exact Nat.mod_lt _ (by omega)
      have written := queuePush_written msg tailInside (by omega) contains.small
      refine .inr (.inr ⟨_, written, rfl, ?_⟩)
      exact
        { small := contains.small
          inside := contains.inside
          room := by
            change queue.size + msg.bytes.length ≤ queue.capacity
            rw [msg.length_bytes]
            omega
          tail := by
            rw [contains.tail, Nat.mod_add_mod, Nat.add_assoc]
          bytes := by
            change stretch queue.capacity
              (inscribe queue.capacity queue.buf queue.tail msg.bytes) queue.head
                (queue.size + msg.bytes.length) = _
            rw [contains.tail, inscribe_mod, stretch_append,
              stretch_inscribe_behind (by rw [msg.length_bytes]; omega),
              stretch_inscribe (by rw [msg.length_bytes]; omega), contains.bytes]
            simp }

include contains in
theorem Contains.pop {maxLen : Nat} (fits : msg.data.length ≤ maxLen) :
    ∃ later, queuePop queue maxLen = .done (msg, later) ∧
      later.capacity = queue.capacity ∧ Contains later rest := by
  have size := contains.size_cons
  have small := contains.small
  have room := contains.room
  have whole := contains.bytes
  have around (position : Nat) : position % queue.capacity < queue.capacity :=
    Nat.mod_lt _ (by omega)
  -- the stretch in use falls into the header, the payload and the other messages
  have parts : queue.size = 4 + (4 + (msg.data.length + (rest.flatMap Message.bytes).length)) := by
    omega
  rw [parts, stretch_append, stretch_append, stretch_append, flatMap_cons, Message.bytes,
    append_assoc, append_assoc] at whole
  obtain ⟨typeRead, whole⟩ := append_inj whole (by simp)
  obtain ⟨lenRead, whole⟩ := append_inj whole (by simp)
  obtain ⟨dataRead, restRead⟩ := append_inj whole (by simp)
  have lenBack : (BitVec.ofNat 32 msg.data.length).toNat = msg.data.length := by
    exact Nat.mod_eq_of_lt (by omega)
  have left : u32 (queue.size + 2 ^ 32 - packetLen msg.data.length) =
      (rest.flatMap Message.bytes).length := by
    have wrapped : queue.size + 2 ^ 32 - (8 + msg.data.length) =
        (rest.flatMap Message.bytes).length + 2 ^ 32 := by omega
    rw [packetLen_eq (by omega), wrapped, u32, Nat.add_mod_right]
    exact Nat.mod_eq_of_lt (by omega)
  have data : (if 0 < msg.data.length then
        queueRead queue msg.data.length ((queue.head + 4 + 4) % queue.capacity)
      else ([], (queue.head + 4 + 4) % queue.capacity)) =
      (msg.data, (queue.head + 4 + 4 + msg.data.length) % queue.capacity) := by
    by_cases payload : 0 < msg.data.length
    · rw [if_pos payload, queueRead_eq (around _) (by omega), stretch_mod, dataRead,
        Nat.mod_add_mod]
    · have nothing : msg.data = [] := length_eq_zero_iff.1 (by omega)
      rw [if_neg payload, nothing, length_nil]
  refine ⟨{ queue with
    head := (queue.head + 4 + 4 + msg.data.length) % queue.capacity
    size := (rest.flatMap Message.bytes).length }, ?_, rfl, ?_⟩
  · unfold queuePop
    rw [if_neg (by omega), queueRead_eq contains.inside (by omega)]
    simp only
    rw [queueRead_eq (around _) (by omega), stretch_mod, Nat.mod_add_mod, typeRead, lenRead]
    simp only [u32Of_u32Bytes]
    rw [lenBack, if_neg (by omega), left, data]
  · exact
      { small := small
        inside := around _
        room := by
          simp only
          omega
        tail := by
          simp only
          rw [contains.tail, Nat.mod_add_mod]
          congr 1
          omega
        bytes := by
          simp only [stretch_mod]
          exact restRead }

theorem Contains.pop_nil (contains : Contains queue []) (maxLen : Nat) :
    queuePop queue maxLen = .wait := by
  unfold queuePop
  rw [if_pos (contains.size_eq_zero_iff.2 rfl)]

end AflPlusPlus.Cmin
