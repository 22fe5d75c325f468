/-
Two programs that talk over a pair of pipes.

A pipe holds a limited number of bytes, and it may split what a program writes or reads.
If each of two programs, however the pipes split, does what a common list of events
says, seen from its own side, then in every order of their steps they end with the
results of the list, with nothing left in the pipes.
-/

import Mathlib.Data.List.Basic
import Mathlib.Data.List.TakeDrop

namespace AflPlusPlus.Machine

/-- A program that reads from one pipe and writes to another.  With `whole` the pipe
takes all of `data`, or hands out all it holds up to `count`; otherwise it may take or
hand out fewer bytes, but at least one.  The program goes on with how many bytes were
taken, or with those that were handed out. -/
inductive PipeProgram (Byte Error Result : Type) : Type
  | done (res : Result)
  | fail (error : Error)
  | write (whole : Bool) (data : List Byte) (next : Nat → PipeProgram Byte Error Result)
  | read (whole : Bool) (count : Nat) (next : List Byte → PipeProgram Byte Error Result)

/-- One part of a conversation, seen from one side: bytes that are never split. -/
inductive PipeEvent (Byte : Type) : Type
  | sent (atom : List Byte)
  | got (atom : List Byte)

namespace PipeEvent

variable {Byte : Type}

def flip : PipeEvent Byte → PipeEvent Byte
  | .sent atom => .got atom
  | .got atom => .sent atom

def atom : PipeEvent Byte → List Byte
  | .sent atom => atom
  | .got atom => atom

variable (event : PipeEvent Byte)

@[simp] theorem flip_flip : event.flip.flip = event := by
  cases event <;> rfl

@[simp] theorem atom_flip : event.flip.atom = event.atom := by
  cases event <;> rfl

private theorem map_flip_flip (events : List (PipeEvent Byte)) :
    (events.map flip).map flip = events := by
  rw [List.map_map]
  exact (List.map_congr_left (fun event _ => flip_flip _)).trans (List.map_id _)

def sentByte (byte : Byte) : PipeEvent Byte := .sent [byte]

def gotByte (byte : Byte) : PipeEvent Byte := .got [byte]

end PipeEvent

namespace PipeProgram

open PipeEvent

variable {Byte Error Result Other : Type}

def bind (next : Result → PipeProgram Byte Error Other) :
    PipeProgram Byte Error Result → PipeProgram Byte Error Other
  | .done res => next res
  | .fail error => .fail error
  | .write whole data rest => .write whole data (fun taken => (rest taken).bind next)
  | .read whole count rest => .read whole count (fun data => (rest data).bind next)

instance : Monad (PipeProgram Byte Error) where
  pure := .done
  bind program next := program.bind next

def ofExcept : Except Error Result → PipeProgram Byte Error Result
  | .ok res => .done res
  | .error error => .fail error

/-- However the pipes split, the program does exactly these events and ends with this
result.  What may be split counts byte by byte. -/
def Follows : PipeProgram Byte Error Result → List (PipeEvent Byte) → Result → Prop
  | .done res, events, final => events = [] ∧ res = final
  | .fail _, _, _ => False
  | .write true data next, events, final =>
    data ≠ [] ∧ ∃ rest, events = .sent data :: rest ∧ (next data.length).Follows rest final
  | .write false data next, events, final =>
    data ≠ [] ∧ ∃ rest, events = data.map sentByte ++ rest ∧
      ∀ taken, 0 < taken → taken ≤ data.length →
        (next taken).Follows ((data.drop taken).map sentByte ++ rest) final
  | .read true count next, events, final =>
    ∃ data rest, events = .got data :: rest ∧ data ≠ [] ∧ data.length = count ∧
      (next data).Follows rest final
  | .read false count next, events, final =>
    ∃ data rest, events = data.map gotByte ++ rest ∧ data ≠ [] ∧ data.length = count ∧
      ∀ taken, 0 < taken → taken ≤ count →
        (next (data.take taken)).Follows ((data.drop taken).map gotByte ++ rest) final

theorem Follows.bind {program : PipeProgram Byte Error Result}
    {next : Result → PipeProgram Byte Error Other} {first second : List (PipeEvent Byte)}
    {middle : Result} {final : Other} (follows : program.Follows first middle)
    (continues : (next middle).Follows second final) :
    (program >>= next).Follows (first ++ second) final := by
  induction program generalizing first with
  | done res =>
    obtain ⟨rfl, rfl⟩ := follows
    exact continues
  | fail error => exact follows.elim
  | write whole data rest ih =>
    cases whole with
    | true =>
      obtain ⟨some, later, rfl, follows⟩ := follows
      exact ⟨some, later ++ second, rfl, ih data.length follows⟩
    | false =>
      obtain ⟨some, later, rfl, follows⟩ := follows
      refine ⟨some, later ++ second, List.append_assoc _ _ _, ?_⟩
      intro taken pos bounded
      rw [← List.append_assoc]
      exact ih _ (follows _ pos bounded)
  | read whole count rest ih =>
    cases whole with
    | true =>
      obtain ⟨data, later, rfl, some, len, follows⟩ := follows
      exact ⟨data, later ++ second, rfl, some, len, ih _ follows⟩
    | false =>
      obtain ⟨data, later, rfl, some, len, follows⟩ := follows
      refine ⟨data, later ++ second, List.append_assoc _ _ _, some, len, ?_⟩
      intro taken pos bounded
      rw [← List.append_assoc]
      exact ih (data.take _) (follows _ pos bounded)

/-- One step: the program, the pipe it writes to and the pipe it reads from.  No step is
possible while the pipe is full or empty. -/
def step (cap amount : Nat) :
    PipeProgram Byte Error Result → List Byte → List Byte →
      Option (PipeProgram Byte Error Result × List Byte × List Byte)
  | .done _, _, _ => none
  | .fail _, _, _ => none
  | .write true data next, outgoing, incoming =>
    if outgoing.length + data.length ≤ cap then
      some (next data.length, outgoing ++ data, incoming)
    else none
  | .write false data next, outgoing, incoming =>
    if 0 < amount ∧ amount ≤ data.length ∧ outgoing.length + amount ≤ cap then
      some (next amount, outgoing ++ data.take amount, incoming)
    else none
  | .read true count next, outgoing, incoming =>
    if incoming.isEmpty then none
    else some (next (incoming.take count), outgoing, incoming.drop count)
  | .read false count next, outgoing, incoming =>
    if 0 < amount ∧ amount ≤ count ∧ amount ≤ incoming.length then
      some (next (incoming.take amount), outgoing, incoming.drop amount)
    else none

end PipeProgram

open PipeEvent

section Side

variable {Byte Error Result : Type} {own other : List (PipeEvent Byte)}
  {outgoing incoming : List Byte}

/-- The other side still has to read these bytes, and then does what `own` says. -/
def Ahead (own other : List (PipeEvent Byte)) (bytes : List Byte) : Prop :=
  ∃ atoms : List (List Byte), other = atoms.map .got ++ own.map flip ∧ bytes = atoms.flatten

/-- What one side still does, what the other side still does, and the bytes between
them: only one side can be ahead of the other. -/
def Linked (own other : List (PipeEvent Byte)) (outgoing incoming : List Byte) : Prop :=
  Ahead own other outgoing ∧ incoming = [] ∨ Ahead other own incoming ∧ outgoing = []

variable (linked : Linked own other outgoing incoming)

include linked in
private theorem Linked.symm :
    Linked other own incoming outgoing :=
  linked.elim .inr .inl

theorem Linked.start (own : List (PipeEvent Byte)) : Linked own (own.map flip) [] [] :=
  .inl ⟨⟨[], rfl, rfl⟩, rfl⟩

variable {atom data : List Byte}

private theorem Linked.of_sent (linked : Linked (.sent atom :: own) other outgoing incoming) :
    Ahead (.sent atom :: own) other outgoing ∧ incoming = [] := by
  rcases linked with ahead | ⟨⟨atoms, behind, bytes⟩, empty⟩
  · exact ahead
  · cases atoms with
    | nil =>
      refine ⟨⟨[], ?_, empty⟩, bytes⟩
      rw [behind, List.map_nil, List.nil_append, List.nil_append, map_flip_flip]
    | cons first rest => cases behind

include linked in
private theorem Linked.of_incoming (some : incoming ≠ []) :
    Ahead other own incoming ∧ outgoing = [] :=
  linked.elim (fun ahead => absurd ahead.2 some) id

theorem Ahead.sends (ahead : Ahead (.sent atom :: own) other outgoing) :
    Ahead own other (outgoing ++ atom) := by
  obtain ⟨atoms, events, bytes⟩ := ahead
  refine ⟨atoms ++ [atom], ?_, ?_⟩
  · rw [events, List.map_append, List.append_assoc]
    rfl
  · rw [bytes, List.flatten_append, List.flatten_singleton]

private theorem Ahead.sends_bytes (ahead : Ahead (data.map sentByte ++ own) other outgoing) :
    Ahead own other (outgoing ++ data) := by
  induction data generalizing outgoing with
  | nil =>
    rw [List.append_nil]
    exact ahead
  | cons byte rest ih =>
    have later := ih ahead.sends
    rwa [List.append_assoc] at later

theorem Ahead.got (ahead : Ahead other (.got atom :: own) incoming) (some : incoming ≠ []) :
    ∃ rest, incoming = atom ++ rest ∧ Ahead other own rest := by
  obtain ⟨atoms, events, bytes⟩ := ahead
  cases atoms with
  | nil => exact absurd bytes some
  | cons first later =>
    obtain ⟨same, remaining⟩ := List.cons.inj events
    obtain rfl : atom = first := PipeEvent.got.inj same
    exact ⟨later.flatten, bytes, later, remaining, rfl⟩

private theorem Ahead.got_bytes (ahead : Ahead other (data.map gotByte ++ own) incoming)
    (enough : data.length ≤ incoming.length) :
    ∃ rest, incoming = data ++ rest ∧ Ahead other own rest := by
  induction data generalizing incoming with
  | nil => exact ⟨incoming, rfl, ahead⟩
  | cons byte later ih =>
    have some : incoming ≠ [] := by
      rintro rfl
      cases enough
    obtain ⟨_, rfl, first⟩ := ahead.got some
    obtain ⟨rest, rfl, all⟩ := ih first (Nat.le_of_succ_le_succ enough)
    exact ⟨rest, rfl, all⟩

namespace PipeProgram

variable {program next : PipeProgram Byte Error Result} {final : Result} {cap amount : Nat}
  {outgoing' incoming' : List Byte} (follows : program.Follows own final)

include follows

include linked in
theorem Follows.step
    (stepped : program.step cap amount outgoing incoming = some (next, outgoing', incoming')) :
    ∃ done rest, own = done ++ rest ∧ done ≠ [] ∧ next.Follows rest final ∧
      Linked rest other outgoing' incoming' := by
  cases program with
  | done res | fail error => cases stepped
  | write whole data more =>
    cases whole with
    | true =>
      obtain ⟨-, rest, rfl, follows⟩ := follows
      rw [PipeProgram.step, Option.ite_none_right_eq_some] at stepped
      obtain ⟨-, rfl, rfl, rfl⟩ := stepped
      obtain ⟨ahead, rfl⟩ := linked.of_sent
      exact ⟨[.sent _], rest, rfl, List.cons_ne_nil _ _, follows, .inl ⟨ahead.sends, rfl⟩⟩
    | false =>
      obtain ⟨some, rest, rfl, follows⟩ := follows
      rw [PipeProgram.step, Option.ite_none_right_eq_some] at stepped
      obtain ⟨⟨pos, bounded, -⟩, rfl, rfl, rfl⟩ := stepped
      have split : data.map sentByte ++ rest =
          (data.take amount).map sentByte ++ ((data.drop amount).map sentByte ++ rest) := by
        rw [← List.append_assoc, ← List.map_append, List.take_append_drop]
      have sending : (data.take amount).map sentByte ≠ [] := by
        simp only [ne_eq, List.map_eq_nil_iff, List.take_eq_nil_iff, some, or_false]
        omega
      refine ⟨_, _, split, sending, follows _ pos bounded, ?_⟩
      obtain ⟨byte, later, rfl⟩ := List.exists_cons_of_ne_nil some
      obtain ⟨ahead, rfl⟩ := linked.of_sent
      have whole : Ahead ((byte :: later).map sentByte ++ rest) other outgoing := ahead
      rw [split] at whole
      exact .inl ⟨whole.sends_bytes, rfl⟩
  | read whole count more =>
    cases whole with
    | true =>
      obtain ⟨data, rest, rfl, some, rfl, follows⟩ := follows
      rw [PipeProgram.step, Option.ite_none_left_eq_some] at stepped
      obtain ⟨present, rfl, rfl, rfl⟩ := stepped
      have nonempty : incoming ≠ [] := by simpa using present
      obtain ⟨ahead, rfl⟩ := linked.of_incoming nonempty
      obtain ⟨later, rfl, still⟩ := ahead.got nonempty
      rw [List.take_left, List.drop_left]
      exact ⟨[.got _], rest, rfl, List.cons_ne_nil _ _, follows, .inr ⟨still, rfl⟩⟩
    | false =>
      obtain ⟨data, rest, rfl, some, rfl, follows⟩ := follows
      rw [PipeProgram.step, Option.ite_none_right_eq_some] at stepped
      obtain ⟨⟨pos, bounded, available⟩, rfl, rfl, rfl⟩ := stepped
      have nonempty : incoming ≠ [] := by
        rintro rfl
        exact absurd available (Nat.not_le_of_lt pos)
      have split : data.map gotByte ++ rest =
          (data.take amount).map gotByte ++ ((data.drop amount).map gotByte ++ rest) := by
        rw [← List.append_assoc, ← List.map_append, List.take_append_drop]
      have reading : (data.take amount).map gotByte ≠ [] := by
        simp only [ne_eq, List.map_eq_nil_iff, List.take_eq_nil_iff, some, or_false]
        omega
      have len : (data.take amount).length = amount := List.length_take_of_le bounded
      obtain ⟨ahead, rfl⟩ := linked.of_incoming nonempty
      rw [split] at ahead
      obtain ⟨later, rfl, still⟩ := ahead.got_bytes (by rw [len]; exact available)
      have taken : (data.take amount ++ later).take amount = data.take amount := by
        rw [List.take_append_of_le_length (by omega), List.take_take, Nat.min_self]
      have left_ : (data.take amount ++ later).drop amount = later := by
        rw [List.drop_append_of_le_length (by omega), List.drop_eq_nil_of_le (by omega),
          List.nil_append]
      rw [taken, left_]
      exact ⟨_, _, split, reading, follows _ pos bounded, .inr ⟨still, rfl⟩⟩

/-- What a program does next: nothing, or a step for which there is room, or one for
which the bytes have come. -/
private theorem Follows.next_cases :
    own = [] ∧ program = .done final ∨
      (∃ atom rest, own = .sent atom :: rest ∧ ∀ cap incoming, atom.length ≤ cap →
        ∃ amount, program.step cap amount [] incoming ≠ none) ∨
      ∃ atom rest, own = .got atom :: rest ∧ ∀ cap outgoing later,
        ∃ amount, program.step cap amount outgoing (atom ++ later) ≠ none := by
  cases program with
  | done res => exact .inl ⟨follows.1, by rw [follows.2]⟩
  | fail error => exact follows.elim
  | write whole data more =>
    refine .inr (.inl ?_)
    cases whole with
    | true =>
      obtain ⟨-, rest, rfl, -⟩ := follows
      refine ⟨data, rest, rfl, fun cap incoming fits => ⟨0, ?_⟩⟩
      rw [PipeProgram.step, if_pos (by simpa using fits)]
      exact Option.some_ne_none _
    | false =>
      obtain ⟨some, rest, rfl, -⟩ := follows
      obtain ⟨byte, later, rfl⟩ := List.exists_cons_of_ne_nil some
      refine ⟨[byte], _, rfl, fun cap incoming fits => ⟨1, ?_⟩⟩
      rw [PipeProgram.step, if_pos ⟨Nat.one_pos, by simp, by simpa using fits⟩]
      exact Option.some_ne_none _
  | read whole count more =>
    refine .inr (.inr ?_)
    cases whole with
    | true =>
      obtain ⟨data, rest, rfl, some, -⟩ := follows
      refine ⟨data, rest, rfl, fun cap outgoing later => ⟨0, ?_⟩⟩
      rw [PipeProgram.step, if_neg (by simp [some])]
      exact Option.some_ne_none _
    | false =>
      obtain ⟨data, rest, rfl, some, rfl, -⟩ := follows
      obtain ⟨byte, _, rfl⟩ := List.exists_cons_of_ne_nil some
      exact ⟨[byte], _, rfl, fun _ _ _ => ⟨1, Option.some_ne_none _⟩⟩

private theorem done_of_stuck {OtherError OtherResult : Type}
    {partner : PipeProgram Byte OtherError OtherResult} {partnerFinal : OtherResult}
    (partnerFollows : partner.Follows other partnerFinal)
    (ahead : Ahead own other outgoing) (fits : ∀ event ∈ own, event.atom.length ≤ cap)
    (stuck : ∀ amount, program.step cap amount outgoing [] = none)
    (partnerStuck : ∀ amount, partner.step cap amount [] outgoing = none) :
    program = .done final ∧ partner = .done partnerFinal ∧ outgoing = [] := by
  obtain ⟨atoms, rfl, rfl⟩ := ahead
  cases atoms with
  | cons atom later =>
    rcases partnerFollows.next_cases with ⟨none, _⟩ | ⟨_, _, same, _⟩ | ⟨_, _, same, moves⟩
    · cases none
    · cases same
    · cases same
      obtain ⟨amount, moves⟩ := moves cap [] later.flatten
      exact absurd (partnerStuck _) moves
  | nil =>
    rcases follows.next_cases with ⟨rfl, done⟩ | ⟨atom, rest, rfl, moves⟩ | ⟨atom, rest, rfl, _⟩
    · rcases partnerFollows.next_cases with ⟨_, ended⟩ | ⟨_, _, same, _⟩ | ⟨_, _, same, _⟩
      · exact ⟨done, ended, rfl⟩
      all_goals cases same
    · obtain ⟨amount, moves⟩ := moves cap [] (fits _ List.mem_cons_self)
      exact absurd (stuck _) moves
    · rcases partnerFollows.next_cases with ⟨none, _⟩ | ⟨_, _, same, moves⟩ | ⟨_, _, same, _⟩
      · cases none
      · cases same
        obtain ⟨amount, moves⟩ := moves cap [] (fits _ List.mem_cons_self)
        exact absurd (partnerStuck _) moves
      · cases same

end PipeProgram

end Side

structure Duplex (Byte LeftError LeftResult RightError RightResult : Type) where
  left : PipeProgram Byte LeftError LeftResult
  right : PipeProgram Byte RightError RightResult
  toRight : List Byte
  toLeft : List Byte

/-- Who takes a step, and how many bytes the pipe takes or hands out if it may split. -/
inductive Turn
  | left (amount : Nat)
  | right (amount : Nat)

namespace Duplex

variable {Byte LeftError LeftResult RightError RightResult : Type}

def start (left : PipeProgram Byte LeftError LeftResult)
    (right : PipeProgram Byte RightError RightResult) :
    Duplex Byte LeftError LeftResult RightError RightResult :=
  ⟨left, right, [], []⟩

def step (cap : Nat) (w : Duplex Byte LeftError LeftResult RightError RightResult) :
    Turn → Option (Duplex Byte LeftError LeftResult RightError RightResult)
  | .left amount =>
    (w.left.step cap amount w.toRight w.toLeft).map
      fun (left, toRight, toLeft) => { w with left, toRight, toLeft }
  | .right amount =>
    (w.right.step cap amount w.toLeft w.toRight).map
      fun (right, toLeft, toRight) => { w with right, toLeft, toRight }

def run (cap : Nat) (w : Duplex Byte LeftError LeftResult RightError RightResult)
    (turns : List Turn) : Option (Duplex Byte LeftError LeftResult RightError RightResult) :=
  turns.foldlM (step cap) w

/-- Each side still follows its part of what is left of the conversation. -/
structure Converses (cap : Nat) (leftFinal : LeftResult) (rightFinal : RightResult)
    (own other : List (PipeEvent Byte))
    (w : Duplex Byte LeftError LeftResult RightError RightResult) : Prop where
  left : w.left.Follows own leftFinal
  right : w.right.Follows other rightFinal
  linked : Linked own other w.toRight w.toLeft
  ownFits : ∀ event ∈ own, event.atom.length ≤ cap
  otherFits : ∀ event ∈ other, event.atom.length ≤ cap

variable {cap : Nat} {leftFinal : LeftResult} {rightFinal : RightResult}
  {own other : List (PipeEvent Byte)}
  {w next : Duplex Byte LeftError LeftResult RightError RightResult}

section

variable (converses : Converses cap leftFinal rightFinal own other w)
include converses

theorem Converses.step (turn : Turn) (stepped : w.step cap turn = some next) :
    ∃ own' other', Converses cap leftFinal rightFinal own' other' next ∧
      own'.length + other'.length < own.length + other.length := by
  obtain ⟨left, right, linked, ownFits, otherFits⟩ := converses
  cases turn with
  | left amount =>
    obtain ⟨⟨program, toRight, toLeft⟩, moved, rfl⟩ := Option.map_eq_some_iff.1 stepped
    obtain ⟨done, rest, rfl, some, follows, linked⟩ := left.step linked moved
    have shorter := List.length_pos_of_ne_nil some
    refine ⟨rest, other, ⟨follows, right, linked, ?_, otherFits⟩, ?_⟩
    · exact fun event mem => ownFits _ (List.mem_append_right _ mem)
    · rw [List.length_append]
      omega
  | right amount =>
    obtain ⟨⟨program, toLeft, toRight⟩, moved, rfl⟩ := Option.map_eq_some_iff.1 stepped
    obtain ⟨done, rest, rfl, some, follows, linked⟩ := right.step linked.symm moved
    have shorter := List.length_pos_of_ne_nil some
    refine ⟨own, rest, ⟨left, follows, linked.symm, ownFits, ?_⟩, ?_⟩
    · exact fun event mem => otherFits _ (List.mem_append_right _ mem)
    · rw [List.length_append]
      omega

theorem Converses.run (turns : List Turn) (ran : w.run cap turns = some next) :
    ∃ own' other', Converses cap leftFinal rightFinal own' other' next ∧
      own'.length + other'.length + turns.length ≤ own.length + other.length := by
  induction turns generalizing w own other with
  | nil =>
    obtain rfl : w = next := Option.some.inj ran
    exact ⟨own, other, converses, Nat.le_refl _⟩
  | cons turn rest ih =>
    obtain ⟨_, stepped, later⟩ := Option.bind_eq_some_iff.1 ((List.foldlM_cons ..).symm.trans ran)
    obtain ⟨own', other', still, _⟩ := converses.step turn stepped
    obtain ⟨own'', other'', holds, _⟩ := ih still later
    refine ⟨own'', other'', holds, ?_⟩
    rw [List.length_cons]
    omega

/-- One of the sides can go on until both are done, and then nothing is left in the
pipes. -/
theorem Converses.progress (stuck : ∀ turn, w.step cap turn = none) :
    w = ⟨.done leftFinal, .done rightFinal, [], []⟩ := by
  obtain ⟨left, right, linked, ownFits, otherFits⟩ := converses
  obtain ⟨leftProgram, rightProgram, toRight, toLeft⟩ := w
  have leftStuck (amount : Nat) : leftProgram.step cap amount toRight toLeft = none :=
    Option.map_eq_none_iff.1 (stuck (.left _))
  have rightStuck (amount : Nat) : rightProgram.step cap amount toLeft toRight = none :=
    Option.map_eq_none_iff.1 (stuck (.right _))
  rcases linked with ⟨ahead, empty⟩ | ⟨ahead, empty⟩
  · obtain rfl : toLeft = [] := empty
    obtain ⟨leftDone, rightDone, bytes⟩ :=
      PipeProgram.done_of_stuck left right ahead ownFits leftStuck rightStuck
    obtain rfl : leftProgram = _ := leftDone
    obtain rfl : rightProgram = _ := rightDone
    obtain rfl : toRight = [] := bytes
    rfl
  · obtain rfl : toRight = [] := empty
    obtain ⟨rightDone, leftDone, bytes⟩ :=
      PipeProgram.done_of_stuck right left ahead otherFits rightStuck leftStuck
    obtain rfl : leftProgram = _ := leftDone
    obtain rfl : rightProgram = _ := rightDone
    obtain rfl : toLeft = [] := bytes
    rfl

end

/-- Two programs that follow the two sides of one conversation, in any order of their
steps: the run is bounded, neither fails, and when no step is possible any more both
are done and the pipes are empty. -/
theorem run_start {left : PipeProgram Byte LeftError LeftResult}
    {right : PipeProgram Byte RightError RightResult} {events : List (PipeEvent Byte)}
    (leftFollows : left.Follows events leftFinal)
    (rightFollows : right.Follows (events.map flip) rightFinal)
    (fits : ∀ event ∈ events, event.atom.length ≤ cap) (turns : List Turn)
    (ran : (start left right).run cap turns = some w) :
    turns.length ≤ 2 * events.length ∧ (∀ error, w.left ≠ .fail error) ∧
      (∀ error, w.right ≠ .fail error) ∧
      ((∀ turn, w.step cap turn = none) → w = ⟨.done leftFinal, .done rightFinal, [], []⟩) := by
  have otherFits : ∀ event ∈ events.map flip, event.atom.length ≤ cap := by
    intro event mem
    obtain ⟨_, present, rfl⟩ := List.mem_map.1 mem
    rw [atom_flip]
    exact fits _ present
  have begins : Converses cap leftFinal rightFinal events (events.map flip) (start left right) :=
    ⟨leftFollows, rightFollows, Linked.start _, fits, otherFits⟩
  obtain ⟨_, _, converses, bound⟩ := begins.run turns ran
  rw [List.length_map] at bound
  refine ⟨by omega, ?_, ?_, converses.progress⟩
  · intro error failed
    have follows := converses.left
    rw [failed] at follows
    exact follows
  · intro error failed
    have follows := converses.right
    rw [failed] at follows
    exact follows

end Duplex

end AflPlusPlus.Machine
