/-
The record of the test cases of a persistent child.

`afl_fsrv_write_to_testcase` keeps the last test cases in a ring of cells.  When a run turns
out to be the first of a new child, all cells but the last are emptied, and when a run ends
in a crash or a timeout the cells that are not empty are written out.

Test cases reach the child on other ways too: while trimming through
`write_with_gap`, and through a custom mutator that sends the test case itself.
-/

import AflPlusPlus.PersistentSync
import AflPlusPlus.Machine.RingBuffer
import AflPlusPlus.Common

namespace AflPlusPlus.PersistentRecord

open Machine List
open PersistentSync (CrashRules)

abbrev Input := List Byte

structure Settings where
  persistentRecord : Nat
  atLeastTwo : 2 ≤ persistentRecord
  rules : CrashRules
  useShmemFuzz : Bool
  useFutex : Bool
  persistentMode : Bool
  minLength : Nat
  maxLength : Nat

/-- The pids are `-1` while there is no child. -/
structure Forkserver where
  childPid : Int
  lastRunTimedOut : Bool
  persistentRecordIdx : Nat
  persistentRecordCnt : Nat
  persistentRecordData : Nat → Option Input
  persistentRecordLen : Nat → Nat
  persistentRecordPid : Int

def Forkserver.initial : Forkserver :=
  { childPid := -1
    lastRunTimedOut := false
    persistentRecordIdx := 0
    persistentRecordCnt := 0
    persistentRecordData := fun _ => none
    persistentRecordLen := fun _ => 0
    persistentRecordPid := 0 }

variable (cfg : Settings)

/-- The first part of `afl_fsrv_write_to_testcase`.  The buffer of a cell is reused, so
the end of a longer test case may stand behind the new one. -/
def Forkserver.record (fsrv : Forkserver) (buf : Input) : Forkserver :=
  let idx := fsrv.persistentRecordIdx
  { fsrv with
    persistentRecordLen := Function.update fsrv.persistentRecordLen idx buf.length
    persistentRecordData := Function.update fsrv.persistentRecordData idx
      (some (buf ++ ((fsrv.persistentRecordData idx).getD []).drop buf.length))
    persistentRecordIdx := if idx + 1 ≥ cfg.persistentRecord then 0 else idx + 1 }

def Settings.fitLength (cfg : Settings) (fix : Bool) (mem : Input) : Input :=
  AflPlusPlus.fitLength cfg.minLength cfg.maxLength fix mem

/-- `write`: `write_to_testcase`.  `send`: the same where a custom mutator has a
function that sends the test case.  `gap`: `write_with_gap`. -/
inductive Delivery where
  | write (fix : Bool) (mem : Input)
  | send (fix : Bool) (mem : Input)
  | gap (mem : Input) (skipAt skipLen : Nat)
  deriving DecidableEq, Repr

def Delivery.testcase : Delivery → Input
  | .write fix mem => aflFsrvWriteToTestcase cfg.useShmemFuzz (cfg.fitLength fix mem)
  | .send fix mem => cfg.fitLength fix mem
  | .gap mem skipAt skipLen => mem.take skipAt ++ mem.drop (skipAt + skipLen)

def Delivery.deliver (fsrv : Forkserver) : Delivery → Forkserver
  | .write fix mem => fsrv.record cfg (cfg.fitLength fix mem)
  | .send _ _ => fsrv
  | .gap _ _ _ => fsrv

def Forkserver.recordReset (fsrv : Forkserver) : Forkserver :=
  if fsrv.persistentRecordPid ≠ fsrv.childPid then
    let idx :=
      if fsrv.persistentRecordIdx = 0 then cfg.persistentRecord - 1
      else fsrv.persistentRecordIdx - 1
    { fsrv with
      persistentRecordPid := fsrv.childPid
      persistentRecordLen := fun k => if k = idx then fsrv.persistentRecordLen k else 0 }
  else fsrv

inductive Folder where
  | hangs
  | crashes
  deriving DecidableEq, Repr

/-- A file `RECORD:record,cnt:cnt` in one of the two folders. -/
structure RecordFile where
  folder : Folder
  record : Nat
  cnt : Nat
  data : Input
  deriving DecidableEq, Repr

/-- The loop at `store_persistent_record`, over the cells in its order. -/
def storeEntries (folder : Folder) (record : Nat) : Nat → List (Nat × Option Input) →
    List RecordFile
  | _, [] => []
  | writecnt, (0, _) :: rest => storeEntries folder record writecnt rest
  | writecnt, (_, none) :: rest => storeEntries folder record writecnt rest
  | writecnt, (len + 1, some data) :: rest =>
    ⟨folder, record, writecnt, data.take (len + 1)⟩ ::
      storeEntries folder record (writecnt + 1) rest

def Forkserver.entry (fsrv : Forkserver) (k : Nat) : Nat × Option Input :=
  (fsrv.persistentRecordLen k, fsrv.persistentRecordData k)

def Forkserver.store (fsrv : Forkserver) (folder : Folder) : List RecordFile :=
  storeEntries folder fsrv.persistentRecordCnt 0
    (stretch cfg.persistentRecord fsrv.entry fsrv.persistentRecordIdx cfg.persistentRecord)

/-- What one call of `afl_fsrv_run_target` meets.  `exited`: the sync word says that
the child has ended before the call.  `pid`: what the fork server answers if it is
asked.  `done` and `timedOut`: how the wait for the child ends.  `execFail`: the map
starts with `EXEC_FAIL_SIG`.  `alive`: the child is there to take the test case; the
call does not see that. -/
structure Run where
  exited : Bool
  pid : Int
  done : Bool
  timedOut : Bool
  execFail : Bool
  status : BitVec 32
  alive : Bool
  deriving DecidableEq, Repr

structure Outcome where
  fsrv : Forkserver
  fault : Fault
  files : List RecordFile

def wifstopped (status : BitVec 32) : Bool := status &&& 0xff == 0x7f

/-- `classify_result` and `store_persistent_record` -/
def classify (run : Run) (fsrv : Forkserver) : Outcome :=
  let fault := PersistentSync.System.verdict cfg.rules fsrv.lastRunTimedOut run.execFail run.status
  let stored := { fsrv with persistentRecordCnt := fsrv.persistentRecordCnt + 1 }
  match fault with
  | .tmout => ⟨stored, fault, fsrv.store cfg .hangs⟩
  | .crash => ⟨stored, fault, fsrv.store cfg .crashes⟩
  | _ => ⟨fsrv, fault, []⟩

def futexWait (run : Run) (fsrv : Forkserver) : Outcome :=
  let waited := { fsrv with lastRunTimedOut := fsrv.lastRunTimedOut || run.timedOut }
  if run.done then ⟨waited, if run.execFail then .error else .ok, []⟩
  else classify cfg run { waited with childPid := -1 }

def pipeWait (run : Run) (fsrv : Forkserver) : Outcome :=
  let waited :=
    if run.timedOut then { fsrv with childPid := -1, lastRunTimedOut := true } else fsrv
  classify cfg run (if wifstopped run.status then waited else { waited with childPid := -1 })

/-- The child is signalled at the sync word and the fork server is not asked. -/
def Forkserver.Hot (fsrv : Forkserver) : Prop :=
  cfg.useFutex ∧ 0 < fsrv.childPid

instance (cfg : Settings) (fsrv : Forkserver) : Decidable (fsrv.Hot cfg) :=
  inferInstanceAs (Decidable (_ ∧ _))

/-- `afl_fsrv_run_target`, where `stop_soon` is not set: no result stands for the
`FATAL` on a pid that is not one. -/
def runTarget (run : Run) (fsrv : Forkserver) : Option Outcome :=
  if fsrv.Hot cfg then
    if run.exited then some (classify cfg run { fsrv with childPid := -1 })
    else some (futexWait cfg run fsrv)
  else
    let asked := { fsrv with lastRunTimedOut := false, childPid := run.pid }
    let reset := asked.recordReset cfg
    if run.pid ≤ 0 then none
    else if cfg.useFutex ∧ cfg.persistentMode then some (futexWait cfg run reset)
    else some (pipeWait cfg run reset)

/-- `testcase` is what the shared memory or the file holds, `pids` are the children so
far, `given` the test cases that the last of them was given, in order, and `pending`
says that no child of this fork server was given the test case yet. -/
structure World where
  fsrv : Forkserver
  testcase : Input
  pids : List Int
  given : List Input
  pending : Bool

def World.initial : World :=
  { fsrv := Forkserver.initial, testcase := [], pids := [], given := [], pending := false }

inductive Event where
  | delivery (how : Delivery)
  | run (run : Run)
  deriving DecidableEq, Repr

def World.Spawns (w : World) (run : Run) : Prop :=
  ¬w.fsrv.Hot cfg ∧ run.pid ≠ w.fsrv.childPid

instance (cfg : Settings) (w : World) (run : Run) :
    Decidable (w.Spawns cfg run) :=
  inferInstanceAs (Decidable (_ ∧ _))

def World.Takes (w : World) (run : Run) : Prop :=
  w.Spawns cfg run ∨ run.alive ∧ ¬(w.fsrv.Hot cfg ∧ run.exited)

instance (cfg : Settings) (w : World) (run : Run) :
    Decidable (w.Takes cfg run) :=
  inferInstanceAs (Decidable (_ ∨ _))

def World.givenBy (w : World) (run : Run) : List Input :=
  if w.Spawns cfg run then [w.testcase]
  else if w.Takes cfg run then w.given ++ [w.testcase]
  else w.given

def step (w : World) : Event → World
  | .delivery how =>
    { w with
      fsrv := how.deliver cfg w.fsrv
      testcase := how.testcase cfg
      pending := true }
  | .run run =>
    match runTarget cfg run w.fsrv with
    | none => w
    | some out =>
      { w with
        fsrv := out.fsrv
        pids := if w.Spawns cfg run then run.pid :: w.pids else w.pids
        given := w.givenBy cfg run
        pending := false }

/-- The fork server goes on with a child that has stopped and reports its pid again;
otherwise it forks, and the pid is new. -/
def Legal (w : World) : Event → Prop
  | .delivery _ => True
  | .run run =>
    w.fsrv.Hot cfg ∨
      if 0 < w.fsrv.childPid then run.pid = w.fsrv.childPid
      else 0 < run.pid ∧ run.pid ∉ w.pids

instance (cfg : Settings) (w : World) (event : Event) :
    Decidable (Legal cfg w event) := by
  unfold Legal
  split <;> infer_instance

/-- Every test case goes through `afl_fsrv_write_to_testcase`, is not empty and not cut
there, and is given to a child of this fork server once. -/
def Recorded (w : World) : Event → Prop
  | .delivery (.write fix mem) =>
    w.pending = false ∧ cfg.fitLength fix mem ≠ [] ∧
      aflFsrvWriteToTestcase cfg.useShmemFuzz (cfg.fitLength fix mem) = cfg.fitLength fix mem
  | .delivery (.send _ _) => False
  | .delivery (.gap _ _ _) => False
  | .run run => w.pending = true ∧ w.Takes cfg run

instance (cfg : Settings) (w : World) (event : Event) :
    Decidable (Recorded cfg w event) := by
  unfold Recorded
  split <;> infer_instance

def cellOf : Nat × Option Input → Option Input
  | (0, _) => none
  | (_, none) => none
  | (len + 1, some data) => some (data.take (len + 1))

def Forkserver.cell (fsrv : Forkserver) (k : Nat) : Option Input := cellOf (fsrv.entry k)

/-- The ring holds the last of the given test cases, behind empty cells as long as
there are fewer than cells. -/
structure Forkserver.Holds (cfg : Settings) (fsrv : Forkserver) (inputs : List Input) :
    Prop where
  inside : fsrv.persistentRecordIdx < cfg.persistentRecord
  cells : stretch cfg.persistentRecord fsrv.cell fsrv.persistentRecordIdx cfg.persistentRecord =
    (List.replicate cfg.persistentRecord none ++ inputs.map some).drop inputs.length

variable {cfg : Settings} {fsrv : Forkserver} {inputs : List Input}

theorem Forkserver.Holds.initial : Forkserver.initial.Holds cfg [] where
  inside := Nat.lt_of_lt_of_le (by decide) cfg.atLeastTwo
  cells := by
    have blank : Forkserver.initial.cell = fun _ => none := rfl
    simp [blank, stretch, map_const']

variable {buf : Input}

private theorem cell_record (nonempty : buf ≠ []) :
    (fsrv.record cfg buf).cell = Function.update fsrv.cell fsrv.persistentRecordIdx (some buf) := by
  funext k
  by_cases same : k = fsrv.persistentRecordIdx
  · subst same
    obtain ⟨_, _, rfl⟩ := exists_cons_of_ne_nil nonempty
    simp [Forkserver.cell, Forkserver.entry, Forkserver.record, cellOf]
  · simp [Forkserver.cell, Forkserver.entry, Forkserver.record, same]

theorem Forkserver.Holds.record (holds : fsrv.Holds cfg inputs)
    (nonempty : buf ≠ []) : (fsrv.record cfg buf).Holds cfg (inputs ++ [buf]) := by
  have next : (fsrv.record cfg buf).persistentRecordIdx =
      (fsrv.persistentRecordIdx + 1) % cfg.persistentRecord := by
    have inside := holds.inside
    simp only [Forkserver.record]
    split
    case isTrue last =>
      rw [show fsrv.persistentRecordIdx + 1 = cfg.persistentRecord by omega, Nat.mod_self]
    case isFalse more => rw [Nat.mod_eq_of_lt (by omega)]
  refine ⟨?_, ?_⟩
  · rw [next]
    exact Nat.mod_lt _ (Nat.lt_of_lt_of_le (by decide) cfg.atLeastTwo)
  · have short : inputs.length + 1 ≤
        (List.replicate cfg.persistentRecord none ++ inputs.map some).length := by
      have atLeastTwo := cfg.atLeastTwo
      simp
      omega
    rw [next, stretch_mod, cell_record nonempty, stretch_update_next holds.inside, holds.cells,
      tail_drop, map_append, ← append_assoc, length_append,
      length_singleton, drop_append_of_le_length short]
    rfl

variable {last : Input} (holds : fsrv.Holds cfg (inputs ++ [last]))

include holds

private theorem Forkserver.Holds.last_cell :
    fsrv.cell ((fsrv.persistentRecordIdx + (cfg.persistentRecord - 1)) %
      cfg.persistentRecord) = some last := by
  have atLeastTwo := cfg.atLeastTwo
  have whole : cfg.persistentRecord = cfg.persistentRecord - 1 + 1 := by omega
  have short : inputs.length + 1 ≤
      (List.replicate cfg.persistentRecord none ++ inputs.map some).length := by
    simp
    omega
  have cells := holds.cells
  rw [map_append, ← append_assoc, length_append, length_singleton,
    drop_append_of_le_length short] at cells
  have split : stretch cfg.persistentRecord fsrv.cell fsrv.persistentRecordIdx
      cfg.persistentRecord =
    stretch cfg.persistentRecord fsrv.cell fsrv.persistentRecordIdx (cfg.persistentRecord - 1) ++
      stretch cfg.persistentRecord fsrv.cell
        (fsrv.persistentRecordIdx + (cfg.persistentRecord - 1)) 1 := by
    rw [← stretch_append, ← whole]
  rw [split] at cells
  have ends := (append_inj_right' cells rfl)
  simpa [stretch] using ends

theorem Forkserver.Holds.recordReset (other : fsrv.persistentRecordPid ≠ fsrv.childPid) :
    (fsrv.recordReset cfg).Holds cfg [last] := by
  have inside := holds.inside
  have pre : (if fsrv.persistentRecordIdx = 0 then cfg.persistentRecord - 1
      else fsrv.persistentRecordIdx - 1) =
      (fsrv.persistentRecordIdx + (cfg.persistentRecord - 1)) % cfg.persistentRecord := by
    split
    case isTrue first => rw [first, Nat.zero_add, Nat.mod_eq_of_lt (by omega)]
    case isFalse later =>
      rw [show fsrv.persistentRecordIdx + (cfg.persistentRecord - 1) =
          fsrv.persistentRecordIdx - 1 + cfg.persistentRecord by omega,
        Nat.add_mod_right, Nat.mod_eq_of_lt (by omega)]
  have cells : (fsrv.recordReset cfg).cell = fun k =>
      if k = (fsrv.persistentRecordIdx + (cfg.persistentRecord - 1)) %
        cfg.persistentRecord then fsrv.cell k else none := by
    funext k
    simp only [Forkserver.cell, Forkserver.entry, Forkserver.recordReset, if_pos other, pre]
    split <;> rfl
  have same : (fsrv.recordReset cfg).persistentRecordIdx = fsrv.persistentRecordIdx := by
    simp only [Forkserver.recordReset, if_pos other]
  refine ⟨same ▸ inside, ?_⟩
  rw [same, cells, stretch_keep_last _ rfl (by omega), holds.last_cell]
  obtain ⟨rest, more⟩ : ∃ rest, cfg.persistentRecord = rest + 1 :=
    ⟨cfg.persistentRecord - 1, by omega⟩
  rw [more]
  rfl

omit holds

theorem recordReset_of_same (same : fsrv.persistentRecordPid = fsrv.childPid) :
    fsrv.recordReset cfg = fsrv :=
  if_neg (not_not.2 same)

private theorem storeEntries_eq (folder : Folder) (record writecnt : Nat)
    (entries : List (Nat × Option Input)) :
    storeEntries folder record writecnt entries = (entries.filterMap cellOf).mapIdx
        (fun cnt data => ⟨folder, record, writecnt + cnt, data⟩) := by
  induction entries generalizing writecnt with
  | nil => rfl
  | cons entry rest ih =>
    match entry with
    | (0, _) | (_ + 1, none) =>
      exact ih _
    | (len + 1, some data) =>
      rw [filterMap_cons_some (f := cellOf) rfl, storeEntries, ih (writecnt + 1), mapIdx_cons]
      simp only [Nat.add_assoc, Nat.add_comm 1]
      rfl

def lastOf (count : Nat) (inputs : List Input) : List Input :=
  inputs.drop (inputs.length - min count inputs.length)

private theorem filterMap_cells (count : Nat) (inputs : List Input) :
    ((List.replicate count none ++ inputs.map some).drop inputs.length).filterMap id =
      lastOf count inputs := by
  rw [drop_append, filterMap_append, drop_replicate, length_replicate,
    ← map_drop, filterMap_replicate_of_none rfl, filterMap_map]
  have rest : inputs.length - count = inputs.length - min count inputs.length := by omega
  rw [rest]
  exact filterMap_some

theorem Forkserver.Holds.store (holds : fsrv.Holds cfg inputs) (folder : Folder) :
    fsrv.store cfg folder = (lastOf cfg.persistentRecord inputs).mapIdx
        (fun cnt data => ⟨folder, fsrv.persistentRecordCnt, cnt, data⟩) := by
  have cells : (stretch cfg.persistentRecord fsrv.entry fsrv.persistentRecordIdx
      cfg.persistentRecord).filterMap cellOf = lastOf cfg.persistentRecord inputs := by
    rw [← filterMap_cells, ← holds.cells, stretch, stretch, filterMap_map, filterMap_map]
    rfl
  rw [Forkserver.store, storeEntries_eq, cells]
  simp

def settled (cfg : Settings) (run : Run) (fsrv : Forkserver) : Forkserver :=
  if fsrv.Hot cfg then fsrv
  else { fsrv with lastRunTimedOut := false, childPid := run.pid }.recordReset cfg

/-- From there on the cells stay, and they are what a crash or a timeout writes out. -/
structure Outcome.Settles (cfg : Settings) (base : Forkserver) (out : Outcome) :
    Prop where
  entry : out.fsrv.entry = base.entry
  idx : out.fsrv.persistentRecordIdx = base.persistentRecordIdx
  pid : out.fsrv.persistentRecordPid = base.persistentRecordPid
  child : 0 < out.fsrv.childPid → out.fsrv.childPid = base.childPid
  tmout : out.fault = .tmout → out.files = base.store cfg .hangs
  crash : out.fault = .crash → out.files = base.store cfg .crashes

variable {base : Forkserver} {run : Run}

theorem classify_settles {childPid : Int} (timedOut : Bool)
    (child : 0 < childPid → childPid = base.childPid) :
    (classify cfg run
      { base with childPid := childPid, lastRunTimedOut := timedOut }).Settles cfg base := by
  unfold classify
  generalize PersistentSync.System.verdict cfg.rules _ _ _ = fault
  cases fault with
  | tmout => exact ⟨rfl, rfl, rfl, child, fun _ => rfl, nofun⟩
  | crash => exact ⟨rfl, rfl, rfl, child, nofun, fun _ => rfl⟩
  | ok | error | noinst | nobits => exact ⟨rfl, rfl, rfl, child, nofun, nofun⟩

theorem not_positive_of_gone :
    0 < (-1 : Int) → (-1 : Int) = base.childPid := by
  intro pos
  omega

private theorem futexWait_settles :
    (futexWait cfg run base).Settles cfg base := by
  unfold futexWait
  split
  case isTrue done =>
    cases run.execFail <;> exact ⟨rfl, rfl, rfl, fun _ => rfl, nofun, nofun⟩
  case isFalse ended => exact classify_settles _ not_positive_of_gone

private theorem pipeWait_settles :
    (pipeWait cfg run base).Settles cfg base := by
  unfold pipeWait
  cases wifstopped run.status with
  | false => cases run.timedOut <;> exact classify_settles _ not_positive_of_gone
  | true =>
    cases run.timedOut with
    | false => exact classify_settles base.lastRunTimedOut (fun _ => rfl)
    | true => exact classify_settles _ not_positive_of_gone

theorem runTarget_settles {out : Outcome} (ended : runTarget cfg run fsrv = some out) :
    out.Settles cfg (settled cfg run fsrv) := by
  unfold runTarget at ended
  unfold settled
  split at ended
  case isTrue hot =>
    rw [if_pos hot]
    split at ended
    · cases ended
      exact classify_settles _ not_positive_of_gone
    · cases ended
      exact futexWait_settles
  case isFalse cold =>
    rw [if_neg cold]
    split at ended
    · cases ended
    · split at ended
      · cases ended
        exact futexWait_settles
      · cases ended
        exact pipeWait_settles

/-- The ring holds what the child was given and the test case that waits for it, and
the pid in the record is that of the last child. -/
structure Kept (cfg : Settings) (w : World) : Prop where
  holds : w.fsrv.Holds cfg (w.given ++ if w.pending then [w.testcase] else [])
  pid : w.fsrv.persistentRecordPid = 0 ∨ w.fsrv.persistentRecordPid ∈ w.pids
  child : 0 < w.fsrv.childPid → w.fsrv.persistentRecordPid = w.fsrv.childPid

theorem Kept.initial : Kept cfg World.initial :=
  ⟨Forkserver.Holds.initial, .inl rfl, fun pos => absurd pos (by decide)⟩

variable {w : World} {run : Run} (kept : Kept cfg w)

include kept

variable (legal : Legal cfg w (.run run))

include legal

theorem Kept.same_or_spawns :
    w.fsrv.Hot cfg ∨ (¬w.fsrv.Hot cfg ∧ run.pid = w.fsrv.childPid ∧
        w.fsrv.persistentRecordPid = run.pid) ∨
      (w.Spawns cfg run ∧ w.fsrv.persistentRecordPid ≠ run.pid) := by
  by_cases hot : w.fsrv.Hot cfg
  · exact .inl hot
  right
  have answer := legal.resolve_left hot
  by_cases alive : 0 < w.fsrv.childPid
  · rw [if_pos alive] at answer
    exact .inl ⟨hot, answer, (kept.child alive).trans answer.symm⟩
  · rw [if_neg alive] at answer
    obtain ⟨_, fresh⟩ := answer
    refine .inr ⟨⟨hot, by omega⟩, ?_⟩
    intro same
    rcases kept.pid with unset | known
    · omega
    · exact fresh (same ▸ known)

variable (recorded : Recorded cfg w (.run run))

include recorded in
theorem Kept.holds_settled :
    (settled cfg run w.fsrv).Holds cfg (w.givenBy cfg run) := by
  have holds := kept.holds
  rw [if_pos recorded.1] at holds
  rcases kept.same_or_spawns legal with hot | ⟨cold, same, record⟩ | ⟨spawns, record⟩
  · have given : w.givenBy cfg run = w.given ++ [w.testcase] := by
      rw [World.givenBy, if_neg (fun spawns => spawns.1 hot), if_pos recorded.2]
    rw [settled, if_pos hot, given]
    exact holds
  · have given : w.givenBy cfg run = w.given ++ [w.testcase] := by
      rw [World.givenBy, if_neg (fun spawns => spawns.2 same), if_pos recorded.2]
    rw [settled, if_neg cold, recordReset_of_same record, given]
    exact ⟨holds.inside, holds.cells⟩
  · have asked : Forkserver.Holds cfg { w.fsrv with lastRunTimedOut := false, childPid := run.pid }
        (w.given ++ [w.testcase]) := ⟨holds.inside, holds.cells⟩
    rw [settled, if_neg spawns.1, World.givenBy, if_pos spawns]
    exact asked.recordReset record

omit legal kept

theorem recordReset_pid : (fsrv.recordReset cfg).persistentRecordPid = fsrv.childPid := by
  by_cases same : fsrv.persistentRecordPid = fsrv.childPid
  · rw [recordReset_of_same same, same]
  · rw [Forkserver.recordReset, if_pos same]

private theorem recordReset_childPid : (fsrv.recordReset cfg).childPid = fsrv.childPid := by
  unfold Forkserver.recordReset
  split <;> rfl

private theorem recordReset_cnt :
    (fsrv.recordReset cfg).persistentRecordCnt = fsrv.persistentRecordCnt := by
  unfold Forkserver.recordReset
  split <;> rfl

private theorem settled_cnt :
    (settled cfg run fsrv).persistentRecordCnt = fsrv.persistentRecordCnt := by
  unfold settled
  split
  · rfl
  · exact recordReset_cnt

include kept

include legal in
private theorem Kept.settled_pid :
    (settled cfg run w.fsrv).persistentRecordPid = 0 ∨
      (settled cfg run w.fsrv).persistentRecordPid ∈
        (if w.Spawns cfg run then run.pid :: w.pids else w.pids) := by
  rcases kept.same_or_spawns legal with hot | ⟨cold, same, record⟩ | ⟨spawns, -⟩
  · rw [settled, if_pos hot, if_neg (fun spawns => spawns.1 hot)]
    exact kept.pid
  · rw [settled, if_neg cold, recordReset_of_same record, if_neg (fun spawns => spawns.2 same)]
    exact kept.pid
  · rw [settled, if_neg spawns.1, recordReset_pid, if_pos spawns]
    exact .inr (mem_cons_self)

private theorem Kept.settled_child :
    0 < (settled cfg run w.fsrv).childPid → (settled cfg run w.fsrv).persistentRecordPid =
        (settled cfg run w.fsrv).childPid := by
  unfold settled
  split
  · exact kept.child
  · intro _
    rw [recordReset_pid, recordReset_childPid]

theorem Kept.step (event : Event) (legal : Legal cfg w event) (recorded : Recorded cfg w event) :
    Kept cfg (step cfg w event) := by
  match event with
  | .delivery (.write fix mem) =>
    obtain ⟨run, nonempty, whole⟩ := recorded
    have holds := kept.holds
    rw [run] at holds
    refine ⟨?_, kept.pid, kept.child⟩
    change Forkserver.Holds cfg (w.fsrv.record cfg (cfg.fitLength fix mem))
      (w.given ++ [aflFsrvWriteToTestcase cfg.useShmemFuzz _])
    rw [whole]
    simpa using holds.record nonempty
  | .run run =>
    rw [PersistentRecord.step]
    split
    · exact kept
    case h_2 out ended =>
      have settles := runTarget_settles ended
      have holds := kept.holds_settled legal recorded
      refine ⟨?_, ?_, ?_⟩
      · have cells : out.fsrv.cell = (settled cfg run w.fsrv).cell := by
          funext k
          rw [Forkserver.cell, settles.entry, Forkserver.cell]
        refine ⟨settles.idx ▸ holds.inside, ?_⟩
        have same := holds.cells
        simp only [Bool.false_eq_true, if_false, append_nil]
        rw [cells, settles.idx]
        exact same
      · rw [settles.pid]
        exact kept.settled_pid legal
      · intro pos
        rw [settles.pid, settles.child pos]
        exact kept.settled_child (settles.child pos ▸ pos)

omit kept

/-- The files are the last test cases that the child was given, in their order, and the
last of them is the test case of this run. -/
structure Replays (cfg : Settings) (w : World) (run : Run) (folder : Folder)
    (files : List RecordFile) : Prop where
  inputs : files = (lastOf cfg.persistentRecord (w.givenBy cfg run)).mapIdx
    (fun cnt data => ⟨folder, w.fsrv.persistentRecordCnt, cnt, data⟩)
  last : (files.map RecordFile.data).getLast? = some w.testcase

private theorem getLast_lastOf {count : Nat} (pos : 0 < count) (front : List Input) (last : Input) :
    (lastOf count (front ++ [last])).getLast? = some last := by
  have short : front.length + 1 - min count (front.length + 1) ≤ front.length := by omega
  rw [lastOf, length_append, length_singleton, drop_append_of_le_length short, List.getLast?_concat]

include recorded

private theorem Recorded.givenBy_concat :
    ∃ front, w.givenBy cfg run = front ++ [w.testcase] := by
  by_cases spawns : w.Spawns cfg run
  · exact ⟨[], by rw [World.givenBy, if_pos spawns]; rfl⟩
  · exact ⟨w.given, by rw [World.givenBy, if_neg spawns, if_pos recorded.2]⟩

include legal in
include kept in
private theorem Kept.replays (folder : Folder) :
    Replays cfg w run folder ((settled cfg run w.fsrv).store cfg folder) := by
  have files := (kept.holds_settled legal recorded).store folder
  rw [settled_cnt] at files
  refine ⟨files, ?_⟩
  obtain ⟨_, given⟩ := recorded.givenBy_concat
  have atLeastTwo := cfg.atLeastTwo
  rw [files, List.getLast?_map, List.getLast?_mapIdx, given, getLast_lastOf (by omega)]
  rfl

omit recorded

/-- If every test case of the fuzzer goes through `afl_fsrv_write_to_testcase` and is run
by this fork server's child once, the files of a crash or a hang replay the child. -/
theorem record_replays_child (cfg : Settings) (events : List Event) (run : Run) (out : Outcome)
    (legal : Along (step cfg) (Legal cfg) World.initial (events ++ [.run run]))
    (recorded : Along (step cfg) (Recorded cfg) World.initial (events ++ [.run run]))
    (ended : runTarget cfg run (runFrom (step cfg) World.initial events).fsrv = some out) :
    (out.fault = .crash → Replays cfg (runFrom (step cfg) World.initial events) run
      .crashes out.files) ∧
    (out.fault = .tmout → Replays cfg (runFrom (step cfg) World.initial events) run
      .hangs out.files) := by
  obtain ⟨pre, last⟩ := (legal.and recorded).of_append
  have kept := runFrom_invariant (Kept _) (fun w event kept guards => kept.step _ guards.1 guards.2)
    World.initial Kept.initial _ pre
  have settles := runTarget_settles ended
  refine ⟨?_, ?_⟩
  · intro crash
    rw [settles.crash crash]
    exact kept.replays last.1.1 last.1.2 .crashes
  · intro tmout
    rw [settles.tmout tmout]
    exact kept.replays last.1.1 last.1.2 .hangs

def twoCells : Settings :=
  { persistentRecord := 2
    atLeastTwo := Nat.le_refl 2
    rules := { guiMode := false, usesAsan := 0, crashExitcode := none }
    useShmemFuzz := true
    useFutex := true
    persistentMode := true
    minLength := 1
    maxLength := 8 }

def doneRun : Run :=
  { exited := false, pid := 7, done := true, timedOut := false, execFail := false
    status := 0, alive := true }

def crashRun : Run := { doneRun with done := false, status := 11 }

def threeInputs : List Event :=
  [.delivery (.write false [1]), .run doneRun, .delivery (.write false [2]), .run doneRun,
    .delivery (.write false [3])]

theorem record_replays_child_sample :
    (Along (step twoCells) (Legal twoCells) World.initial (threeInputs ++ [.run crashRun]) ∧
      Along (step twoCells) (Recorded twoCells) World.initial (threeInputs ++ [.run crashRun])) ∧
    let w := runFrom (step twoCells) World.initial threeInputs
    ∃ out, runTarget twoCells crashRun w.fsrv = some out ∧ out.fault = .crash ∧
      Replays twoCells w crashRun .crashes out.files := by
  have legal : Along (step twoCells) (Legal twoCells) World.initial
      (threeInputs ++ [.run crashRun]) := by decide
  have recorded : Along (step twoCells) (Recorded twoCells) World.initial
      (threeInputs ++ [.run crashRun]) := by decide
  refine ⟨⟨legal, recorded⟩, _, rfl, by decide, ?_⟩
  exact (record_replays_child twoCells threeInputs crashRun _ legal recorded rfl).1 (by decide)

def trimming : List Event :=
  [.delivery (.write false [1, 2]), .run doneRun, .delivery (.gap [1, 2] 0 1)]

/-- The test case of a trimming run is not in the record of its crash. -/
theorem trimming_not_recorded :
    Along (step twoCells) (Legal twoCells) World.initial (trimming ++ [.run crashRun]) ∧
    let w := runFrom (step twoCells) World.initial trimming
    ∃ out, runTarget twoCells crashRun w.fsrv = some out ∧
      out.fault = .crash ∧ out.files = [⟨.crashes, 0, 0, [1, 2]⟩] ∧
      w.givenBy twoCells crashRun = [[1, 2], [2]] ∧
      ¬Replays twoCells w crashRun .crashes out.files := by
  refine ⟨by decide, _, rfl, by decide, by decide, by decide, ?_⟩
  intro replays
  exact absurd replays.last (by decide)

end AflPlusPlus.PersistentRecord
