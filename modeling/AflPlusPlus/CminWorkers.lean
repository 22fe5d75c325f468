/-
The worker processes of afl-cmin.

Execution workers push their results into the shared queue, update workers take them
out, and the parent pushes one STOP for every update worker at the end.  A process that
cannot go on sleeps until it is signalled, and may wake up without a signal.
-/

import AflPlusPlus.CminQueue
import AflPlusPlus.Machine.GuardedRun

namespace AflPlusPlus.Cmin

open Machine List Function

/-- A run of the workers.  Each execution worker comes to push a list of results, of
a length that its message buffer has: an index, a count, and at most one word for
each cell of the map. -/
structure Workload where
  execWorkers : Nat
  updateWorkers : Nat
  capacity : Nat
  mapSize : Nat
  results : Nat → List (List Byte)
  served : 0 < updateWorkers
  roomy : 8 ≤ capacity
  small : capacity < 2 ^ 32
  narrow : 8 + (2 + mapSize) * 4 < 2 ^ 32
  sized : ∀ who, ∀ data ∈ results who, 8 ≤ data.length ∧ data.length ≤ (2 + mapSize) * 4

inductive Phase where
  | awake
  | asleep
  | done
  | died
  deriving DecidableEq

def Phase.woken : Phase → Phase
  | .asleep => .awake
  | phase => phase

structure Sender where
  phase : Phase
  pending : List Message

/-- The parent is the sender behind the execution workers.  What was pushed and
popped, by whom, is recorded. -/
structure Workers where
  queue : CminQueue
  sender : Nat → Sender
  receiver : Nat → Phase
  pushed : List (Nat × Message)
  popped : List (Nat × Message)

def dataMessage (data : List Byte) : Message := ⟨queueMsgData, data⟩
def stopMessage : Message := ⟨queueMsgStop, []⟩

namespace Workload

variable (load : Workload)

def plan (who : Nat) : List Message :=
  if who < load.execWorkers then (load.results who).map dataMessage
  else if who = load.execWorkers then List.replicate load.updateWorkers stopMessage
  else []

def start : Workers where
  queue := queueInit load.capacity
  sender := fun who => ⟨.awake, load.plan who⟩
  receiver := fun _ => .awake
  pushed := []
  popped := []

def Exited (s : Workers) : Prop :=
  ∀ who, who < load.execWorkers → (s.sender who).phase = .done ∨ (s.sender who).phase = .died

instance (s : Workers) : Decidable (load.Exited s) :=
  inferInstanceAs (Decidable (∀ who, who < load.execWorkers →
    (s.sender who).phase = .done ∨ (s.sender who).phase = .died))

/-- The sender can take a step; the parent waits for the execution workers. -/
def Ready (s : Workers) (who : Nat) : Prop :=
  who ≤ load.execWorkers ∧ (s.sender who).phase = .awake ∧ (who = load.execWorkers → load.Exited s)

instance (s : Workers) (who : Nat) : Decidable (load.Ready s who) :=
  inferInstanceAs (Decidable (who ≤ load.execWorkers ∧ (s.sender who).phase = .awake ∧
    (who = load.execWorkers → load.Exited s)))

end Workload

/-- A step of a process; `woken` is the sleeper that its signal wakes. -/
inductive WorkerAction where
  | send (who woken : Nat)
  | receive (who woken : Nat)
  | wakeSender (who : Nat)
  | wakeReceiver (who : Nat)

namespace Workers

variable (s : Workers)

@[simps]
def setPhase (who : Nat) (phase : Phase) : Workers :=
  { s with
    sender := update s.sender who { s.sender who with phase := phase } }

@[simps]
def setReceiver (who : Nat) (phase : Phase) : Workers :=
  { s with receiver := update s.receiver who phase }

def wakeSender (who : Nat) : Workers := s.setPhase who (s.sender who).phase.woken

def wakeReceiver (who : Nat) : Workers := s.setReceiver who (s.receiver who).woken

@[simps]
def sent (who : Nat) (msg : Message) (rest : List Message) (queue : CminQueue) : Workers :=
  { s with
    queue := queue
    sender := update s.sender who { s.sender who with pending := rest }
    pushed := s.pushed ++ [(who, msg)] }

@[simps]
def received (who : Nat) (msg : Message) (queue : CminQueue) : Workers :=
  { s with
    queue := queue
    popped := s.popped ++ [(who, msg)] }

end Workers

def updateWorker (msg : Message) : Phase :=
  if msg.type = queueMsgStop then .done
  else if msg.type = queueMsgData then
    if msg.data.length < 8 then .died else .awake
  else .awake

namespace Workload

variable (load : Workload)

def maxLen : Nat := (2 + load.mapSize) * 4

def send (s : Workers) (who woken : Nat) : Workers :=
  match (s.sender who).pending with
  | [] => s.setPhase who .done
  | msg :: rest =>
    match queuePush s.queue msg with
    | .fatal => s.setPhase who .died
    | .wait => s.setPhase who .asleep
    | .done queue => (s.sent who msg rest queue).wakeReceiver woken

def receive (s : Workers) (who woken : Nat) : Workers :=
  match queuePop s.queue load.maxLen with
  | .fatal => s.setReceiver who .died
  | .wait => s.setReceiver who .asleep
  | .done (msg, queue) =>
    ((s.received who msg queue).setReceiver who (updateWorker msg)).wakeSender woken

def step (s : Workers) : WorkerAction → Workers
  | .send who woken => if load.Ready s who then send s who woken else s
  | .receive who woken =>
    if who < load.updateWorkers ∧ s.receiver who = .awake then
      load.receive s who woken
    else s
  | .wakeSender who => s.wakeSender who
  | .wakeReceiver who => s.wakeReceiver who

def Busy (s : Workers) : WorkerAction → Prop
  | .send who _ => load.Ready s who
  | .receive who _ => who < load.updateWorkers ∧ s.receiver who = .awake
  | .wakeSender _ => False
  | .wakeReceiver _ => False

def Signals (s : Workers) : WorkerAction → Prop
  | .send _ woken =>
    (∃ who, who < load.updateWorkers ∧ s.receiver who = .asleep) →
      woken < load.updateWorkers ∧ s.receiver woken = .asleep
  | .receive _ woken =>
    (∃ who, who ≤ load.execWorkers ∧ (s.sender who).phase = .asleep) →
      woken ≤ load.execWorkers ∧ (s.sender woken).phase = .asleep
  | .wakeSender _ => True
  | .wakeReceiver _ => True

instance (s : Workers) : (act : WorkerAction) → Decidable (load.Signals s act)
  | .send _ woken => inferInstanceAs (Decidable
      ((∃ who, who < load.updateWorkers ∧ s.receiver who = .asleep) →
        woken < load.updateWorkers ∧ s.receiver woken = .asleep))
  | .receive _ woken => inferInstanceAs (Decidable
      ((∃ who, who ≤ load.execWorkers ∧ (s.sender who).phase = .asleep) →
        woken ≤ load.execWorkers ∧ (s.sender woken).phase = .asleep))
  | .wakeSender _ => isTrue trivial
  | .wakeReceiver _ => isTrue trivial

end Workload

def messagesOf (log : List (Nat × Message)) (who : Nat) : List Message :=
  (log.filter (fun entry => entry.1 = who)).map Prod.snd

variable (log : List (Nat × Message))

@[simp] theorem messagesOf_append_self (who : Nat) (msg : Message) :
    messagesOf (log ++ [(who, msg)]) who = messagesOf log who ++ [msg] := by
  simp [messagesOf]

theorem messagesOf_append_other {who other : Nat} (ne : other ≠ who) (msg : Message) :
    messagesOf (log ++ [(who, msg)]) other = messagesOf log other := by
  simp [messagesOf, Ne.symm ne]

variable {entry : Nat × Message}

private theorem mem_messagesOf {log : List (Nat × Message)}
    (logged : entry ∈ log) : entry.2 ∈ messagesOf log entry.1 := by
  simp only [messagesOf, mem_map, mem_filter, decide_eq_true_eq]
  exact ⟨entry, ⟨logged, rfl⟩, rfl⟩

def Orderly : Phase → List Message → Prop
  | .done, taken => ∃ data, taken = data ++ [stopMessage] ∧ ∀ msg ∈ data, msg.type = queueMsgData
  | .died, _ => False
  | .awake, taken | .asleep, taken => ∀ msg ∈ taken, msg.type = queueMsgData

structure Sound (load : Workload) (s : Workers) (waiting : List Message) : Prop where
  contains : Contains s.queue waiting
  capacity : s.queue.capacity = load.capacity
  fifo : s.pushed.map Prod.snd = s.popped.map Prod.snd ++ waiting
  sent : ∀ who, messagesOf s.pushed who ++ (s.sender who).pending = load.plan who
  through : ∀ who, (s.sender who).phase = .done → (s.sender who).pending = []
  parent : (s.sender load.execWorkers).phase ≠ .died
  late : ∃ data stops, s.pushed = data ++ stops ∧ (∀ entry ∈ data, entry.1 < load.execWorkers) ∧
    (∀ entry ∈ stops, entry.1 = load.execWorkers) ∧ (stops ≠ [] → load.Exited s)
  taken : ∀ who, Orderly (s.receiver who) (messagesOf s.popped who)
  takers : ∀ entry ∈ s.popped, entry.1 < load.updateWorkers
  stops : (s.popped.map Prod.snd).count stopMessage =
    Nat.count (fun who => s.receiver who = .done) load.updateWorkers

variable {load : Workload} {s : Workers} {waiting : List Message}

theorem Workload.start_sound (load : Workload) : Sound load load.start [] where
  contains := Contains.init (Nat.lt_of_lt_of_le (by decide) load.roomy) load.small
  capacity := rfl
  fifo := rfl
  sent := fun _ => rfl
  through := nofun
  parent := nofun
  late := ⟨[], [], rfl, by simp, by simp, fun bad => absurd rfl bad⟩
  taken := fun _ => by simp [Workload.start, Orderly, messagesOf]
  takers := by simp [Workload.start]
  stops := by simp [Workload.start]

variable {who : Nat} {msg : Message} {sender : Sender}

theorem Workload.plan_data (worker : who < load.execWorkers) (planned : msg ∈ load.plan who) :
    msg.type = queueMsgData ∧ 8 ≤ msg.data.length ∧ msg.data.length ≤ load.maxLen := by
  simp only [plan, if_pos worker, mem_map] at planned
  obtain ⟨data, mem, rfl⟩ := planned
  exact ⟨rfl, load.sized _ _ mem⟩

theorem Workload.plan_stop (planned : msg ∈ load.plan load.execWorkers) :
    msg = stopMessage := by
  simp only [plan, Nat.lt_irrefl, if_false, if_true] at planned
  exact eq_of_mem_replicate planned

theorem Workload.plan_cases (planned : msg ∈ load.plan who) :
    (msg.type = queueMsgData ∧ 8 ≤ msg.data.length ∧
      msg.data.length ≤ load.maxLen) ∨ msg = stopMessage := by
  by_cases worker : who < load.execWorkers
  · exact .inl (plan_data worker planned)
  · by_cases parent : who = load.execWorkers
    · subst parent
      exact .inr (plan_stop planned)
    · simp [plan, worker, parent] at planned

theorem Workload.plan_short (planned : msg ∈ load.plan who) :
    msg.data.length ≤ load.maxLen ∧ 8 + msg.data.length < 2 ^ 32 := by
  have narrow := load.narrow
  have bounded : msg.data.length ≤ load.maxLen := by
    rcases plan_cases planned with res | stop
    · exact res.2.2
    · rw [stop]
      exact Nat.zero_le _
  unfold maxLen at bounded
  exact ⟨bounded, by omega⟩

variable {rest : List Message} {queue : CminQueue}

section

variable (sound : Sound load s waiting)

include sound

theorem Sound.planned (logged : entry ∈ s.pushed) : entry.2 ∈ load.plan entry.1 := by
  rw [← sound.sent entry.1]
  exact mem_append_left _ (mem_messagesOf logged)

theorem Sound.waiting_planned (held : msg ∈ waiting) :
    ∃ who, msg ∈ load.plan who := by
  have logged : msg ∈ s.pushed.map Prod.snd := by
    rw [sound.fifo]
    exact mem_append_right _ held
  obtain ⟨entry, mem, same⟩ := mem_map.1 logged
  exact ⟨entry.1, same ▸ sound.planned mem⟩

omit sound

theorem Workload.Exited.of_update (exited : load.Exited s)
    (stays : (s.sender who).phase = .done ∨ (s.sender who).phase = .died →
      sender.phase = .done ∨ sender.phase = .died) :
    ∀ other, other < load.execWorkers → (update s.sender who sender other).phase = .done ∨
        (update s.sender who sender other).phase = .died := by
  refine (Function.forall_update_iff s.sender (fun other held =>
    other < load.execWorkers → held.phase = .done ∨ held.phase = .died)).2
      ⟨fun worker => stays (exited _ worker), ?_⟩
  intro other _ worker
  exact exited _ worker

include sound

theorem Sound.through_update (through : sender.phase = .done → sender.pending = []) :
    ∀ other, (update s.sender who sender other).phase = .done →
      (update s.sender who sender other).pending = [] := by
  refine (Function.forall_update_iff s.sender (fun _ held =>
    held.phase = .done → held.pending = [])).2 ⟨through, ?_⟩
  intro other _
  exact sound.through _

theorem Sound.parent_update (parent : who = load.execWorkers → sender.phase ≠ .died) :
    (update s.sender who sender load.execWorkers).phase ≠ .died := by
  refine (Function.forall_update_iff s.sender (fun other held =>
    other = load.execWorkers → held.phase ≠ .died)).2 ⟨parent, ?_⟩ load.execWorkers rfl
  intro other _ same
  rw [same]
  exact sound.parent

omit sound

private theorem Workers.setPhase_pending (s : Workers) (who other : Nat) (phase : Phase) :
    ((s.setPhase who phase).sender other).pending = (s.sender other).pending := by
  rw [Workers.setPhase_sender, update_apply]
  split <;> simp_all

section

variable (sound : Sound load s waiting)
include sound

theorem Sound.setPhase {who : Nat} {phase : Phase}
    (through : phase = .done → (s.sender who).pending = [])
    (parent : who = load.execWorkers → phase ≠ .died)
    (stays : (s.sender who).phase = .done ∨ (s.sender who).phase = .died →
      phase = .done ∨ phase = .died) : Sound load (s.setPhase who phase) waiting :=
  { sound with
    sent := by
      intro other
      rw [Workers.setPhase_pending]
      exact sound.sent _
    through := sound.through_update through
    parent := sound.parent_update parent
    late := by
      obtain ⟨data, stops, parts, early, last, gone⟩ := sound.late
      exact ⟨data, stops, parts, early, last, fun some => (gone some).of_update stays⟩ }

private theorem Sound.wakeSender (who : Nat) : Sound load (s.wakeSender who) waiting := by
  have parent := sound.parent
  apply sound.setPhase
  · intro done
    apply sound.through
    cases held : (s.sender who).phase <;> simp_all [Phase.woken]
  · intro same
    cases held : (s.sender load.execWorkers).phase <;> simp_all [Phase.woken]
  · intro gone
    cases held : (s.sender who).phase <;> simp_all [Phase.woken]

private theorem Sound.sent_step (ready : load.Ready s who)
    (pending : (s.sender who).pending = msg :: rest)
    (contains : Contains queue (waiting ++ [msg]))
    (cap : queue.capacity = s.queue.capacity) :
    Sound load (s.sent who msg rest queue) (waiting ++ [msg]) where
  __ := sound
  contains := contains
  capacity := cap.trans sound.capacity
  fifo := by
    simp [sound.fifo]
  sent := by
    intro other
    rw [Workers.sent_pushed, Workers.sent_sender]
    by_cases same : other = who
    · subst same
      have pre := sound.sent other
      rw [pending] at pre
      simpa using pre
    · rw [messagesOf_append_other _ same, update_of_ne same]
      exact sound.sent _
  through := by
    apply sound.through_update
    intro done
    exact absurd (done.symm.trans ready.2.1) (by decide)
  parent := by
    apply sound.parent_update
    intro same
    rw [same]
    exact sound.parent
  late := by
    obtain ⟨data, stops, parts, early, last, gone⟩ := sound.late
    by_cases worker : who < load.execWorkers
    · -- an execution worker that pushes has not exited, so no STOP is in yet
      have none : stops = [] := by
        by_contra some
        have exited := gone some _ worker
        rw [ready.2.1] at exited
        rcases exited with bad | bad <;> cases bad
      refine ⟨data ++ [(who, msg)], [], ?_, ?_, by simp, by simp⟩
      · simp [parts, none]
      · intro entry mem
        rcases mem_append.1 mem with pre | new
        · exact early _ pre
        · rw [mem_singleton.1 new]
          exact worker
    · have parent : who = load.execWorkers := Nat.le_antisymm ready.1 (Nat.le_of_not_lt worker)
      refine ⟨data, stops ++ [(who, msg)], ?_, early, ?_, ?_⟩
      · simp [parts]
      · intro entry mem
        rcases mem_append.1 mem with pre | new
        · exact last _ pre
        · rw [mem_singleton.1 new]
          exact parent
      · intro _
        exact (ready.2.2 parent).of_update (fun held => held)

theorem Sound.setReceiver {phase : Phase} (pre : s.receiver who = .awake ∨ s.receiver who = .asleep)
    (post : phase = .awake ∨ phase = .asleep) : Sound load (s.setReceiver who phase) waiting :=
  { sound with
    taken := by
      refine (Function.forall_update_iff s.receiver (fun other phase =>
        Orderly phase (messagesOf s.popped _))).2 ⟨?_, fun other _ => sound.taken _⟩
      have orderly := sound.taken who
      rcases pre with pre | pre <;> rcases post with post | post <;>
        · rw [pre] at orderly
          rw [post]
          exact orderly
    stops := by
      rw [Workers.setReceiver_popped, sound.stops]
      apply count_congr
      intro other _
      rw [Workers.setReceiver_receiver, update_apply]
      split
      · rename_i same
        rw [same]
        rcases pre with pre | pre <;> rcases post with post | post <;>
          simp [pre, post]
      · rfl }

private theorem Sound.wakeReceiver (who : Nat) : Sound load (s.wakeReceiver who) waiting := by
  cases held : s.receiver who with
  | asleep =>
    apply sound.setReceiver (.inr held)
    rw [held]
    exact .inl rfl
  | awake | done | died =>
    have same : s.wakeReceiver who = s := by
      have unchanged : update s.receiver who (s.receiver who) =
          s.receiver := update_eq_self _ s.receiver
      rw [held] at unchanged
      simp only [Workers.wakeReceiver, Workers.setReceiver, held, Phase.woken, unchanged]
    rw [same]
    exact sound

end

theorem updateWorker_planned (planned : msg ∈ load.plan who) :
    (msg.type = queueMsgData ∧ updateWorker msg = .awake) ∨
      (msg = stopMessage ∧ updateWorker msg = .done) := by
  rcases Workload.plan_cases planned with ⟨data, large, _⟩ | stop
  · refine .inl ⟨data, ?_⟩
    have ne : queueMsgData ≠ queueMsgStop := by decide
    simp [updateWorker, data, if_neg ne, if_neg (Nat.not_lt.2 large)]
  · refine .inr ⟨stop, ?_⟩
    rw [stop]
    rfl

private theorem Sound.received_step (sound : Sound load s (msg :: rest))
    (within : who < load.updateWorkers) (awake : s.receiver who = .awake)
    (contains : Contains queue rest) (cap : queue.capacity = s.queue.capacity) :
    Sound load ((s.received who msg queue).setReceiver who (updateWorker msg)) rest where
  __ := sound
  contains := contains
  capacity := cap.trans sound.capacity
  fifo := by
    simp [sound.fifo]
  taken := by
    intro other
    change Orderly (update s.receiver who (updateWorker msg) other)
      (messagesOf (s.popped ++ [(who, msg)]) other)
    by_cases same : other = who
    · subst same
      have orderly := sound.taken other
      rw [awake] at orderly
      obtain ⟨sender, planned⟩ := sound.waiting_planned (mem_cons_self ..)
      rw [update_self, messagesOf_append_self]
      rcases updateWorker_planned planned with ⟨data, next⟩ | ⟨stop, next⟩
      · rw [next]
        intro taken mem
        rcases mem_append.1 mem with pre | new
        · exact orderly _ pre
        · rw [mem_singleton.1 new]
          exact data
      · rw [stop]
        exact ⟨_, rfl, orderly⟩
    · rw [messagesOf_append_other _ same, update_of_ne same]
      exact sound.taken _
  takers := by
    intro entry mem
    rcases mem_append.1 mem with pre | new
    · exact sound.takers _ pre
    · rw [mem_singleton.1 new]
      exact within
  stops := by
    obtain ⟨sender, planned⟩ := sound.waiting_planned (mem_cons_self ..)
    have moved := count_update (· = Phase.done) s.receiver within (updateWorker msg)
    have stops := sound.stops
    rw [awake, if_neg (by decide), Nat.add_zero] at moved
    change ((s.popped ++ [(who, msg)]).map Prod.snd).count stopMessage =
      Nat.count (fun i => update s.receiver who (updateWorker msg) i = .done) load.updateWorkers
    rw [map_append, count_append, moved, stops]
    rcases updateWorker_planned planned with ⟨data, next⟩ | ⟨stop, next⟩
    · have other : msg ≠ stopMessage := by
        intro same
        rw [same] at data
        exact absurd data (by decide)
      simp [next, other]
    · rw [stop]
      rfl

inductive Move (load : Workload) (s : Workers) (waiting : List Message) :
    WorkerAction → Workers → List Message → Prop where
  | idle {act : WorkerAction} (blocked : ¬ load.Busy s act) :
      Move load s waiting act s waiting
  | finish {who : Nat} (woken : Nat) (ready : load.Ready s who)
      (nothing : (s.sender who).pending = []) :
      Move load s waiting (.send who woken) (s.setPhase who .done) waiting
  | refuse {who : Nat} (woken : Nat) {msg : Message} {rest : List Message}
      (ready : load.Ready s who) (pending : (s.sender who).pending = msg :: rest)
      (large : load.capacity < msg.bytes.length) :
      Move load s waiting (.send who woken) (s.setPhase who .died) waiting
  | doze {who : Nat} (woken : Nat) {msg : Message} {rest : List Message}
      (ready : load.Ready s who) (pending : (s.sender who).pending = msg :: rest)
      (fits : msg.bytes.length ≤ load.capacity) (full : waiting ≠ []) :
      Move load s waiting (.send who woken) (s.setPhase who .asleep) waiting
  | push {who : Nat} (woken : Nat) {msg : Message} {rest : List Message}
      {queue : CminQueue} (ready : load.Ready s who)
      (pending : (s.sender who).pending = msg :: rest)
      (contains : Contains queue (waiting ++ [msg]))
      (cap : queue.capacity = s.queue.capacity) :
      Move load s waiting (.send who woken)
        ((s.sent who msg rest queue).wakeReceiver woken) (waiting ++ [msg])
  | starve {who : Nat} (woken : Nat) (within : who < load.updateWorkers)
      (awake : s.receiver who = .awake) (nothing : waiting = []) :
      Move load s waiting (.receive who woken) (s.setReceiver who .asleep) waiting
  | take {who : Nat} (woken : Nat) {msg : Message} {rest : List Message}
      {queue : CminQueue} (within : who < load.updateWorkers)
      (awake : s.receiver who = .awake) (some : waiting = msg :: rest)
      (contains : Contains queue rest) (cap : queue.capacity = s.queue.capacity) :
      Move load s waiting (.receive who woken) (((s.received who msg queue).setReceiver who
          (updateWorker msg)).wakeSender woken) rest
  | wakeSender (who : Nat) :
      Move load s waiting (.wakeSender who) (s.wakeSender who) waiting
  | wakeReceiver (who : Nat) :
      Move load s waiting (.wakeReceiver who) (s.wakeReceiver who) waiting

include sound in
private theorem Sound.send_move (ready : load.Ready s who) (woken : Nat) :
    ∃ left, Move load s waiting (.send who woken) (Workload.send s who woken) left := by
  unfold Workload.send
  cases pending : (s.sender who).pending with
  | nil => exact ⟨waiting, .finish _ ready pending⟩
  | cons msg rest =>
    have planned : msg ∈ load.plan who := by
      rw [← sound.sent _, pending]
      exact mem_append_right _ (mem_cons_self ..)
    rcases sound.contains.push (Workload.plan_short planned).2 with
      ⟨fatal, large⟩ | ⟨wait, fits, full⟩ | ⟨_, done, cap, contains⟩
    · simp only [fatal]
      rw [sound.capacity] at large
      exact ⟨waiting, .refuse _ ready pending large⟩
    · simp only [wait]
      rw [sound.capacity] at fits
      refine ⟨waiting, .doze _ ready pending fits ?_⟩
      intro nothing
      have empty := sound.contains.size_eq_zero_iff.2 nothing
      rw [sound.capacity] at full
      omega
    · simp only [done]
      exact ⟨waiting ++ [msg], .push _ ready pending contains cap⟩

end

private theorem Sound.receive_move (sound : Sound load s waiting)
    (within : who < load.updateWorkers)
    (awake : s.receiver who = .awake) (woken : Nat) :
    ∃ left, Move load s waiting (.receive who woken) (load.receive s who woken) left := by
  unfold Workload.receive
  cases held : waiting with
  | nil =>
    have contains := sound.contains
    rw [held] at contains
    rw [contains.pop_nil]
    exact ⟨[], .starve _ within awake rfl⟩
  | cons msg rest =>
    have contains := sound.contains
    rw [held] at contains
    obtain ⟨_, planned⟩ := sound.waiting_planned (held ▸ mem_cons_self ..)
    obtain ⟨_, done, cap, left⟩ := contains.pop (Workload.plan_short planned).1
    simp only [done]
    exact ⟨rest, .take _ within awake rfl left cap⟩

theorem Sound.move (sound : Sound load s waiting) (act : WorkerAction) :
    ∃ left, Move load s waiting act (load.step s act) left := by
  cases act with
  | send who woken =>
    by_cases ready : load.Ready s who
    · simp only [Workload.step, if_pos ready]
      exact sound.send_move ready _
    · simp only [Workload.step, if_neg ready]
      exact ⟨waiting, .idle ready⟩
  | receive who woken =>
    by_cases able : who < load.updateWorkers ∧ s.receiver who = .awake
    · simp only [Workload.step, if_pos able]
      exact sound.receive_move able.1 able.2 _
    · simp only [Workload.step, if_neg able]
      exact ⟨waiting, .idle able⟩
  | wakeSender who => exact ⟨waiting, .wakeSender _⟩
  | wakeReceiver who => exact ⟨waiting, .wakeReceiver _⟩

theorem Workload.Ready.not_exited (ready : load.Ready s who) :
    ¬ ((s.sender who).phase = .done ∨ (s.sender who).phase = .died) := by
  rw [ready.2.1]
  intro exited
  rcases exited with bad | bad <;> cases bad

theorem Move.sound {act : WorkerAction} {later : Workers} {left : List Message}
    (move : Move load s waiting act later left) (sound : Sound load s waiting) :
    Sound load later left := by
  cases move with
  | idle => exact sound
  | finish woken ready nothing =>
    exact sound.setPhase (fun _ => nothing) nofun (fun exited => absurd exited ready.not_exited)
  | @refuse who woken msg rest ready pending large =>
    refine sound.setPhase nofun ?_ (fun exited => absurd exited ready.not_exited)
    intro parent
    exfalso
    have planned : msg ∈ load.plan who := by
      rw [← sound.sent _, pending]
      exact mem_append_right _ (mem_cons_self ..)
    rw [parent] at planned
    rw [Workload.plan_stop planned] at large
    exact absurd load.roomy (Nat.not_le.2 large)
  | doze woken ready pending fits full =>
    exact sound.setPhase nofun nofun (fun exited => absurd exited ready.not_exited)
  | push woken ready pending contains cap =>
    exact (sound.sent_step ready pending contains cap).wakeReceiver _
  | starve woken within awake nothing => exact sound.setReceiver (.inl awake) (.inr rfl)
  | take woken within awake some contains cap =>
    rw [some] at sound
    exact (sound.received_step within awake contains cap).wakeSender _
  | wakeSender who => exact sound.wakeSender _
  | wakeReceiver who => exact sound.wakeReceiver _

end AflPlusPlus.Cmin
