/-
Every result of an execution worker of afl-cmin is processed once.

Whatever the order of the steps, the messages come out of the queue as they went in, and
each update worker stops at its one STOP.  No wake-up is lost: while a process is left,
one of them can go on.
-/

import AflPlusPlus.CminWorkers

namespace AflPlusPlus.Cmin

open Machine List Function

variable {load : Workload} {s : Workers} {waiting : List Message}

def AboutToPush (load : Workload) (s : Workers) (who : Nat) : Prop :=
  ∃ msg rest, (s.sender who).pending = msg :: rest ∧ msg.bytes.length ≤ load.capacity

structure Alert (load : Workload) (s : Workers) (waiting : List Message) : Prop where
  /-- Where a receiver sleeps, as many are awake as there are messages. -/
  heard : (∃ who, who < load.updateWorkers ∧ s.receiver who = .asleep) →
    waiting.length ≤ Nat.count (fun who => s.receiver who = .awake) load.updateWorkers
  held : ∀ who, (s.sender who).phase = .asleep →
    AboutToPush load s who ∧ (who = load.execWorkers → load.Exited s)
  /-- Where a sender sleeps although the ring is empty, another one will fill it. -/
  relay : waiting = [] → (∃ who, who ≤ load.execWorkers ∧ (s.sender who).phase = .asleep) →
      ∃ who, load.Ready s who ∧ AboutToPush load s who

private theorem Workload.start_alert (load : Workload) : Alert load load.start [] where
  heard := fun _ => Nat.zero_le _
  held := nofun
  relay := fun _ ⟨_, _, bad⟩ => nomatch bad

variable {who : Nat} {phase : Phase}

theorem AboutToPush.setPhase (about : AboutToPush load s who) (other : Nat) (phase : Phase) :
    AboutToPush load (s.setPhase other phase) who := by
  unfold AboutToPush
  rw [Workers.setPhase_sender]
  by_cases same : who = other
  · subst same
    rw [update_self]
    exact about
  · rw [update_of_ne same]
    exact about

theorem Workload.Exited.setPhase (exited : load.Exited s)
    (stays : (s.sender who).phase = .done ∨ (s.sender who).phase = .died →
      phase = .done ∨ phase = .died) : load.Exited (s.setPhase who phase) :=
  exited.of_update stays

private theorem Workload.Ready.setPhase {other : Nat} (ready : load.Ready s who)
    (stays : (s.sender other).phase = .done ∨ (s.sender other).phase = .died →
      phase = .done ∨ phase = .died) (kept :
    who = other → phase = .awake) : load.Ready (s.setPhase other phase) who := by
  refine ⟨ready.1, ?_, fun parent => (ready.2.2 parent).setPhase stays⟩
  rw [Workers.setPhase_sender]
  by_cases same : who = other
  · subst same
    rw [update_self]
    exact kept rfl
  · rw [update_of_ne same]
    exact ready.2.1

theorem Alert.setPhase (alert : Alert load s waiting)
    (stays : (s.sender who).phase = .done ∨ (s.sender who).phase = .died →
      phase = .done ∨ phase = .died)
    (sleeps : phase = .asleep →
      AboutToPush load s who ∧ (who = load.execWorkers → load.Exited s) ∧ waiting ≠ [])
    (other : waiting = [] → AboutToPush load s who → phase ≠ .awake → ¬ load.Ready s who) :
    Alert load (s.setPhase who phase) waiting where
  heard := alert.heard
  held := by
    intro sleeper
    rw [Workers.setPhase_sender]
    by_cases same : sleeper = who
    · subst same
      rw [update_self]
      intro asleep
      obtain ⟨about, early, _⟩ := sleeps asleep
      exact ⟨about.setPhase _ _, fun parent => (early parent).setPhase stays⟩
    · rw [update_of_ne same]
      intro asleep
      obtain ⟨about, early⟩ := alert.held sleeper asleep
      exact ⟨about.setPhase _ _, fun parent => (early parent).setPhase stays⟩
  relay := by
    intro nothing sleeper
    obtain ⟨asleep, within, held⟩ := sleeper
    rw [Workers.setPhase_sender] at held
    have pre : (s.sender asleep).phase = .asleep := by
      by_cases same : asleep = who
      · subst same
        rw [update_self] at held
        exact absurd nothing (sleeps held).2.2
      · rw [update_of_ne same] at held
        exact held
    obtain ⟨next, ready, about⟩ := alert.relay nothing ⟨asleep, within, pre⟩
    refine ⟨next, ready.setPhase stays ?_, about.setPhase _ _⟩
    intro same
    subst same
    by_contra gone
    exact other nothing about gone ready

theorem woken_ne_asleep {phase : Phase} : phase.woken ≠ .asleep := by
  cases phase <;> decide

theorem woken_exited (exited : phase = .done ∨ phase = .died) :
    phase.woken = .done ∨ phase.woken = .died := by
  rcases exited with held | held
  · rw [held]
    exact .inl rfl
  · rw [held]
    exact .inr rfl

private theorem Alert.wakeSender (alert : Alert load s waiting) (who : Nat) :
    Alert load (s.wakeSender who) waiting := by
  apply alert.setPhase
  · exact woken_exited
  · intro asleep
    exact absurd asleep (woken_ne_asleep)
  · intro _ _ gone ready
    rw [ready.2.1] at gone
    exact gone rfl

theorem asleep_of_wakeReceiver {woken : Nat}
    (asleep : (s.wakeReceiver woken).receiver who = .asleep) :
    s.receiver who = .asleep := by
  change update s.receiver woken (s.receiver woken).woken who = .asleep at asleep
  by_cases same : who = woken
  · subst same
    rw [update_self] at asleep
    exact absurd asleep (woken_ne_asleep)
  · rw [update_of_ne same] at asleep
    exact asleep

theorem count_awake_wakeReceiver (load : Workload) (s : Workers) (woken : Nat) :
    Nat.count (fun who => s.receiver who = .awake) load.updateWorkers +
        (if woken < load.updateWorkers ∧ s.receiver woken = .asleep then 1 else 0) =
      Nat.count (fun who => (s.wakeReceiver woken).receiver who = .awake) load.updateWorkers := by
  by_cases within : woken < load.updateWorkers
  · have moved : Nat.count (fun who => (s.wakeReceiver woken).receiver who = .awake)
          load.updateWorkers + (if s.receiver woken = .awake then 1 else 0) =
        Nat.count (fun who => s.receiver who = .awake) load.updateWorkers +
          (if (s.receiver woken).woken = .awake then 1 else 0) :=
      count_update (· = Phase.awake) s.receiver within (s.receiver _).woken
    have gained : (if woken < load.updateWorkers ∧ s.receiver woken = .asleep then 1 else 0) +
          (if s.receiver woken = .awake then 1 else 0) =
        (if (s.receiver woken).woken = .awake then 1 else 0) := by
      cases s.receiver _ <;> simp [within, Phase.woken]
    omega
  · rw [if_neg (fun both => within both.1)]
    apply count_congr
    intro who below
    change _ ↔ update s.receiver woken _ who = .awake
    rw [update_of_ne (by omega)]

private theorem Alert.wakeReceiver (alert : Alert load s waiting) (woken : Nat) :
    Alert load (s.wakeReceiver woken) waiting where
  heard := by
    intro sleeper
    obtain ⟨who, within, asleep⟩ := sleeper
    have pre := alert.heard ⟨who, within, asleep_of_wakeReceiver asleep⟩
    have counted := count_awake_wakeReceiver load s woken
    omega
  held := alert.held
  relay := alert.relay

theorem Alert.push {msg : Message} {woken : Nat} (alert : Alert load s waiting)
    (ready : load.Ready s who) (signals : load.Signals s (.send who woken))
    (rest : List Message) (queue : CminQueue) :
    Alert load ((s.sent who msg rest queue).wakeReceiver woken) (waiting ++ [msg]) where
  heard := by
    intro sleeper
    obtain ⟨asleep, within, held⟩ := sleeper
    have pre := asleep_of_wakeReceiver held
    have counted := count_awake_wakeReceiver load (s.sent who msg rest queue) woken
    have awake := signals ⟨asleep, within, pre⟩
    have room := alert.heard ⟨asleep, within, pre⟩
    simp only [Workers.sent_receiver] at counted
    rw [if_pos awake] at counted
    simp only [length_append, length_singleton]
    omega
  held := by
    intro sleeper asleep
    change (update s.sender _ _ _).phase = .asleep at asleep
    by_cases same : sleeper = who
    · subst same
      rw [update_self] at asleep
      exact absurd (asleep.symm.trans ready.2.1) (by decide)
    · rw [update_of_ne same] at asleep
      obtain ⟨about, early⟩ := alert.held _ asleep
      refine ⟨?_, fun parent => (early parent).of_update (fun held => held)⟩
      change ∃ msg rest, (update s.sender _ _ _).pending = _ ∧ _
      rw [update_of_ne same]
      exact about
  relay := by
    intro nothing
    simp at nothing

private theorem asleep_of_wakeSender {woken : Nat}
    (asleep : ((s.wakeSender woken).sender who).phase = .asleep) :
    (s.sender who).phase = .asleep := by
  change (update s.sender _ _ _).phase = .asleep at asleep
  by_cases same : who = woken
  · subst same
    rw [update_self] at asleep
    exact absurd asleep woken_ne_asleep
  · rw [update_of_ne same] at asleep
    exact asleep

theorem Alert.take {msg : Message} {rest : List Message} {woken : Nat}
    (sound : Sound load s (msg :: rest)) (alert : Alert load s (msg :: rest))
    (within : who < load.updateWorkers) (awake : s.receiver who = .awake)
    (signals : load.Signals s (.receive who woken)) (queue : CminQueue) :
    Alert load (((s.received who msg queue).setReceiver who
      (updateWorker msg)).wakeSender woken) rest where
  heard := by
    intro sleeper
    obtain ⟨asleep, inside, held⟩ := sleeper
    change update s.receiver _ (updateWorker _) _ = .asleep at held
    have moved := count_update (· = Phase.awake) s.receiver within (updateWorker msg)
    rw [if_pos awake] at moved
    change _ ≤ Nat.count (fun i =>
      update s.receiver _ (updateWorker _) i = .awake) _
    have other : asleep ≠ who := by
      intro same
      subst same
      rw [update_self] at held
      obtain ⟨sender, planned⟩ := sound.waiting_planned (mem_cons_self ..)
      rcases updateWorker_planned planned with ⟨_, next⟩ | ⟨_, next⟩ <;>
        · rw [next] at held
          cases held
    rw [update_of_ne other] at held
    have room := alert.heard ⟨asleep, inside, held⟩
    rw [length_cons] at room
    omega
  held := by
    intro sleeper asleep
    obtain ⟨about, early⟩ := alert.held sleeper (asleep_of_wakeSender asleep)
    exact ⟨@AboutToPush.setPhase _ _ _ about _ _,
      fun parent => @Workload.Exited.setPhase _ _ _ _ (early parent) woken_exited⟩
  relay := by
    intro _ sleeper
    obtain ⟨asleep, inside, held⟩ := sleeper
    obtain ⟨among, slept⟩ := signals ⟨asleep, inside, asleep_of_wakeSender held⟩
    obtain ⟨about, early⟩ := alert.held _ slept
    refine ⟨woken, ⟨among, ?_, ?_⟩, @AboutToPush.setPhase _ _ _ about _ _⟩
    · change (update s.sender _ _ _).phase = .awake
      rw [update_self]
      change (s.sender _).phase.woken = .awake
      rw [slept]
      rfl
    · intro parent
      exact @Workload.Exited.setPhase _ _ _ _ (early parent) woken_exited

variable {act : WorkerAction} {later : Workers} {left : List Message}
  (move : Move load s waiting act later left)

include move in
private theorem Move.alert (sound : Sound load s waiting) (alert : Alert load s waiting)
    (signals : load.Signals s act) : Alert load later left := by
  cases move with
  | idle => exact alert
  | finish woken ready nothing =>
    refine alert.setPhase (fun exited => absurd exited ready.not_exited) nofun ?_
    intro _ about
    obtain ⟨msg, rest, pending, _⟩ := about
    rw [nothing] at pending
    cases pending
  | refuse woken ready pending large =>
    refine alert.setPhase (fun exited => absurd exited ready.not_exited) nofun ?_
    intro _ about
    obtain ⟨msg, rest, first, fits⟩ := about
    rw [pending] at first
    rw [(List.cons.inj first).1] at large
    omega
  | doze woken ready pending fits full =>
    refine alert.setPhase (fun exited => absurd exited ready.not_exited)
      (fun _ => ⟨⟨_, _, pending, fits⟩, ready.2.2, full⟩) ?_
    intro nothing
    exact absurd nothing full
  | push woken ready pending contains cap => exact alert.push ready signals _ _
  | starve woken within awake nothing =>
    exact
      { heard := by
          intro _
          rw [nothing]
          exact Nat.zero_le _
        held := alert.held
        relay := alert.relay }
  | take woken within awake some contains cap =>
    rw [some] at sound alert
    exact alert.take sound within awake signals _
  | wakeSender who => exact alert.wakeSender _
  | wakeReceiver who => exact alert.wakeReceiver _

def Finished (load : Workload) (s : Workers) : Prop :=
  (∀ who, who ≤ load.execWorkers → (s.sender who).phase = .done ∨ (s.sender who).phase = .died) ∧
  ∀ who, who < load.updateWorkers → s.receiver who = .done ∨ s.receiver who = .died

instance (load : Workload) (s : Workers) : Decidable (Finished load s) :=
  inferInstanceAs (Decidable ((∀ who, who ≤ load.execWorkers →
    (s.sender who).phase = .done ∨ (s.sender who).phase = .died) ∧
    ∀ who, who < load.updateWorkers → s.receiver who = .done ∨ s.receiver who = .died))

section

variable (sound : Sound load s waiting)
include sound

theorem Sound.receiver_ne_died (who : Nat) : s.receiver who ≠ .died := by
  intro died
  have orderly := sound.taken who
  rw [died] at orderly
  exact orderly

variable {data stops : List (Nat × Message)} (parts : s.pushed = data ++ stops)

include parts

variable (early : ∀ entry ∈ data, entry.1 < load.execWorkers)

include early

variable (last : ∀ entry ∈ stops, entry.1 = load.execWorkers)

include last

theorem Sound.count_stop :
    (s.pushed.map Prod.snd).count stopMessage = stops.length := by
  have none : (data.map Prod.snd).count stopMessage = 0 := by
    rw [count_eq_zero]
    intro mem
    obtain ⟨entry, logged, same⟩ := mem_map.1 mem
    have planned := sound.planned (parts ▸ mem_append_left _ logged)
    have res := (Workload.plan_data (early _ logged) planned).1
    rw [same] at res
    exact absurd res (by decide)
  have all : (stops.map Prod.snd).count stopMessage = stops.length := by
    rw [count_eq_length.2, length_map]
    intro msg mem
    obtain ⟨entry, logged, same⟩ := mem_map.1 mem
    have planned := sound.planned (parts ▸ mem_append_right _ logged)
    rw [last _ logged, same] at planned
    exact (Workload.plan_stop planned).symm
  rw [parts, map_append, count_append, none, all, Nat.zero_add]

theorem Sound.stops_le :
    stops.length + (s.sender load.execWorkers).pending.length = load.updateWorkers := by
  have planned := congrArg List.length (sound.sent load.execWorkers)
  have own : messagesOf s.pushed load.execWorkers = stops.map Prod.snd := by
    have none : data.filter (fun entry => entry.1 = load.execWorkers) = [] := by
      rw [filter_eq_nil_iff]
      intro entry logged
      have worker := early _ logged
      simp only [decide_eq_true_eq]
      omega
    have all : stops.filter (fun entry => entry.1 = load.execWorkers) = stops := by
      rw [filter_eq_self]
      intro entry logged
      simp [last _ logged]
    rw [messagesOf, parts, filter_append, none, all, nil_append]
  rw [length_append, own] at planned
  simpa [Workload.plan] using planned

omit last early parts

theorem Sound.drained (through : ∀ who, who < load.updateWorkers → s.receiver who = .done) :
    waiting = [] := by
  obtain ⟨_, stops, parts, early, last, _⟩ := sound.late
  have counted := sound.count_stop parts early last
  have planned := sound.stops_le parts early last
  have popped := sound.stops
  have all : Nat.count (fun who => s.receiver who = .done) load.updateWorkers =
      load.updateWorkers := by
    rw [Nat.count_iff_forall]
    exact fun {who} within => through _ within
  have served := load.served
  rw [sound.fifo, count_append, popped] at counted
  have none : waiting.count stopMessage = 0 := by omega
  -- the last message pushed is a STOP, and it would still be in the queue
  by_contra held
  have lastStop : stops ≠ [] := by
    intro nothing
    rw [nothing, length_nil] at counted
    omega
  have ends : waiting.getLast held = stopMessage := by
    have whole : (s.pushed.map Prod.snd).getLast? = some (stops.getLast lastStop).2 := by
      rw [parts, map_append, List.getLast?_append_of_ne_nil _ (by simpa using lastStop),
        List.getLast?_map, List.getLast?_eq_some_getLast _, Option.map_some]
    rw [sound.fifo, List.getLast?_append_of_ne_nil _ held,
      List.getLast?_eq_some_getLast held] at whole
    have mem := getLast_mem lastStop
    have msg := sound.planned (parts ▸ mem_append_right _ mem)
    rw [last _ mem] at msg
    rw [Option.some.inj whole]
    exact Workload.plan_stop msg
  have mem : stopMessage ∈ waiting := ends ▸ getLast_mem _
  exact absurd none (Nat.pos_iff_ne_zero.1 (count_pos_iff.2 mem))

theorem Sound.progress (alert : Alert load s waiting) (left : ¬ Finished load s) :
    (∃ who, load.Ready s who) ∨ ∃ who, who < load.updateWorkers ∧ s.receiver who = .awake := by
  by_contra stuck
  rw [not_or, not_exists, not_exists] at stuck
  obtain ⟨noSender, noReceiver⟩ := stuck
  have receivers : ∀ who, who < load.updateWorkers →
      s.receiver who = .asleep ∨ s.receiver who = .done := by
    intro who within
    cases held : s.receiver _ with
    | awake => exact absurd ⟨within, held⟩ (noReceiver _)
    | asleep => exact .inl rfl
    | done => exact .inr rfl
    | died => exact absurd held (sound.receiver_ne_died _)
  -- either way the queue is empty
  have empty : waiting = [] := by
    by_cases sleeper : ∃ who, who < load.updateWorkers ∧ s.receiver who = .asleep
    · have room := alert.heard sleeper
      have none : Nat.count (fun who => s.receiver who = .awake) load.updateWorkers = 0 := by
        rw [Nat.count_iff_forall_not]
        exact fun {who} within awake => noReceiver _ ⟨within, awake⟩
      rw [none] at room
      exact length_eq_zero_iff.1 (Nat.le_zero.1 room)
    · apply sound.drained
      intro who within
      rcases receivers _ within with asleep | done
      · exact absurd ⟨who, within, asleep⟩ sleeper
      · exact done
  have noSleeper : ∀ who, who ≤ load.execWorkers → (s.sender who).phase ≠ .asleep := by
    intro who within asleep
    obtain ⟨_, ready, _⟩ := alert.relay empty ⟨who, within, asleep⟩
    exact noSender _ ready
  have exited : load.Exited s := by
    intro who worker
    cases held : (s.sender _).phase with
    | awake =>
      exact absurd ⟨Nat.le_of_lt worker, held, fun parent => absurd parent (Nat.ne_of_lt worker)⟩
        (noSender _)
    | asleep => exact absurd held (noSleeper _ (Nat.le_of_lt worker))
    | done => exact .inl rfl
    | died => exact .inr rfl
  have parent : (s.sender load.execWorkers).phase = .done := by
    cases held : (s.sender load.execWorkers).phase with
    | awake => exact absurd ⟨Nat.le_refl _, held, fun _ => exited⟩ (noSender load.execWorkers)
    | asleep => exact absurd held (noSleeper load.execWorkers (Nat.le_refl _))
    | done => rfl
    | died => exact absurd held sound.parent
  -- all STOPs are pushed and none is left, so every receiver has taken one
  have all : ∀ who, who < load.updateWorkers → s.receiver who = .done := by
    obtain ⟨_, stops, parts, early, last, _⟩ := sound.late
    have counted := sound.count_stop parts early last
    have planned := sound.stops_le parts early last
    rw [sound.through _ parent, length_nil] at planned
    rw [sound.fifo, empty, append_nil, sound.stops] at counted
    have full : Nat.count (fun who => s.receiver who = .done) load.updateWorkers =
        load.updateWorkers := by omega
    rw [Nat.count_iff_forall] at full
    exact fun who within => full _ within
  apply left
  refine ⟨?_, fun who within => .inl (all _ within)⟩
  intro who within
  rcases Nat.lt_or_eq_of_le within with worker | last
  · exact exited _ worker
  · rw [last]
    exact .inl parent

end

variable (acts : List WorkerAction)

private theorem Workload.run_sound (load : Workload)
    (signals : Along load.step load.Signals load.start acts) :
    ∃ waiting, Sound load (runFrom load.step load.start acts) waiting ∧
      Alert load (runFrom load.step load.start acts) waiting := by
  apply runFrom_invariant (fun s => ∃ waiting, Sound _ s waiting ∧ Alert _ s waiting)
  · intro s act holds signalled
    obtain ⟨waiting, sound, alert⟩ := holds
    obtain ⟨left, move⟩ := sound.move act
    exact ⟨left, move.sound sound, move.alert sound alert signalled⟩
  · exact ⟨[], load.start_sound, load.start_alert⟩
  · exact signals

def Phase.weight (phase : Phase) : Nat := if phase = .awake then 1 else 0

def Sender.weight (sender : Sender) : Nat := 4 * sender.pending.length + sender.phase.weight

/-- What is left to do.  A push turns a pending message into a waiting one and wakes
one process at most, and so does the pop that follows. -/
def remaining (load : Workload) (s : Workers) (waiting : List Message) : Nat :=
  ∑ who ∈ Finset.range (load.execWorkers + 1), (s.sender who).weight +
    ∑ who ∈ Finset.range load.updateWorkers, (s.receiver who).weight + 2 * waiting.length

theorem Phase.weight_le (phase : Phase) : phase.weight ≤ 1 := by
  cases phase <;> decide

theorem remaining_sender {sender : Sender} (within : who ≤ load.execWorkers)
    (moves : later.sender = update s.sender who sender) (same : later.receiver = s.receiver) :
    remaining load later waiting + (s.sender who).weight =
      remaining load s waiting + sender.weight := by
  have moved := sum_update Sender.weight s.sender (Nat.lt_add_one_of_le within) sender
  unfold remaining
  rw [moves, same]
  omega

private theorem remaining_receiver (within : who < load.updateWorkers)
    (same : later.sender = s.sender)
    (moves : later.receiver = update s.receiver who phase) :
    remaining load later waiting + (s.receiver who).weight =
      remaining load s waiting + phase.weight := by
  have moved := sum_update Phase.weight s.receiver within phase
  unfold remaining
  rw [moves, same]
  omega

private theorem remaining_wakeReceiver (load : Workload) (s : Workers) (waiting : List Message)
    (woken : Nat) :
    remaining load (s.wakeReceiver woken) waiting ≤ remaining load s waiting + 1 := by
  have light := (s.receiver woken).woken.weight_le
  have moved := sum_update_le load.updateWorkers woken Phase.weight s.receiver
    (Nat.le_add_left_of_le light)
  dsimp only [remaining, Workers.wakeReceiver, Workers.setReceiver]
  omega

private theorem remaining_wakeSender (load : Workload) (s : Workers) (waiting : List Message)
    (woken : Nat) :
    remaining load (s.wakeSender woken) waiting ≤ remaining load s waiting + 1 := by
  have heavier : Sender.weight { s.sender woken with phase := (s.sender woken).phase.woken } ≤
      (s.sender woken).weight + 1 := by
    have light := (s.sender woken).phase.woken.weight_le
    dsimp only [Sender.weight]
    omega
  have moved := sum_update_le (load.execWorkers + 1) woken Sender.weight s.sender heavier
  dsimp only [remaining, Workers.wakeSender, Workers.setPhase] at moved ⊢
  omega

private theorem remaining_setPhase (ready : load.Ready s who) (rests : phase ≠ .awake) :
    remaining load (s.setPhase who phase) waiting < remaining load s waiting := by
  let sender : Sender := { s.sender who with phase := phase }
  have moved : remaining load (s.setPhase who phase) waiting + _ =
    remaining load s waiting + sender.weight := remaining_sender ready.1 rfl rfl
  have lighter : sender.weight + 1 = (s.sender who).weight := by
    simp [sender, Sender.weight, Phase.weight, if_neg rests, ready.2.1]
  omega

include move in
theorem Move.shrinks
    (busy : load.Busy s act) : remaining load later left < remaining load s waiting := by
  cases move with
  | idle blocked => exact absurd busy blocked
  | finish woken ready nothing => exact remaining_setPhase ready (by decide)
  | refuse woken ready pending large | doze woken ready pending fits full =>
    exact remaining_setPhase ready (by decide)
  | @push who woken msg rest queue ready pending contains cap =>
    have woke := remaining_wakeReceiver load (s.sent who msg rest queue) (waiting ++ [msg]) woken
    let sender : Sender := { s.sender who with pending := rest }
    have lighter : sender.weight + 4 = (s.sender who).weight := by
      simp only [sender, Sender.weight, pending, length_cons]
      omega
    have moved : remaining load (s.sent who msg rest queue) (waiting ++ [msg]) + _ =
      remaining load s (waiting ++ [msg]) + sender.weight :=
        remaining_sender ready.1 rfl rfl
    have longer : remaining load s (waiting ++ [msg]) = remaining load s waiting + 2 := by
      simp only [remaining, length_append, length_singleton]
      omega
    omega
  | @starve who woken within awake nothing =>
    have moved : remaining load (s.setReceiver who .asleep) [] + _ =
      remaining load s [] + Phase.asleep.weight := remaining_receiver within rfl rfl
    rw [awake] at moved
    subst nothing
    exact Nat.lt_of_succ_le (Nat.le_of_eq moved)
  | @take who woken msg _ queue within awake some contains cap =>
    have woke := remaining_wakeSender load
      ((s.received who msg queue).setReceiver who (updateWorker msg)) left woken
    have light := (updateWorker msg).weight_le
    have moved : remaining load
        ((s.received who msg queue).setReceiver who (updateWorker msg)) left + _ =
      remaining load s left + _ := remaining_receiver within rfl rfl
    have start : remaining load s waiting = remaining load s left + 2 := by
      rw [some]
      rfl
    have pre : (s.receiver who).weight = 1 := by
      rw [awake]
      rfl
    omega
  | wakeSender who | wakeReceiver who => exact busy.elim

/-- In every reachable state no message is lost, repeated or out of order, a receiver
takes results until it takes a STOP, and there is none before all execution workers are
gone.  Until all has come out some process can go on. -/
theorem results_processed_once (load : Workload) (acts : List WorkerAction)
    (signals : Along load.step load.Signals load.start acts) :
    let s := runFrom load.step load.start acts
    (∃ waiting, Contains s.queue waiting ∧
      s.pushed.map Prod.snd = s.popped.map Prod.snd ++ waiting) ∧
    (∀ who, messagesOf s.pushed who <+: load.plan who) ∧
    (∀ entry ∈ s.popped, entry.1 < load.updateWorkers) ∧
    (∀ who, Orderly (s.receiver who) (messagesOf s.popped who)) ∧
    (stopMessage ∈ s.pushed.map Prod.snd → load.Exited s) ∧
    (Finished load s → s.queue.size = 0 ∧ s.pushed.map Prod.snd = s.popped.map Prod.snd ∧
      (∀ who, who < load.updateWorkers → ∃ data, messagesOf s.popped who = data ++ [stopMessage] ∧
          ∀ msg ∈ data, msg.type = queueMsgData) ∧
      ∀ who, (s.sender who).phase = .done → messagesOf s.pushed who = load.plan who) ∧
    (Finished load s ∨ (∃ who, load.Ready s who) ∨
      ∃ who, who < load.updateWorkers ∧ s.receiver who = .awake) := by
  intro s
  obtain ⟨waiting, sound, alert⟩ := load.run_sound acts signals
  refine ⟨⟨waiting, sound.contains, sound.fifo⟩, fun who => ⟨_, sound.sent _⟩, sound.takers,
    sound.taken, ?_, ?_, ?_⟩
  · intro mem
    obtain ⟨data, _, parts, early, last, gone⟩ := sound.late
    apply gone
    intro nothing
    have counted := sound.count_stop parts early last
    rw [nothing, length_nil, count_eq_zero] at counted
    exact counted mem
  · intro finished
    have through : ∀ who, who < load.updateWorkers → s.receiver who = .done := by
      intro who within
      rcases finished.2 _ within with done | died
      · exact done
      · exact absurd died (sound.receiver_ne_died _)
    have empty := sound.drained through
    refine ⟨sound.contains.size_eq_zero_iff.2 empty, ?_, ?_, ?_⟩
    · rw [sound.fifo, empty, append_nil]
    · intro who within
      have orderly := sound.taken who
      rw [through _ within] at orderly
      exact orderly
    · intro who done
      have sent := sound.sent who
      rw [sound.through _ done, append_nil] at sent
      exact sent
  · by_cases finished : Finished load s
    · exact .inl finished
    · exact .inr (sound.progress alert finished)

def sampleLoad : Workload where
  execWorkers := 2
  updateWorkers := 2
  capacity := 20
  mapSize := 0
  results := fun who => [List.replicate 8 (BitVec.ofNat 8 (who + 1))]
  served := by decide
  roomy := by decide
  small := by decide
  narrow := by decide
  sized := by
    intro who data mem
    rw [mem_singleton.1 mem, length_replicate]
    decide

def sampleActions : List WorkerAction :=
  [.receive 1 0, .send 0 1, .send 1 0, .send 0 0, .receive 0 1, .send 1 0, .send 1 0,
    .receive 1 0, .send 2 0, .send 2 0, .send 2 0, .receive 0 0, .receive 1 0]

theorem sample_processed_once :
    Along sampleLoad.step sampleLoad.Signals sampleLoad.start sampleActions ∧
    Finished sampleLoad (runFrom sampleLoad.step sampleLoad.start sampleActions) ∧
    (runFrom sampleLoad.step sampleLoad.start sampleActions).queue.size = 0 := by
  have signals : Along sampleLoad.step sampleLoad.Signals sampleLoad.start sampleActions := by
    decide +kernel
  have finished : Finished sampleLoad (runFrom sampleLoad.step sampleLoad.start sampleActions) := by
    decide +kernel
  exact ⟨signals, finished,
    ((results_processed_once sampleLoad sampleActions signals).2.2.2.2.2.1 finished).1⟩

/-- Without wake-ups that nothing signals, no order of the steps goes on for ever. -/
theorem Workload.busy_run_bounded (load : Workload)
    (busy : Along load.step load.Busy load.start acts) :
    acts.length ≤ remaining load load.start [] := by
  have bounded : ∀ (s : Workers) (waiting : List Message), Sound load s waiting →
      Along load.step load.Busy s acts → acts.length ≤ remaining load s waiting := by
    clear busy
    induction acts with
    | nil => exact fun _ _ _ _ => Nat.zero_le _
    | cons act rest ih =>
      intro s waiting sound busy
      obtain ⟨_, move⟩ := sound.move _
      have shorter := ih (load.step _ _) _ (move.sound sound) busy.2
      have shrinks := move.shrinks busy.1
      rw [length_cons]
      omega
  exact bounded load.start [] load.start_sound busy

theorem sample_run_bounded : sampleActions.length ≤ remaining sampleLoad sampleLoad.start [] := by
  apply sampleLoad.busy_run_bounded
  simp only [sampleActions, Along, Workload.Busy]
  decide +kernel

end AflPlusPlus.Cmin
