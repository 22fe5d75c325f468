/-
The best file for each tuple.

An update worker keeps, for each tuple, the smallest file it has seen, and logs the
trace of every file that was the best one when it came.  At the end the tables are
merged and the traces of the best files are read back.
-/

import AflPlusPlus.CminTraces
import AflPlusPlus.Machine.GuardedRun

namespace AflPlusPlus.Cmin

open Machine List Function

/-- The size of the file with this index; behind the files stands the sentinel. -/
def sizeAt (files : List CminFile) (index : Nat) : Nat :=
  match files[index]? with
  | some f => f.size
  | none => 0xFFFFFFFF

theorem sizeAt_eq {files : List CminFile} {index : Nat} {f : CminFile}
    (found : files[index]? = some f) : sizeAt files index = f.size := by
  simp only [sizeAt, found]

structure WorkerData where
  localBest : Nat → Nat
  localCounts : Nat → Nat
  traceLog : List (Nat × List Nat)

def noteTuple (size : Nat → Nat) (i : Nat) (noted : WorkerData × Bool) (tuple : Nat) :
    WorkerData × Bool :=
  let data := noted.1
  let better := decide (size i < size (data.localBest tuple))
  ({ data with
      localBest :=
        if better then update data.localBest tuple i else data.localBest
      localCounts := update data.localCounts tuple (data.localCounts tuple + 1) },
    noted.2 || better)

def processUpdateMessage (size : Nat → Nat) (data : WorkerData) (i : Nat) (tuples : List Nat) :
    WorkerData :=
  let noted := tuples.foldl (noteTuple size i) (data, false)
  if noted.2 then { noted.1 with traceLog := noted.1.traceLog ++ [(i, tuples)] } else noted.1

inductive ExecPhase where
  | ready
  | running (i : Nat)
  | exited
  deriving DecidableEq

/-- The queue hands over the messages in the order they were pushed, each to one
worker. -/
structure Collecting where
  sharedCminIdx : Nat
  exec : Nat → ExecPhase
  queue : List (Nat × List Nat)
  worker : Nat → WorkerData

inductive CollectAction where
  | draw (e : Nat)
  | finish (e : Nat)
  | update (w : Nat)

/-- What the workers work on: the files, what is pushed for each of them, and how many
workers there are. -/
structure Job where
  size : Nat → Nat
  items : Nat
  result : Nat → Option (List Nat)
  execWorkers : Nat
  updateWorkers : Nat
  inside : ∀ i tuples, result i = some tuples → i < items
  below : ∀ i tuples, result i = some tuples → size i < size items

namespace Job

variable (job : Job)

def start : Collecting where
  sharedCminIdx := 0
  exec := fun _ => .ready
  queue := []
  worker := fun _ => ⟨fun _ => job.items, fun _ => 0, []⟩

def draw (s : Collecting) (e : Nat) : Collecting :=
  { s with
    sharedCminIdx := s.sharedCminIdx + 1
    exec := update s.exec e
      (if s.sharedCminIdx < job.items then .running s.sharedCminIdx else .exited) }

def finish (s : Collecting) (e i : Nat) : Collecting :=
  { s with
    exec := update s.exec e .ready
    queue := match job.result i with
      | some tuples => s.queue ++ [(i, tuples)]
      | none => s.queue }

def update (s : Collecting) (w i : Nat) (tuples : List Nat) (rest : List (Nat × List Nat)) :
    Collecting :=
  { s with
    queue := rest
    worker := Function.update s.worker w
      (processUpdateMessage job.size (s.worker w) i tuples) }

def step (s : Collecting) : CollectAction → Collecting
  | .draw e => if e < job.execWorkers ∧ s.exec e = .ready then job.draw s e else s
  | .finish e =>
    match s.exec e with
    | .running i => job.finish s e i
    | _ => s
  | .update w =>
    match s.queue with
    | (i, tuples) :: rest =>
      if w < job.updateWorkers then job.update s w i tuples rest else s
    | [] => s

def Done (s : Collecting) : Prop :=
  (∀ e, e < job.execWorkers → s.exec e = .exited) ∧ s.queue = []

def mergeBest (final worker : Nat → Nat) (i : Nat) : Nat :=
  let idx := worker i
  if idx = job.items then final i
  else if final i = job.items then idx
  else if job.size idx < job.size (final i) then idx
  else final i

def finalBest (s : Collecting) : Nat → Nat :=
  (List.range job.updateWorkers).foldl
    (fun final w => job.mergeBest final (s.worker w).localBest) (fun _ => job.items)

def tupleCounts (s : Collecting) (i : Nat) : Nat :=
  (List.range job.updateWorkers).foldl (fun sum w => u32 (sum + (s.worker w).localCounts i)) 0

def isCandidate (effectiveMapSize : Nat) (s : Collecting) (idx : Nat) : Bool :=
  (List.range effectiveMapSize).any
    (fun i => job.finalBest s i = idx && job.finalBest s i ≠ job.items)

def loadTrace (cand : Nat → Bool) (traces : Nat → Option (List Nat))
    (entry : Nat × List Nat) : Nat → Option (List Nat) :=
  if cand entry.1 && (traces entry.1).isNone then
    Function.update traces entry.1 (some entry.2)
  else traces

def loadTraces (effectiveMapSize : Nat) (s : Collecting) : Nat → Option (List Nat) :=
  ((List.range job.updateWorkers).flatMap (fun w => (s.worker w).traceLog)).foldl
    (loadTrace (job.isCandidate effectiveMapSize s)) (fun _ => none)

end Job

variable {size : Nat → Nat} {i : Nat} {data : WorkerData}

private theorem noteTuples_localBest (tuples : List Nat) (noted : WorkerData × Bool) (tuple : Nat) :
    (tuples.foldl (noteTuple size i) noted).1.localBest tuple =
      if tuple ∈ tuples ∧ size i < size (noted.1.localBest tuple) then i
      else noted.1.localBest tuple := by
  induction tuples generalizing noted with
  | nil => simp
  | cons head rest ih =>
    rw [foldl_cons, ih]
    have here : (noteTuple size i noted head).1.localBest tuple =
        if tuple = head ∧ size i < size (noted.1.localBest tuple) then i
        else noted.1.localBest tuple := by
      simp only [noteTuple]
      by_cases better : size i < size (noted.1.localBest head)
      all_goals
        by_cases same : tuple = head
        · subst same
          simp [better]
        · simp [better, same]
    simp only [here, mem_cons]
    by_cases better : size i < size (noted.1.localBest tuple)
    · simp only [better, and_true]
      by_cases same : tuple = head
      · simp [same]
      · simp [same, better]
    · simp [better]

private theorem noteTuples_traceLog (tuples : List Nat) (noted : WorkerData × Bool) :
    (tuples.foldl (noteTuple size i) noted).1.traceLog = noted.1.traceLog := by
  induction tuples generalizing noted with
  | nil => rfl
  | cons head rest ih =>
    rw [foldl_cons, ih]
    rfl

private theorem noteTuples_better {tuples : List Nat} {noted : WorkerData × Bool}
    (found : noted.2 = true ∨ ∃ tuple ∈ tuples, size i < size (noted.1.localBest tuple)) :
    (tuples.foldl (noteTuple size i) noted).2 = true := by
  induction tuples generalizing noted with
  | nil =>
    rcases found with flag | ⟨tuple, bad, _⟩
    · exact flag
    · cases bad
  | cons head rest ih =>
    apply ih
    by_cases better : size i < size (noted.1.localBest head)
    · exact .inl (by simp [noteTuple, better])
    · rcases found with flag | ⟨tuple, mem, smaller⟩
      · exact .inl (by simp [noteTuple, flag])
      · right
        refine ⟨tuple, ?_, ?_⟩
        · rcases mem_cons.1 mem with first | later
          · rw [first] at smaller
            exact absurd smaller better
          · exact later
        · simpa [noteTuple, better] using smaller

variable (tuples : List Nat)

private theorem processUpdateMessage_localBest (tuple : Nat) :
    (processUpdateMessage size data i tuples).localBest tuple =
      if tuple ∈ tuples ∧ size i < size (data.localBest tuple) then i
      else data.localBest tuple := by
  have noted := @noteTuples_localBest size i tuples (data, false) tuple
  unfold processUpdateMessage
  simp only
  split <;> exact noted

private theorem processUpdateMessage_traceLog :
    (processUpdateMessage size data i tuples).traceLog = data.traceLog ++ [(i, tuples)] ∨
      (processUpdateMessage size data i tuples).traceLog = data.traceLog ∧
        ∀ tuple ∈ tuples, ¬ size i < size (data.localBest tuple) := by
  have log := @noteTuples_traceLog size i tuples (data, false)
  unfold processUpdateMessage
  by_cases better : (tuples.foldl (noteTuple size i) (data, false)).2 = true
  · rw [if_pos better]
    exact .inl (congrArg (· ++ [(i, tuples)]) log)
  · rw [if_neg better]
    refine .inr ⟨log, ?_⟩
    intro tuple mem smaller
    exact better (noteTuples_better (.inr ⟨tuple, mem, smaller⟩))

/-- What one message does to the data of a worker. -/
structure Updated (size : Nat → Nat) (i : Nat) (tuples : List Nat) (pre post : WorkerData) :
    Prop where
  logged : ∀ entry ∈ post.traceLog, entry ∈ pre.traceLog ∨ entry = (i, tuples)
  kept : ∀ entry ∈ pre.traceLog, entry ∈ post.traceLog
  best : ∀ tuple, post.localBest tuple = pre.localBest tuple ∨
    post.localBest tuple = i ∧ tuple ∈ tuples ∧ (i, tuples) ∈ post.traceLog
  smaller : ∀ tuple, size (post.localBest tuple) ≤ size (pre.localBest tuple)
  least : ∀ tuple ∈ tuples, size (post.localBest tuple) ≤ size i

private theorem processUpdateMessage_updated :
    Updated size i tuples data (processUpdateMessage size data i tuples) where
  logged := by
    intro entry mem
    rcases processUpdateMessage_traceLog tuples with grown | ⟨same, _⟩
    · rw [grown] at mem
      rcases mem_append.1 mem with pre | new
      · exact .inl pre
      · exact .inr (mem_singleton.1 new)
    · rw [same] at mem
      exact .inl mem
  kept := by
    intro entry mem
    rcases processUpdateMessage_traceLog tuples with grown | ⟨same, _⟩
    · rw [grown]
      exact mem_append_left _ mem
    · rw [same]
      exact mem
  best := by
    intro tuple
    rw [processUpdateMessage_localBest]
    split
    · rename_i better
      refine .inr ⟨rfl, better.1, ?_⟩
      rcases processUpdateMessage_traceLog tuples with grown | ⟨_, none⟩
      · rw [grown]
        exact mem_append_right _ (mem_singleton.2 rfl)
      · exact absurd better.2 (none _ better.1)
    · exact .inl rfl
  smaller := by
    intro tuple
    rw [processUpdateMessage_localBest]
    split <;> omega
  least := by
    intro tuple mem
    rw [processUpdateMessage_localBest]
    split
    · exact Nat.le_refl _
    · rename_i worse
      exact Nat.le_of_not_lt (fun better => worse ⟨mem, better⟩)

structure Collected (job : Job) (s : Collecting) : Prop where
  queued : ∀ entry ∈ s.queue, job.result entry.1 = some entry.2
  exited : ∀ e, s.exec e = .exited → job.items ≤ s.sharedCminIdx
  logged : ∀ w, ∀ entry ∈ (s.worker w).traceLog, job.result entry.1 = some entry.2
  best : ∀ w tuple, (s.worker w).localBest tuple ≠ job.items →
    ∃ tuples, ((s.worker w).localBest tuple, tuples) ∈ (s.worker w).traceLog ∧ tuple ∈ tuples
  /-- A result is still to come, waits, or every one of its tuples has a file that is
  not larger. -/
  seen : ∀ i tuples, job.result i = some tuples → i < s.sharedCminIdx →
    (∃ e, e < job.execWorkers ∧ s.exec e = .running i) ∨ (i, tuples) ∈ s.queue ∨
      ∀ tuple ∈ tuples, ∃ w, w < job.updateWorkers ∧
        job.size ((s.worker w).localBest tuple) ≤ job.size i

variable {job : Job} {s : Collecting}

private theorem Job.start_collected (job : Job) : Collected job job.start where
  queued := nofun
  exited := nofun
  logged := nofun
  best := fun _ _ other => absurd rfl other
  seen := fun _ _ _ bad => absurd bad (Nat.not_lt_zero _)

variable (collected : Collected job s)

include collected

theorem Collected.draw {e : Nat} (worker : e < job.execWorkers)
    (ready : s.exec e = .ready) : Collected job (job.draw s e) where
  queued := collected.queued
  exited := by
    intro other gone
    change update s.exec e _ other = .exited at gone
    change job.items ≤ s.sharedCminIdx + 1
    by_cases same : other = e
    · subst same
      rw [update_self] at gone
      split at gone
      · cases gone
      · omega
    · rw [update_of_ne same] at gone
      have pre := collected.exited _ gone
      omega
  logged := collected.logged
  best := collected.best
  seen := by
    intro i tuples res below
    change i < s.sharedCminIdx + 1 at below
    by_cases new : i = s.sharedCminIdx
    · refine .inl ⟨e, worker, ?_⟩
      change update s.exec e _ e = .running i
      rw [update_self, if_pos (new ▸ job.inside i _ res), new]
    · rcases collected.seen i tuples res (by omega) with ⟨runner, known, runs⟩ | later
      · refine .inl ⟨runner, known, ?_⟩
        have other : runner ≠ e := by
          intro same
          rw [same, ready] at runs
          cases runs
        change update s.exec e _ runner = .running i
        rw [update_of_ne other]
        exact runs
      · exact .inr later

variable {i : Nat}

theorem Collected.finish {e : Nat}
    (runs : s.exec e = .running i) : Collected job (job.finish s e i) where
  queued := by
    intro entry mem
    change entry ∈ (match job.result i with
      | some tuples => s.queue ++ [(i, tuples)]
      | none => s.queue) at mem
    cases res : job.result i with
    | none =>
      rw [res] at mem
      exact collected.queued _ mem
    | some tuples =>
      rw [res] at mem
      rcases mem_append.1 mem with pre | new
      · exact collected.queued _ pre
      · rw [mem_singleton.1 new]
        exact res
  exited := by
    intro other gone
    refine (Function.forall_update_iff s.exec (fun _ phase =>
      phase = .exited → job.items ≤ s.sharedCminIdx)).2 ⟨?_, ?_⟩ _ gone
    · intro bad
      cases bad
    · intro pre _
      exact collected.exited _
  logged := collected.logged
  best := collected.best
  seen := by
    intro j tuples res below
    change _ ∨ (j, tuples) ∈ (match job.result i with
      | some tuples => s.queue ++ [(i, tuples)]
      | none => s.queue) ∨ _
    rcases collected.seen j tuples res below with ⟨runner, known, running⟩ | waits | through
    · by_cases same : runner = e
      · -- the file of this worker: its result is now in the queue
        rw [same, runs] at running
        cases running
        refine .inr (.inl ?_)
        rw [res]
        exact mem_append_right _ (mem_singleton.2 rfl)
      · refine .inl ⟨runner, known, ?_⟩
        change update s.exec e .ready runner = .running j
        rw [update_of_ne same]
        exact running
    · refine .inr (.inl ?_)
      split
      · exact mem_append_left _ waits
      · exact waits
    · exact .inr (.inr through)

variable {tuples : List Nat} {tuple : Nat}

theorem Collected.update {w : Nat}
    {rest : List (Nat × List Nat)} (queue : s.queue = (i, tuples) :: rest)
    (worker : w < job.updateWorkers) : Collected job (job.update s w i tuples rest) := by
  have updated : Updated job.size i tuples (s.worker w)
      (processUpdateMessage job.size (s.worker w) i tuples) := processUpdateMessage_updated _
  have res : job.result i = some tuples := by
    apply collected.queued (i, tuples)
    rw [queue]
    exact mem_cons_self ..
  exact
    { queued := by
        intro entry mem
        apply collected.queued _
        rw [queue]
        exact mem_cons_of_mem _ mem
      exited := collected.exited
      logged := by
        refine (Function.forall_update_iff s.worker (fun _ data => ∀ entry ∈ data.traceLog,
          job.result entry.1 = some entry.2)).2 ⟨?_, fun other _ => collected.logged other⟩
        intro entry mem
        rcases updated.logged entry mem with pre | new
        · exact collected.logged w _ pre
        · rw [new]
          exact res
      best := by
        refine (Function.forall_update_iff s.worker (fun _ data => ∀ tuple,
          data.localBest tuple ≠ job.items → ∃ tuples,
            (data.localBest tuple, tuples) ∈ data.traceLog ∧ tuple ∈ tuples)).2
          ⟨?_, fun other _ => collected.best other⟩
        intro tuple held
        rcases updated.best tuple with same | ⟨new, mem, logged⟩
        · rw [same] at held ⊢
          obtain ⟨known, mem, inside⟩ := collected.best w tuple held
          exact ⟨known, updated.kept _ mem, inside⟩
        · rw [new]
          exact ⟨tuples, logged, mem⟩
      seen := by
        intro j known found below
        rcases collected.seen j _ found below with runs | waits | through
        · exact .inl runs
        · rw [queue] at waits
          rcases mem_cons.1 waits with head | later
          · -- the message that is being processed
            cases head
            refine .inr (.inr fun tuple mem => ⟨w, worker, ?_⟩)
            change job.size ((Function.update s.worker w _ w).localBest _) ≤ _
            rw [Function.update_self]
            exact updated.least tuple mem
          · exact .inr (.inl later)
        · refine .inr (.inr ?_)
          intro tuple mem
          obtain ⟨other, inside, least⟩ := through _ mem
          refine ⟨other, inside, ?_⟩
          change job.size ((Function.update s.worker w _ _).localBest _) ≤ _
          by_cases same : other = w
          · subst same
            rw [Function.update_self]
            exact Nat.le_trans (updated.smaller _) least
          · rw [update_of_ne same]
            exact least }

theorem Collected.step (act : CollectAction) :
    Collected job (job.step s act) := by
  cases act with
  | draw e =>
    by_cases able : e < job.execWorkers ∧ s.exec e = .ready
    · simp only [Job.step, if_pos able]
      exact collected.draw able.1 able.2
    · simp only [Job.step, if_neg able]
      exact collected
  | finish e =>
    simp only [Job.step]
    split
    · rename_i i runs
      exact collected.finish runs
    · exact collected
  | update w =>
    simp only [Job.step]
    split
    · rename_i i tuples rest queue
      by_cases worker : w < job.updateWorkers
      · rw [if_pos worker]
        exact collected.update queue worker
      · rw [if_neg worker]
        exact collected
    · exact collected

omit collected

theorem Job.run_collected (job : Job) (acts : List CollectAction) :
    Collected job (runFrom job.step job.start acts) := by
  have always : ∀ s, Collected job s → Collected job (runFrom job.step s acts) := by
    induction acts with
    | nil => exact fun _ collected => collected
    | cons act rest ih => exact fun s collected => ih _ (collected.step _)
  exact always job.start job.start_collected

include collected in
theorem Collected.through (done : job.Done s)
    (executed : 0 < job.execWorkers) (res : job.result i = some tuples)
    (mem : tuple ∈ tuples) :
    ∃ w, w < job.updateWorkers ∧ job.size ((s.worker w).localBest tuple) ≤ job.size i := by
  have drawn := collected.exited 0 (done.1 0 executed)
  have inside := job.inside i _ res
  rcases collected.seen i tuples res (by omega) with ⟨e, worker, runs⟩ | waits | through
  · rw [done.1 e worker] at runs
    cases runs
  · rw [done.2] at waits
    cases waits
  · exact through _ mem

private theorem mergeBest_spec (job : Job) (final worker : Nat → Nat) (i : Nat) :
    (job.mergeBest final worker i = final i ∨ job.mergeBest final worker i = worker i) ∧
    (final i ≠ job.items → job.mergeBest final worker i ≠ job.items ∧
      job.size (job.mergeBest final worker i) ≤ job.size (final i)) ∧
    (worker i ≠ job.items → job.mergeBest final worker i ≠ job.items ∧
      job.size (job.mergeBest final worker i) ≤ job.size (worker i)) := by
  unfold Job.mergeBest
  by_cases none : worker i = job.items
  · simp [none]
  · rw [if_neg none]
    by_cases first : final i = job.items
    · simp [first, none]
    · rw [if_neg first]
      by_cases smaller : job.size (worker i) < job.size (final i)
      · rw [if_pos smaller]
        exact ⟨.inr rfl, fun _ => ⟨none, Nat.le_of_lt smaller⟩, fun _ => ⟨none, Nat.le_refl _⟩⟩
      · rw [if_neg smaller]
        exact ⟨.inl rfl, fun _ => ⟨first, Nat.le_refl _⟩,
          fun _ => ⟨first, Nat.le_of_not_lt smaller⟩⟩

theorem mergeAll_spec (job : Job) (tables : List (Nat → Nat)) (final : Nat → Nat) (i : Nat) :
    let merged := tables.foldl job.mergeBest final
    (merged i = final i ∨ ∃ table ∈ tables, merged i = table i) ∧
    (final i ≠ job.items → merged i ≠ job.items ∧ job.size (merged i) ≤ job.size (final i)) ∧
    ∀ table ∈ tables, table i ≠ job.items →
      merged i ≠ job.items ∧ job.size (merged i) ≤ job.size (table i) := by
  induction tables generalizing final with
  | nil => simp
  | cons head rest ih =>
    obtain ⟨src, kept, others⟩ := ih (job.mergeBest final head)
    obtain ⟨first, pre, here⟩ := mergeBest_spec job final head i
    refine ⟨?_, ?_, ?_⟩
    · rcases src with same | ⟨table, mem, same⟩
      · rcases first with old | new
        · exact .inl (same.trans old)
        · exact .inr ⟨head, mem_cons_self .., same.trans new⟩
      · exact .inr ⟨table, mem_cons_of_mem _ mem, same⟩
    · intro held
      have now := pre held
      have later := kept now.1
      exact ⟨later.1, Nat.le_trans later.2 now.2⟩
    · intro table mem held
      rcases mem_cons.1 mem with same | beyond
      · rw [same] at held ⊢
        have now := here held
        have later := kept now.1
        exact ⟨later.1, Nat.le_trans later.2 now.2⟩
      · exact others _ beyond held

theorem Job.finalBest_eq (job : Job) (s : Collecting) :
    job.finalBest s = ((List.range job.updateWorkers).map (fun w => (s.worker w).localBest)).foldl
        job.mergeBest (fun _ => job.items) := by
  rw [Job.finalBest, foldl_map]

include collected

private theorem Collected.finalBest (held : job.finalBest s tuple ≠ job.items) :
    ∃ tuples, job.result (job.finalBest s tuple) = some tuples ∧ tuple ∈ tuples ∧
      ∃ w, w < job.updateWorkers ∧ (job.finalBest s tuple, tuples) ∈ (s.worker w).traceLog := by
  have src := (mergeAll_spec job
    ((List.range job.updateWorkers).map (fun w => (s.worker w).localBest))
    (fun _ => job.items) tuple).1
  rw [← job.finalBest_eq _] at src
  rcases src with none | ⟨_, mem, same⟩
  · exact absurd none held
  · obtain ⟨w, worker, rfl⟩ := mem_map.1 mem
    rw [same] at held
    obtain ⟨tuples, logged, inside⟩ := collected.best w tuple held
    rw [same]
    exact ⟨tuples, collected.logged w _ logged, inside, w, mem_range.1 worker, logged⟩

theorem Collected.finalBest_le (done : job.Done s)
    (executed : 0 < job.execWorkers) (res : job.result i = some tuples)
    (mem : tuple ∈ tuples) :
    job.finalBest s tuple ≠ job.items ∧ job.size (job.finalBest s tuple) ≤ job.size i := by
  obtain ⟨w, worker, least⟩ := collected.through done executed res mem
  have below := job.below i _ res
  have held : (s.worker w).localBest tuple ≠ job.items := by
    intro none
    rw [none] at least
    omega
  have entry := (mergeAll_spec _
    ((List.range job.updateWorkers).map (fun w => (s.worker w).localBest))
    (fun _ => job.items) _).2.2 (s.worker w).localBest (mem_map.2 ⟨w, mem_range.2 worker, rfl⟩) held
  rw [← job.finalBest_eq _] at entry
  exact ⟨entry.1, Nat.le_trans entry.2 least⟩

omit collected

private theorem loadTrace_spec {cand : Nat → Bool} (entries : List (Nat × List Nat))
    (traces : Nat → Option (List Nat))
    (true_ : ∀ entry ∈ entries, job.result entry.1 = some entry.2)
    (held : ∀ idx tuples, traces idx = some tuples → job.result idx = some tuples) (idx : Nat) :
    (∀ tuples, entries.foldl (Job.loadTrace cand) traces idx = some tuples →
      job.result idx = some tuples) ∧
    (cand idx = true → ((traces idx).isSome = true ∨ ∃ tuples, (idx, tuples) ∈ entries) →
      (entries.foldl (Job.loadTrace cand) traces idx).isSome = true) := by
  induction entries generalizing traces with
  | nil =>
    refine ⟨fun tuples => held _ _, ?_⟩
    intro _ found
    rcases found with some | ⟨tuples, bad⟩
    · exact some
    · cases bad
  | cons head rest ih =>
    have first := true_ _ (mem_cons_self ..)
    have loaded : ∀ other tuples, Job.loadTrace cand traces head other = some tuples →
        job.result other = some tuples := by
      intro other tuples present
      unfold Job.loadTrace at present
      split at present
      · by_cases same : other = head.1
        · subst same
          rw [Function.update_self] at present
          rw [← present]
          exact first
        · rw [Function.update_of_ne same] at present
          exact held _ _ present
      · exact held _ _ present
    obtain ⟨sound, complete⟩ := ih (Job.loadTrace cand traces head)
      (fun entry mem => true_ entry (mem_cons_of_mem _ mem)) loaded
    refine ⟨sound, ?_⟩
    intro wanted found
    apply complete wanted
    have kept : (traces idx).isSome = true →
        (Job.loadTrace cand traces head idx).isSome = true := by
      intro some
      unfold Job.loadTrace
      split
      · by_cases same : idx = head.1
        · subst same
          simp
        · rw [Function.update_of_ne same]
          exact some
      · exact some
    rcases found with some | ⟨tuples, mem⟩
    · exact .inl (kept some)
    · rcases mem_cons.1 mem with here | later
      · refine .inl ?_
        by_cases some : (traces idx).isSome = true
        · exact kept some
        · have none : (traces idx).isNone = true := by simpa using some
          rw [← here]
          simp [Job.loadTrace, none, wanted]
      · exact .inr ⟨tuples, later⟩

include collected in
theorem Collected.loadTraces {effectiveMapSize : Nat}
    (inside : tuple < effectiveMapSize) (held : job.finalBest s tuple ≠ job.items) :
    ∃ tuples, job.loadTraces effectiveMapSize s (job.finalBest s tuple) = some tuples ∧
      job.result (job.finalBest s tuple) = some tuples ∧ tuple ∈ tuples := by
  obtain ⟨tuples, res, mem, w, worker, logged⟩ := collected.finalBest held
  have cand : job.isCandidate effectiveMapSize s (job.finalBest s tuple) = true := by
    simp only [Job.isCandidate, any_eq_true, mem_range, Bool.and_eq_true, decide_eq_true_eq]
    exact ⟨tuple, inside, rfl, held⟩
  have entries : ∀ entry ∈ (List.range job.updateWorkers).flatMap
      (fun w => (s.worker w).traceLog), job.result entry.1 = some entry.2 := by
    intro entry present
    obtain ⟨_, _, found⟩ := mem_flatMap.1 present
    exact collected.logged _ _ found
  obtain ⟨sound, complete⟩ := @loadTrace_spec job (job.isCandidate effectiveMapSize s) _
    (fun _ => none) entries nofun
    (job.finalBest s tuple)
  have some := complete cand (.inr ⟨tuples, mem_flatMap.2 ⟨w, mem_range.2 worker, logged⟩⟩)
  obtain ⟨_, present⟩ := Option.isSome_iff_exists.1 some
  have same := sound _ present
  rw [res] at same
  cases same
  exact ⟨tuples, present, res, mem⟩

theorem Job.round (executed : 0 < job.execWorkers) (updated : 0 < job.updateWorkers)
    (ready : ∀ e, s.exec e = .ready) (empty : s.queue = [])
    (more : s.sharedCminIdx < job.items) :
    let later := runFrom job.step s [.draw 0, .finish 0, .update 0]
    later.sharedCminIdx = s.sharedCminIdx + 1 ∧ (∀ e, later.exec e = .ready) ∧
      later.queue = [] := by
  have drawn : job.step s (.draw 0) = job.draw s 0 := if_pos ⟨executed, ready 0⟩
  have running : (job.draw s 0).exec 0 = .running s.sharedCminIdx := by
    simp [draw, more]
  have finished : job.step (job.draw s 0) (.finish 0) =
      job.finish (job.draw s 0) 0 s.sharedCminIdx := by
    simp only [step, running]
  have others : ∀ e, (job.finish (job.draw s 0) 0 s.sharedCminIdx).exec e = .ready := by
    intro e
    by_cases first : e = 0
    · subst first
      simp [finish]
    · simp [finish, draw, first, ready e]
  simp only [runFrom, foldl_cons, foldl_nil, drawn, finished]
  cases res : job.result s.sharedCminIdx with
  | none =>
    have queue : (job.finish (job.draw s 0) 0 s.sharedCminIdx).queue = [] := by
      simp [finish, res, draw, empty]
    have same : job.step (job.finish (job.draw s 0) 0 s.sharedCminIdx) (.update 0) =
        job.finish (job.draw s 0) 0 s.sharedCminIdx := by
      simp only [step, queue]
    rw [same]
    exact ⟨rfl, others, queue⟩
  | some tuples =>
    have queue : (job.finish (job.draw s 0) 0 s.sharedCminIdx).queue =
        [(s.sharedCminIdx, tuples)] := by
      simp [finish, res, draw, empty]
    simp only [step, queue, if_pos updated]
    exact ⟨rfl, others, rfl⟩

private theorem Job.exists_drawn (job : Job) (executed : 0 < job.execWorkers)
    (updated : 0 < job.updateWorkers) (count : Nat) (within : count ≤ job.items) :
    ∃ acts, (runFrom job.step job.start acts).sharedCminIdx = count ∧
      (∀ e, (runFrom job.step job.start acts).exec e = .ready) ∧
      (runFrom job.step job.start acts).queue = [] := by
  induction count with
  | zero => exact ⟨[], rfl, fun _ => rfl, rfl⟩
  | succ count ih =>
    obtain ⟨acts, drawn, ready, empty⟩ := ih (by omega)
    have round := Job.round executed updated ready empty (by omega)
    refine ⟨acts ++ [.draw 0, .finish 0, .update 0], ?_⟩
    rw [drawn] at round
    simp only [runFrom, foldl_append] at round ⊢
    exact round

theorem Job.exists_done (job : Job) (executed : 0 < job.execWorkers)
    (updated : 0 < job.updateWorkers) :
    ∃ acts, job.Done (runFrom job.step job.start acts) := by
  -- the workers leave one after the other
  have leaving : ∀ count, count ≤ job.execWorkers → ∃ acts,
      job.items ≤ (runFrom job.step job.start acts).sharedCminIdx ∧
      (∀ e, e < count → (runFrom job.step job.start acts).exec e = .exited) ∧
      (∀ e, count ≤ e → (runFrom job.step job.start acts).exec e = .ready) ∧
      (runFrom job.step job.start acts).queue = [] := by
    intro count
    induction count with
    | zero =>
      intro _
      obtain ⟨acts, drawn, ready, empty⟩ :=
        job.exists_drawn executed updated job.items (Nat.le_refl _)
      exact ⟨acts, Nat.le_of_eq drawn.symm, fun _ bad => absurd bad
        (Nat.not_lt_zero _), fun e _ => ready e, empty⟩
    | succ count ih =>
      intro within
      obtain ⟨acts, drawn, gone, ready, empty⟩ := ih (by omega)
      refine ⟨acts ++ [.draw count], ?_⟩
      have step : runFrom job.step job.start (acts ++ [.draw count]) =
          job.draw (runFrom job.step job.start acts) count := by
        rw [runFrom, foldl_append]
        exact if_pos ⟨within, ready _ (Nat.le_refl _)⟩
      rw [step]
      refine ⟨Nat.le_succ_of_le drawn, ?_, ?_, empty⟩
      · intro e below
        by_cases last : e = count
        · subst last
          simp [draw, Nat.not_lt.2 drawn]
        · simp [draw, last, gone e (by omega)]
      · intro e above
        have other : e ≠ count := by omega
        simp [draw, other, ready e (by omega)]
  obtain ⟨acts, _, gone, _, empty⟩ := leaving job.execWorkers (Nat.le_refl _)
  exact ⟨acts, gone, empty⟩

end AflPlusPlus.Cmin
