/-
A session of afl-cmin.

The choices that the program leaves open are fields of a session: the order in which the
files are found, how equal elements are sorted, the order of the steps of the workers,
and the random parts of names.
-/

import AflPlusPlus.CminCover

namespace AflPlusPlus.Cmin

open Machine List

variable {cfg : Setup} {target : Target cfg} {inputs : Inputs} {files : List CminFile}
variable {f : CminFile} {tuple : Nat} {outDir : OutDir} {tuples : List Nat}

theorem Listed.size_le (listed : Listed cfg.toOptions cfg.sha1 inputs.files files)
    (mem : f ∈ files) : f.size ≤ f.content.length := by
  cases dedup : cfg.noDedup with
  | false =>
    obtain ⟨input, present, rfl⟩ := (listed.measured dedup).1 f mem
    rw [inputs.measured_eq present]
    exact Nat.le_refl _
  | true =>
    obtain ⟨input, present, rfl⟩ := mem_map.1 ((listed.unmeasured dedup).mem_iff.1 mem)
    exact Nat.zero_le _

def cminJob (target : Target cfg)
    (listed : Listed cfg.toOptions cfg.sha1 inputs.files files) : Job where
  size := sizeAt files
  items := files.length
  result := fun i => files[i]?.bind (Setup.execResult target)
  execWorkers := cfg.execWorkers
  updateWorkers := cfg.updateWorkers
  inside := by
    intro i tuples res
    obtain ⟨f, found, _⟩ := Option.bind_eq_some_iff.1 res
    exact (List.getElem?_eq_some_iff.1 found).1
  below := by
    intro i tuples res
    obtain ⟨f, found, _⟩ := Option.bind_eq_some_iff.1 res
    obtain ⟨input, _, _, small⟩ := listed.mem_content (mem_of_getElem? found)
    simp only [sizeAt, found, List.getElem?_length]
    exact small

def sortableTuples (effectiveMapSize : Nat) (job : Job) (s : Collecting) : List TupleInfo :=
  ((List.range effectiveMapSize).filter (fun i => job.finalBest s i ≠ job.items)).map
    (fun i => ⟨i, job.tupleCounts s i⟩)

private theorem mem_order_iff {effectiveMapSize : Nat} {job : Job} {s : Collecting}
    {order : List TupleInfo}
    (sorted : Sorts compareTupleCounts (sortableTuples effectiveMapSize job s) order) :
    (∃ info ∈ order, info.tuple = tuple) ↔
      tuple < effectiveMapSize ∧ job.finalBest s tuple ≠ job.items := by
  have members := fun info => @List.Perm.mem_iff _ info _ _ sorted.perm
  constructor
  · intro found
    obtain ⟨info, mem, rfl⟩ := found
    have listed := (members _).1 mem
    simp only [sortableTuples, mem_map, mem_filter, mem_range, decide_eq_true_eq] at listed
    obtain ⟨i, held, rfl⟩ := listed
    exact held
  · intro held
    refine ⟨⟨tuple, job.tupleCounts s tuple⟩, (members _).2 ?_, rfl⟩
    simp only [sortableTuples, mem_map, mem_filter, mem_range, decide_eq_true_eq]
    exact ⟨tuple, held, rfl⟩

structure Session (cfg : Setup) (target : Target cfg) (inputs : Inputs) where
  files : List CminFile
  listed : Listed cfg.toOptions cfg.sha1 inputs.files files
  tested : ∀ first ∈ files.head?, Setup.testTargetBinary target first = true
  schedule : List CollectAction
  done : (cminJob target listed).Done
    (runFrom (cminJob target listed).step (cminJob target listed).start schedule)
  order : List TupleInfo
  sorted : Sorts compareTupleCounts (sortableTuples cfg.effectiveMapSize (cminJob target listed)
    (runFrom (cminJob target listed).step (cminJob target listed).start schedule)) order
  random : Nat → Nat → BitVec 32

namespace Session

variable (ses : Session cfg target inputs)

def job : Job := cminJob target ses.listed

def state : Collecting := runFrom ses.job.step ses.job.start ses.schedule

def coverInput : CoverInput cfg where
  files := ses.files
  finalBest := ses.job.finalBest ses.state
  traces := ses.job.loadTraces cfg.effectiveMapSize ses.state
  random := ses.random

/-- The output directory, unless no unused name is found for a file. -/
def output : Option OutDir := (ses.coverInput.executeSetCover ses.order).map Cover.outDir

variable {ses}

theorem collected : Collected ses.job ses.state :=
  ses.job.run_collected ses.schedule

theorem mem_order :
    (∃ info ∈ ses.order, info.tuple = tuple) ↔ tuple < cfg.effectiveMapSize ∧
        ses.job.finalBest ses.state tuple ≠ ses.job.items :=
  mem_order_iff ses.sorted

private theorem result_eq {i : Nat} (found : ses.files[i]? = some f) :
    ses.job.result i = Setup.execResult target f := by
  change ses.files[i]?.bind (Setup.execResult target) = _
  rw [found, Option.bind_some]

theorem best (inside : tuple < cfg.effectiveMapSize)
    (held : ses.job.finalBest ses.state tuple ≠ ses.job.items) :
    ∃ f tuples, ses.files[ses.job.finalBest ses.state tuple]? = some f ∧
      Setup.execResult target f = some tuples ∧ tuple ∈ tuples ∧
      ses.coverInput.trace (ses.job.finalBest ses.state tuple) = tuples := by
  obtain ⟨tuples, loaded, res, mem⟩ := ses.collected.loadTraces inside held
  obtain ⟨f, found, pushed⟩ := Option.bind_eq_some_iff.1 res
  refine ⟨f, tuples, found, pushed, mem, ?_⟩
  change (ses.job.loadTraces cfg.effectiveMapSize ses.state _).getD [] = tuples
  rw [loaded]
  rfl

theorem best_le (mem : f ∈ ses.files) (pushed : Setup.execResult target f = some tuples)
    (hit : tuple ∈ tuples) :
    ses.job.finalBest ses.state tuple ≠ ses.job.items ∧
      ses.job.size (ses.job.finalBest ses.state tuple) ≤ f.size := by
  obtain ⟨i, found⟩ := mem_iff_getElem?.1 mem
  have res : ses.job.result i = some tuples := (ses.result_eq found).trans pushed
  have size : ses.job.size i = f.size := sizeAt_eq found
  have least := ses.collected.finalBest_le ses.done cfg.executed res hit
  rw [size] at least
  exact least

theorem pushed_iff (mem : f ∈ ses.files) (pushed : Setup.execResult target f = some tuples)
    (tuple : Nat) :
    tuple ∈ tuples ↔ cfg.Produces (target.trace (cfg.delivered f)) tuple := by
  rw [Setup.execResult_eq (ses.listed.size_le mem)] at pushed
  split at pushed
  · cases pushed
    exact Setup.mem_collectCoverageCounts _ _ _
  · cases pushed

theorem entry_best (output : ses.output = some outDir) {entry : FileName × CminFile}
    (present : entry ∈ outDir) :
    ∃ tuple tuples, ses.files[ses.job.finalBest ses.state tuple]? = some entry.2 ∧
      entry.2 ∈ ses.files ∧ Setup.execResult target entry.2 = some tuples ∧
      tuple ∈ tuples := by
  obtain ⟨_, run, rfl⟩ := Option.map_eq_some_iff.1 output
  have written := CoverInput.written_of_cover run
  obtain ⟨idx, chosen, file⟩ := written.linked entry present
  obtain ⟨info, mem, same⟩ := written.best idx chosen
  have listed := ses.mem_order.1 ⟨info, mem, rfl⟩
  obtain ⟨f, tuples, found, pushed, hit, _⟩ := ses.best listed.1 listed.2
  change idx = ses.job.finalBest ses.state info.tuple at same
  change ses.files[idx]? = some entry.2 at file
  rw [same, found] at file
  cases file
  exact ⟨info.tuple, tuples, found, mem_of_getElem? found, pushed, hit⟩

end Session

/-- Every tuple of an accepted input is a tuple of an output file. -/
def Kept (target : Target cfg) (inputs : Inputs) (outDir : OutDir) : Prop :=
  ∀ input ∈ inputs.files, cfg.accepts (target.run input.content) = true →
    ∀ tuple, cfg.Produces (target.trace input.content) tuple →
      ∃ entry ∈ outDir, cfg.Produces (target.trace entry.2.content) tuple

def Whole (cfg : Setup) (inputs : Inputs) : Prop :=
  cfg.useShmemFuzz = true → ∀ input ∈ inputs.files, input.content.length ≤ maxFile

variable (ses : Session cfg target inputs)

end AflPlusPlus.Cmin
