/-
When afl-cmin loses no coverage.

Without deduplication no file has a size and every run gets an empty input; a file that
shared memory cannot hold is run on its beginning; and two files that the hash does not
tell apart count as one.
-/

import AflPlusPlus.CminSession

namespace AflPlusPlus.Cmin

open Machine List

variable {cfg : Setup} {inputs : Inputs}

def markTarget (cfg : Setup) (run : List Byte → RunResult) (marks : List Byte → List Nat) :
    Target cfg where
  realMapSize := 64
  rounded := Nat.dvd_refl 64
  fits := Nat.le_trans (by decide) cfg.wide
  run := run
  trace := fun bytes k => if k < 64 ∧ k ∈ marks bytes then 1 else 0
  silent := by
    intro bytes k beyond
    rw [if_neg (fun both => Nat.not_lt.2 beyond both.1)]

def Setup.mark (cfg : Setup) (cell : Nat) : Nat := if cfg.edgesOnly then cell else cell * 8

private theorem Setup.mark_inj {left right : Nat} (same : cfg.mark left = cfg.mark right) :
    left = right := by
  unfold mark at same
  split at same <;> omega

variable {marks : List Byte → List Nat} {files : List CminFile} {outDir : OutDir}
  {first second : InputFile} {run : List Byte → RunResult} {bytes : List Byte}

theorem markTarget_produces {tuple : Nat} :
    cfg.Produces ((markTarget cfg run marks).trace bytes) tuple ↔
      ∃ cell ∈ marks bytes, cell < 64 ∧ tuple = cfg.mark cell := by
  have wide := cfg.wide
  have once (cell : Nat) (hit : (markTarget cfg run marks).trace bytes cell ≠ 0) :
      (cell < 64 ∧ cell ∈ marks bytes) ∧
        cfg.tupleAt ((markTarget cfg run marks).trace bytes) cell = cfg.mark cell := by
    have marked : cell < 64 ∧ cell ∈ marks bytes := by
      by_contra none
      exact hit (if_neg none)
    refine ⟨marked, ?_⟩
    have v : (markTarget cfg run marks).trace bytes cell = 1 := if_pos marked
    unfold Setup.tupleAt Setup.mark
    split
    · rfl
    · rw [classTuple, v]
      rfl
  constructor
  · intro produced
    obtain ⟨cell, _, hit, rfl⟩ := produced
    have found := once _ hit
    exact ⟨cell, found.1.2, found.1.1, found.2⟩
  · intro found
    obtain ⟨cell, mem, inside, rfl⟩ := found
    have hit : (markTarget cfg run marks).trace bytes cell ≠ 0 := by
      have v : (markTarget cfg run marks).trace bytes cell = 1 := if_pos ⟨inside, mem⟩
      rw [v]
      decide
    exact ⟨cell, by omega, hit, (once _ hit).2.symm⟩

def Setup.passing (cfg : Setup) : RunResult := if cfg.crashesOnly then .crash else .ok

def Setup.failing (cfg : Setup) : RunResult := if cfg.crashesOnly then .ok else .crash

theorem Setup.accepts_passing (cfg : Setup) : cfg.accepts cfg.passing = true := by
  cases crashes : cfg.crashesOnly <;> simp [passing, crashes, accepts]

private theorem Setup.accepts_failing (strict : ¬ (cfg.allowAny = true ∧ cfg.crashesOnly = false)) :
    cfg.accepts cfg.failing = false := by
  cases crashes : cfg.crashesOnly <;> simp_all [failing, accepts]

variable (listed : Listed cfg.toOptions cfg.sha1 inputs.files files)

include listed

theorem Session.exists {target : Target cfg}
    (tested : ∀ f ∈ files, Setup.testTargetBinary target f = true) :
    ∃ ses : Session cfg target inputs, ses.files = files := by
  obtain ⟨schedule, done⟩ := (cminJob target listed).exists_done cfg.executed cfg.updated
  obtain ⟨order, sorted⟩ := Sorts.exists compareTupleCounts
    (sortableTuples cfg.effectiveMapSize (cminJob target listed)
      (runFrom (cminJob target listed).step (cminJob target listed).start schedule))
  exact ⟨
    { files := files
      listed := listed
      tested := fun first head => tested _ (mem_of_head? head)
      schedule := schedule
      done := done
      order := order
      sorted := sorted
      random := fun _ _ => 0 }, rfl⟩

theorem markTarget_tested
    (ends : ∀ bytes, run bytes = .ok ∨ run bytes = .crash) (first : ∀ bytes, 0 ∈ marks bytes) :
    ∀ f ∈ files, Setup.testTargetBinary (markTarget cfg run marks) f = true := by
  intro f mem
  have some : cfg.collectCoverageCounts
      ((markTarget cfg run marks).trace (cfg.delivered f)) ≠ [] := by
    apply ne_nil_of_mem
    exact (Setup.mem_collectCoverageCounts (markTarget _ _ _) _ (cfg.mark 0)).2
      ((markTarget_produces).2 ⟨0, first _, by decide, rfl⟩)
  unfold Setup.testTargetBinary
  rw [Setup.runTargetFile_eq (listed.size_le mem)]
  rcases ends (cfg.delivered f) with held | held <;>
    · have res : (markTarget cfg run marks).run (cfg.delivered f) = _ := held
      simp [res, some]

omit listed

theorem Session.single (ses : Session cfg (markTarget cfg run marks) inputs)
    (one : ∀ f ∈ ses.files, marks (cfg.delivered f) = [0]) :
    (∃ outDir, ses.output = some outDir) ∧
    ∀ outDir, ses.output = some outDir → ∀ entry ∈ outDir,
      ses.files[ses.job.finalBest ses.state (cfg.mark 0)]? = some entry.2 := by
  have only : ∀ f ∈ ses.files, ∀ tuples,
      Setup.execResult (markTarget cfg run marks) f = some tuples →
        ∀ tuple ∈ tuples, tuple = cfg.mark 0 := by
    intro f mem tuples pushed tuple hit
    obtain ⟨_, marked, _, same⟩ := (markTarget_produces).1 ((ses.pushed_iff mem pushed _).1 hit)
    rw [one f mem, mem_singleton] at marked
    rw [same, marked]
  constructor
  · have files : ∀ info ∈ ses.order, ∃ f,
        ses.coverInput.files[ses.coverInput.finalBest info.tuple]? = some f := by
      intro info mem
      have listed := ses.mem_order.1 ⟨info, mem, rfl⟩
      obtain ⟨f, _, found, _⟩ := ses.best listed.1 listed.2
      exact ⟨f, found⟩
    have short : ses.order.length ≤ 1 := by
      have all : ∀ i ∈ (List.range cfg.effectiveMapSize).filter
          (fun i => ses.job.finalBest ses.state i ≠ ses.job.items), i = cfg.mark 0 := by
        intro i mem
        simp only [mem_filter, mem_range, decide_eq_true_eq] at mem
        obtain ⟨f, tuples, found, pushed, hit, _⟩ := ses.best mem.1 mem.2
        exact only f (mem_of_getElem? found) _ pushed i hit
      have distinct : ((List.range cfg.effectiveMapSize).filter
          (fun i => ses.job.finalBest ses.state i ≠ ses.job.items)).Nodup :=
        nodup_range.filter _
      rw [eq_replicate_of_mem all] at distinct
      have listed := ses.sorted.perm.length_eq
      rw [sortableTuples, length_map] at listed
      rw [listed]
      exact nodup_replicate.1 distinct
    obtain ⟨final, run⟩ := CoverInput.exists_cover files (.inl short)
    exact ⟨final.outDir, by rw [Session.output, run]; rfl⟩
  · intro outDir output entry present
    obtain ⟨tuple, tuples, found, mem, pushed, hit⟩ := ses.entry_best output present
    rw [only entry.2 mem _ pushed _ hit] at found
    exact found

variable {target : Target cfg} (ses : Session cfg target inputs)

theorem Session.entry_mem (output : ses.output = some outDir) {entry : FileName × CminFile}
    (present : entry ∈ outDir) : entry.2 ∈ ses.files := by
  obtain ⟨_, _, _, mem, _⟩ := ses.entry_best output present
  exact mem

def KeepsCoverage (cfg : Setup) (inputs : Inputs) : Prop :=
  ∀ (target : Target cfg) (ses : Session cfg target inputs) (outDir : OutDir),
    ses.output = some outDir → Kept target inputs outDir

private theorem Session.output_nil
    (rejected : ∀ f ∈ ses.files, cfg.accepts (target.run (cfg.delivered f)) = false)
    (output : ses.output = some outDir) : outDir = [] := by
  apply eq_nil_iff_forall_not_mem.2
  intro entry shown
  obtain ⟨_, _, _, mem, pushed, _⟩ := ses.entry_best output shown
  rw [Setup.execResult_eq (ses.listed.size_le mem), rejected entry.2 mem] at pushed
  cases pushed

/-- A target that accepts one input and hits the first cell on all. -/
def oneTarget (cfg : Setup) (content : List Byte) : Target cfg :=
  markTarget cfg (fun bytes => if bytes = content then cfg.passing else cfg.failing) (fun _ => [0])

include listed

variable {input : InputFile} (present : input ∈ inputs.files)

include present

section

variable (unseen : ∀ f ∈ files, cfg.delivered f ≠ input.content)

include unseen

section

variable (strict : ¬ (cfg.allowAny = true ∧ cfg.crashesOnly = false))

include strict

/-- A file that no run gets in full, and a filter that may reject what is run: nothing is
written, although the file has a tuple. -/
theorem oneTarget_loses :
    (∃ ses : Session cfg (oneTarget cfg input.content) inputs,
      ses.output = some []) ∧ ¬ Kept (oneTarget cfg input.content) inputs [] := by
  constructor
  · have ends : ∀ bytes : List Byte,
        (if bytes = input.content then cfg.passing else cfg.failing) = .ok ∨
          (if bytes = input.content then cfg.passing else cfg.failing) = .crash := by
      intro bytes
      simp only [Setup.passing, Setup.failing]
      split_ifs <;> simp
    obtain ⟨ses, rfl⟩ := Session.exists listed
      (markTarget_tested listed ends (fun _ => mem_singleton.2 rfl))
    obtain ⟨⟨_, output⟩, _⟩ := ses.single (fun _ _ => rfl)
    have rejected : ∀ f ∈ ses.files,
        cfg.accepts ((oneTarget cfg input.content).run (cfg.delivered f)) = false := by
      intro f mem
      change cfg.accepts (if cfg.delivered f = input.content then _ else _) = false
      rw [if_neg (unseen f mem)]
      exact Setup.accepts_failing strict
    have nothing := ses.output_nil rejected output
    rw [nothing] at output
    exact ⟨ses, output⟩
  · intro kept
    have accepted : cfg.accepts ((oneTarget cfg input.content).run input.content) = true := by
      change cfg.accepts (if input.content = input.content then _ else _) = true
      rw [if_pos rfl]
      exact cfg.accepts_passing
    obtain ⟨_, bad, _⟩ := kept input present accepted (cfg.mark 0)
      ((markTarget_produces).2 ⟨0, mem_singleton.2 rfl, by decide, rfl⟩)
    cases bad

theorem not_keeps_of_rejected :
    ¬ KeepsCoverage cfg inputs := by
  intro keeps
  obtain ⟨⟨_, output⟩, lost⟩ := oneTarget_loses listed present unseen strict
  exact lost (keeps _ _ [] output)

end

end

omit present listed

/-- The cells of two inputs that are told apart; all others hit only the first cell. -/
def twoMarks (first second : List Byte) (bytes : List Byte) : List Nat :=
  if bytes = first then [0, 1] else if bytes = second then [0, 2] else [0]

theorem zero_mem_twoMarks (first second bytes : List Byte) : 0 ∈ twoMarks first second bytes := by
  unfold twoMarks
  split_ifs <;> simp

private theorem one_mem_twoMarks {first second : List Byte}
    (marked : 1 ∈ twoMarks first second bytes) : bytes = first := by
  unfold twoMarks at marked
  split_ifs at marked with same
  · exact same
  all_goals simp at marked

private theorem two_mem_twoMarks {first second : List Byte}
    (marked : 2 ∈ twoMarks first second bytes) : bytes = second := by
  unfold twoMarks at marked
  split_ifs at marked with same other
  · simp at marked
  · exact other
  · simp at marked

def twoTarget (cfg : Setup) (first second : List Byte) : Target cfg :=
  markTarget cfg (fun _ => cfg.passing) (twoMarks first second)

include listed in
theorem twoTarget_tested (first second : List Byte) :
    ∀ f ∈ files, Setup.testTargetBinary (twoTarget cfg first second) f = true := by
  apply markTarget_tested listed
  · intro _
    cases crashes : cfg.crashesOnly <;> simp [Setup.passing, crashes]
  · exact zero_mem_twoMarks _ _

theorem Kept.twoTarget {first second : List Byte}
    (kept : Kept (twoTarget cfg first second) inputs outDir) :
    ((∃ input ∈ inputs.files, input.content = first) → ∃ entry ∈ outDir, entry.2.content = first) ∧
    (first ≠ second → (∃ input ∈ inputs.files, input.content = second) →
      ∃ entry ∈ outDir, entry.2.content = second) := by
  constructor
  · intro found
    obtain ⟨input, present, rfl⟩ := found
    obtain ⟨entry, shown, produced⟩ := kept input present cfg.accepts_passing (cfg.mark 1)
      ((markTarget_produces).2 ⟨1, by simp [twoMarks], by decide, rfl⟩)
    obtain ⟨cell, marked, _, same⟩ := (markTarget_produces).1 produced
    rw [← Setup.mark_inj same] at marked
    exact ⟨entry, shown, one_mem_twoMarks marked⟩
  · intro ne found
    obtain ⟨input, present, rfl⟩ := found
    obtain ⟨entry, shown, produced⟩ := kept input present cfg.accepts_passing (cfg.mark 2)
      ((markTarget_produces).2 ⟨2, by simp [twoMarks, Ne.symm ne], by decide, rfl⟩)
    obtain ⟨cell, marked, _, same⟩ := (markTarget_produces).1 produced
    rw [← Setup.mark_inj same] at marked
    exact ⟨entry, shown, two_mem_twoMarks marked⟩

include listed

theorem not_keeps_of_unseen (firstIn : first ∈ inputs.files) (secondIn : second ∈ inputs.files)
    (ne : first.content ≠ second.content)
    (unseen : ∀ f ∈ files, cfg.delivered f ≠ first.content ∧ cfg.delivered f ≠ second.content) :
    ¬ KeepsCoverage cfg inputs := by
  intro keeps
  obtain ⟨ses, rfl⟩ := Session.exists listed (twoTarget_tested listed first.content second.content)
  obtain ⟨⟨_, output⟩, single⟩ := Session.single ses (by
    intro f mem
    simp [twoMarks, (unseen f mem).1, (unseen f mem).2])
  have kept := (keeps _ _ _ output).twoTarget
  obtain ⟨_, leftShown, leftContent⟩ := kept.1 ⟨first, firstIn, rfl⟩
  obtain ⟨_, rightShown, rightContent⟩ := kept.2 ne ⟨second, secondIn, rfl⟩
  -- both entries are the one file that was written
  have same := (single _ output _ leftShown).symm.trans (single _ output _ rightShown)
  rw [Option.some.inj same, rightContent] at leftContent
  exact ne leftContent.symm

private theorem not_keeps_of_smaller
    (dedup : cfg.noDedup = false) {large small : InputFile} (largeIn : large ∈ inputs.files)
    (smallIn : small ∈ inputs.files) (smaller : small.content.length < large.content.length)
    (unseen : ∀ f ∈ files, cfg.delivered f ≠ large.content) : ¬ KeepsCoverage cfg inputs := by
  intro keeps
  obtain ⟨ses, rfl⟩ := Session.exists listed (twoTarget_tested listed large.content large.content)
  have one : ∀ f ∈ ses.files, twoMarks large.content large.content (cfg.delivered f) = [0] := by
    intro f mem
    simp [twoMarks, unseen f mem]
  obtain ⟨⟨outDir, output⟩, single⟩ := Session.single ses one
  obtain ⟨entry, shown, content⟩ := (keeps _ ses outDir output).twoTarget.1 ⟨large, largeIn, rfl⟩
  have size : entry.2.size = large.content.length := by
    obtain ⟨_, known, same⟩ := (ses.listed.measured dedup).1 entry.2 (ses.entry_mem output shown)
    rw [same, inputs.measured_eq known] at content ⊢
    exact congrArg List.length content
  -- a file of the small size is pushed with the first cell
  obtain ⟨f, mem, copied⟩ := (ses.listed.measured dedup).2 small smallIn
  have least : f.size = small.content.length := by
    rw [inputs.measured_eq smallIn] at copied
    simp only [isCopy, Bool.and_eq_true, decide_eq_true_eq] at copied
    exact copied.1.symm
  have pushed := @Setup.execResult_eq _ (twoTarget cfg large.content large.content) f
    (ses.listed.size_le mem)
  rw [if_pos (by exact cfg.accepts_passing)] at pushed
  have hit : cfg.mark 0 ∈ cfg.collectCoverageCounts
      ((twoTarget cfg large.content large.content).trace (cfg.delivered f)) :=
    (Setup.mem_collectCoverageCounts _ _ _).2
      ((markTarget_produces).2 ⟨0, zero_mem_twoMarks .., by decide, rfl⟩)
  have best := (ses.best_le mem pushed hit).2
  have found := single _ output _ shown
  have held : ses.job.size (ses.job.finalBest ses.state (cfg.mark 0)) =
      entry.2.size := sizeAt_eq found
  omega

omit listed

/-- A finer order of the files: of those with one hash, the copies of one file come first,
then all others of its size. -/
def clashKey (content : List Byte) (f : CminFile) : Nat :=
  3 * f.sha1.toNat + (if f.size = content.length then if f.content = content then 0 else 1 else 2)

theorem clashKey_bounds (content : List Byte) (f : CminFile) :
    3 * f.sha1.toNat ≤ clashKey content f ∧ clashKey content f ≤ 3 * f.sha1.toNat + 2 := by
  unfold clashKey
  split_ifs <;> omega

structure Measured (sha1 : List Byte → Digest) (f : CminFile) : Prop where
  size : f.size = f.content.length
  filled : f.size ≠ 0
  sha1 : f.sha1 = sha1 f.content

section Clash

variable {sha1 : List Byte → Digest} {kept lost : List Byte} {head f : CminFile}
  {rest : List CminFile} {prev : Option CminFile}

theorem Measured.kept_key (known : Measured sha1 f) (same : f.content = kept) :
    clashKey kept f = 3 * (sha1 kept).toNat := by
  unfold clashKey
  rw [known.sha1, known.size, same, if_pos rfl, if_pos rfl]
  rfl

/-- The copies of `kept` are still to come, or the last file that was kept is taken for one
of them, or they are over. -/
def Ahead (sha1 : List Byte → Digest) (kept : List Byte) (prev : Option CminFile)
    (files : List CminFile) : Prop :=
  (∃ f ∈ files, f.content = kept) ∨
    (∃ p, prev = some p ∧ p.size = kept.length ∧ p.sha1 = sha1 kept) ∧
      (∀ f ∈ files, 3 * (sha1 kept).toNat ≤ clashKey kept f) ∨
    ∀ f ∈ files, 3 * (sha1 kept).toNat + 2 ≤ clashKey kept f

variable (known : Measured sha1 head) (least : ∀ g ∈ rest, clashKey kept head ≤ clashKey kept g)
  (ahead : Ahead sha1 kept prev (head :: rest))

include known least ahead

theorem Ahead.skip (copy : isCopy head prev = true) : Ahead sha1 kept prev rest := by
  rcases ahead with ⟨f, mem, same⟩ | ⟨match_, above⟩ | beyond
  · rcases mem_cons.1 mem with first | post
    · -- the file that was kept last is such a copy
      subst first
      have key := known.kept_key same
      refine .inr (.inl ⟨?_, fun g within => key ▸ least g within⟩)
      cases prev with
      | none => cases copy
      | some p =>
        simp only [isCopy, Bool.and_eq_true, decide_eq_true_eq] at copy
        exact ⟨p, rfl, by rw [← copy.1, known.size, same], by rw [← copy.2, known.sha1, same]⟩
    · exact .inl ⟨f, post, same⟩
  · exact .inr (.inl ⟨match_, fun f mem => above f (mem_cons_of_mem _ mem)⟩)
  · exact .inr (.inr (fun f mem => beyond f (mem_cons_of_mem _ mem)))

variable (len : kept.length = lost.length) (hash : sha1 kept = sha1 lost) (ne : kept ≠ lost)

omit least ahead in
include len hash ne in
private theorem Measured.lost_key (same : head.content = lost) :
    clashKey kept head = 3 * (sha1 kept).toNat + 1 := by
  unfold clashKey
  rw [known.sha1, known.size, same, if_pos len.symm, if_neg (Ne.symm ne), hash]

omit known least ahead in
private theorem high_of_unlike (low : 3 * (sha1 kept).toNat ≤ clashKey kept head)
    (unlike : ¬ (head.size = kept.length ∧ head.sha1 = sha1 kept)) :
    3 * (sha1 kept).toNat + 2 ≤ clashKey kept head := by
  have bounds := clashKey_bounds kept head
  by_cases equal : head.sha1 = sha1 kept
  · have other : head.size ≠ kept.length := fun size => unlike ⟨size, equal⟩
    unfold clashKey
    rw [equal, if_neg other]
  · have apart : head.sha1.toNat ≠ (sha1 kept).toNat :=
      fun same => equal (BitVec.eq_of_toNat_eq same)
    omega

include len hash ne in
/-- A head that is kept is not the lost file; what it is decides what is ahead of the others. -/
theorem Ahead.keep (others : ∀ f ∈ rest, Measured sha1 f) (copy : ¬ isCopy head prev = true) :
    head.content ≠ lost ∧ Ahead sha1 kept (some head) rest := by
  have lostKey := known.lost_key len hash ne
  rcases ahead with ⟨f, mem, same⟩ | ⟨⟨p, last, size, digest⟩, above⟩ | beyond
  · rcases mem_cons.1 mem with first | post
    · subst first
      have key := known.kept_key same
      refine ⟨same ▸ ne, .inr (.inl ⟨⟨f, rfl, ?_, ?_⟩, fun g within => key ▸ least g within⟩)⟩
      · rw [known.size, same]
      · rw [known.sha1, same]
    · refine ⟨?_, .inl ⟨f, post, same⟩⟩
      intro gone
      have behind := least f post
      rw [lostKey gone, (others f post).kept_key same] at behind
      omega
  · have high := high_of_unlike (above _ (mem_cons_self ..)) (by
      intro both
      apply copy
      rw [last]
      simp only [isCopy, Bool.and_eq_true, decide_eq_true_eq, size, digest]
      exact both)
    refine ⟨?_, .inr (.inr (fun f mem => Nat.le_trans high (least f mem)))⟩
    intro gone
    rw [lostKey gone] at high
    omega
  · refine ⟨?_, .inr (.inr (fun f mem => beyond f (mem_cons_of_mem _ mem)))⟩
    intro gone
    have high := beyond _ (mem_cons_self ..)
    rw [lostKey gone] at high
    omega

omit known least ahead

end Clash

def Alike (cfg : Setup) (inputs : Inputs) : Prop :=
  cfg.allowAny = true ∧ cfg.crashesOnly = false ∧
    ∀ first ∈ inputs.files, ∀ second ∈ inputs.files, first.content = second.content

private theorem delivered_unmeasured {f : CminFile} (none : f.size = 0) : cfg.delivered f = [] := by
  simp [Setup.delivered, aflFsrvWriteToTestcase, none]

private theorem length_delivered_le (shared : cfg.useShmemFuzz = true) (f : CminFile) :
    (cfg.delivered f).length ≤ maxFile := by
  simp only [Setup.delivered, aflFsrvWriteToTestcase, shared, if_true, length_take]
  exact Nat.min_le_left _ _

include listed in
theorem Listed.unseen (noDedup : cfg.noDedup = true) :
    ∀ f ∈ files, ∀ input ∈ inputs.files, cfg.delivered f ≠ input.content := by
  intro f mem input present
  obtain ⟨_, _, rfl⟩ := mem_map.1 ((listed.unmeasured noDedup).mem_iff.1 mem)
  rw [delivered_unmeasured rfl]
  exact Ne.symm (inputs.filled _ present)

section

variable (keeps : KeepsCoverage cfg inputs) (alike : ¬ Alike cfg inputs)
include keeps alike

theorem KeepsCoverage.dedup : cfg.noDedup = false := by
  by_contra noDedup
  rw [Bool.not_eq_false] at noDedup
  obtain ⟨files, listed⟩ := Listed.exists cfg.toOptions cfg.sha1 inputs
  have nothing := listed.unseen noDedup
  obtain ⟨some, someIn⟩ := exists_mem_of_ne_nil _ inputs.some
  by_cases strict : cfg.allowAny = true ∧ cfg.crashesOnly = false
  · -- everything is accepted, so there are two different inputs
    have two : ∃ first ∈ inputs.files, ∃ second ∈ inputs.files,
        first.content ≠ second.content := by
      by_contra none
      apply alike
      refine ⟨strict.1, strict.2, ?_⟩
      intro first firstIn second secondIn
      by_contra ne
      exact none ⟨first, firstIn, second, secondIn, ne⟩
    obtain ⟨first, firstIn, second, secondIn, ne⟩ := two
    exact not_keeps_of_unseen listed firstIn secondIn ne
      (fun f mem => ⟨nothing f mem _ firstIn, nothing f mem _ secondIn⟩) keeps
  · exact not_keeps_of_rejected listed someIn (fun f mem => nothing f mem _ someIn) strict keeps

theorem KeepsCoverage.whole : Whole cfg inputs := by
  have dedup := keeps.dedup alike
  intro shared large largeIn
  by_contra long
  obtain ⟨files, listed⟩ := Listed.exists cfg.toOptions cfg.sha1 inputs
  have unseen : ∀ input : InputFile, maxFile < input.content.length →
      ∀ f ∈ files, cfg.delivered f ≠ input.content := by
    intro input longer f _ same
    have short := length_delivered_le shared f
    rw [same] at short
    omega
  by_cases strict : cfg.allowAny = true ∧ cfg.crashesOnly = false
  · have other : ∃ second ∈ inputs.files, large.content ≠ second.content := by
      by_contra none
      apply alike
      refine ⟨strict.1, strict.2, ?_⟩
      have same : ∀ input ∈ inputs.files, large.content = input.content := by
        intro input present
        by_contra ne
        exact none ⟨input, present, ne⟩
      intro first firstIn second secondIn
      exact (same _ firstIn).symm.trans (same _ secondIn)
    obtain ⟨second, secondIn, ne⟩ := other
    by_cases smaller : second.content.length < large.content.length
    · exact not_keeps_of_smaller listed dedup largeIn secondIn smaller (unseen _ (by omega)) keeps
    · exact not_keeps_of_unseen listed largeIn secondIn ne
        (fun f mem => ⟨unseen _ (by omega) f mem, unseen _ (by omega) f mem⟩)
        keeps
  · exact not_keeps_of_rejected listed largeIn (unseen _ (by omega)) strict keeps

end

end AflPlusPlus.Cmin
