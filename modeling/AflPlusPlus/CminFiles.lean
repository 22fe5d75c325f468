/-
The input files of afl-cmin.

The collectors record the regular files of the input directories without a
size.  Deduplication reads every file, sets its size and its hash, and keeps one
of the files that have both in common; with --no-dedup it is left out.
-/

import AflPlusPlus.Machine.Format
import AflPlusPlus.Machine.Qsort
import AflPlusPlus.SyncFuzzers

namespace AflPlusPlus.Cmin

open Machine List

/-- A SHA-1 value.  Its first byte is the highest one, so that `memcmp` orders the
values as numbers. -/
abbrev Digest := BitVec 160

structure InputFile where
  dir : FileName
  name : FileName
  content : List Byte
  deriving DecidableEq

structure CminFile where
  dir : FileName
  name : FileName
  size : Nat
  sha1 : Digest
  content : List Byte
  deriving DecidableEq

structure Options where
  crashesOnly : Bool
  allowAny : Bool
  edgesOnly : Bool
  noDedup : Bool
  asQueue : Bool
  sha1fn : Bool

/-- Hidden files, and the files of a session that can be resumed fast. -/
def skipsName (name : FileName) : Bool :=
  name.head? = some '.' || "fastresume.bin".toList.isPrefixOf name

/-- `collect_worker` defers the size. -/
def collectFile (input : InputFile) : CminFile where
  dir := input.dir
  name := input.name
  size := 0
  sha1 := 0
  content := input.content

def collect (inputs : List InputFile) : List CminFile :=
  (inputs.filter (fun input => !skipsName input.name)).map collectFile

def getBinaryHashLocal (sha1 : List Byte → Digest) (f : CminFile) : CminFile :=
  let res := min f.content.length 65536
  if res = 0 then { f with size := 0, sha1 := 0 }
  else if res < 65536 then { f with size := res, sha1 := sha1 (f.content.take res) }
  else if 2 ^ 32 - 1 ≤ f.content.length then { f with size := 0, sha1 := 0 }
  else { f with size := f.content.length, sha1 := sha1 f.content }

def compareHashes (fa fb : CminFile) : Int := (fa.sha1.toNat : Int) - fb.sha1.toNat

def isCopy (f : CminFile) : Option CminFile → Bool
  | none => false
  | some prev => f.size = prev.size && f.sha1 = prev.sha1

def removeDuplicates : Option CminFile → List CminFile → List CminFile
  | _, [] => []
  | prev, f :: rest =>
    if f.size = 0 then removeDuplicates prev rest
    else if isCopy f prev then removeDuplicates prev rest
    else f :: removeDuplicates (some f) rest

/-- `kept` may be what is left of the files that were found. -/
def DedupFiles (sha1 : List Byte → Digest) (found kept : List CminFile) : Prop :=
  ∃ byHash, Sorts compareHashes (found.map (getBinaryHashLocal sha1)) byHash ∧
    kept = removeDuplicates none byHash

def strcmp : FileName → FileName → Int
  | [], [] => 0
  | a :: _, [] => a.toNat
  | [], b :: _ => -b.toNat
  | a :: as, b :: bs => if a = b then strcmp as bs else (a.toNat : Int) - b.toNat

def compareFiles (fa fb : CminFile) : Int :=
  if fa.size ≠ fb.size then (BitVec.ofNat 32 fa.size - BitVec.ofNat 32 fb.size).toInt
  else if strcmp fa.dir fb.dir ≠ 0 then strcmp fa.dir fb.dir
  else strcmp fa.name fb.name

/-- The array of files that the workers see, but for the sentinel. -/
def Listed (options : Options) (sha1 : List Byte → Digest) (inputs : List InputFile)
    (files : List CminFile) : Prop :=
  ∃ found kept, found.Perm (collect inputs) ∧
    (if options.noDedup then kept = found else DedupFiles sha1 found kept) ∧
    Sorts compareFiles kept files

/-- The input files that are taken: readable, not empty, and below 2^32-1 bytes. -/
structure Inputs where
  files : List InputFile
  some : files ≠ []
  named : ∀ input ∈ files, skipsName input.name = false
  filled : ∀ input ∈ files, input.content ≠ []
  small : ∀ input ∈ files, input.content.length < 2 ^ 32 - 1

def measured (sha1 : List Byte → Digest) (input : InputFile) : CminFile :=
  getBinaryHashLocal sha1 (collectFile input)

variable {options : Options} {sha1 : List Byte → Digest} {inputs : Inputs} {files : List CminFile}

theorem Inputs.collect_eq (inputs : Inputs) :
    collect inputs.files = inputs.files.map collectFile := by
  unfold collect
  rw [filter_eq_self.2]
  intro input mem
  rw [inputs.named _ mem]
  rfl

private theorem getBinaryHashLocal_eq {f : CminFile} (filled : f.content ≠ [])
    (small : f.content.length < 2 ^ 32 - 1) :
    getBinaryHashLocal sha1 f = { f with size := f.content.length, sha1 := sha1 f.content } := by
  have pos := length_pos_iff.2 filled
  simp only [getBinaryHashLocal]
  rw [if_neg (by omega)]
  by_cases short : f.content.length < 65536
  · rw [if_pos (by omega), Nat.min_eq_left (by omega), take_length]
  · rw [if_neg (by omega), if_neg (by omega)]

theorem Inputs.measured_eq (inputs : Inputs) {input : InputFile} (mem : input ∈ inputs.files) :
    measured sha1 input = { collectFile input with
        size := input.content.length
        sha1 := sha1 input.content } :=
  @getBinaryHashLocal_eq sha1 (collectFile input) (inputs.filled input mem) (inputs.small input mem)

variable (prev : Option CminFile) (found : List CminFile)

private theorem removeDuplicates_subset : ∀ f ∈ removeDuplicates prev found, f ∈ found := by
  induction found generalizing prev with
  | nil => simp [removeDuplicates]
  | cons head rest ih =>
    intro f mem
    rw [removeDuplicates] at mem
    split at mem
    · exact mem_cons_of_mem _ (ih _ f mem)
    · split at mem
      · exact mem_cons_of_mem _ (ih _ f mem)
      · rcases mem_cons.1 mem with first | later
        · rw [first]
          exact mem_cons_self ..
        · exact mem_cons_of_mem _ (ih _ f later)

private theorem removeDuplicates_represents :
    ∀ f ∈ found, f.size ≠ 0 → isCopy f prev = true ∨
      ∃ kept ∈ removeDuplicates prev found, isCopy f (some kept) = true := by
  induction found generalizing prev with
  | nil => simp
  | cons head rest ih =>
    intro f mem sized
    have same : isCopy f (some f) = true := by simp [isCopy]
    rw [removeDuplicates]
    rcases mem_cons.1 mem with first | later
    · subst first
      rw [if_neg sized]
      by_cases copy : isCopy f prev = true
      · exact .inl copy
      · rw [if_neg copy]
        exact .inr ⟨f, mem_cons_self .., same⟩
    · by_cases empty : head.size = 0
      · rw [if_pos empty]
        exact ih _ f later sized
      · rw [if_neg empty]
        by_cases copy : isCopy head prev = true
        · rw [if_pos copy]
          exact ih _ f later sized
        · rw [if_neg copy]
          rcases ih (some head) f later sized with here | beyond
          · exact .inr ⟨head, mem_cons_self .., here⟩
          · obtain ⟨kept, present, copied⟩ := beyond
            exact .inr ⟨kept, mem_cons_of_mem _ present, copied⟩

section

variable (listed : Listed options sha1 inputs.files files)
include listed

/-- With deduplication every file of the array has its size and its hash, and every
input has a file of its size and hash in the array. -/
theorem Listed.measured (dedup : options.noDedup = false) :
    (∀ f ∈ files, ∃ input ∈ inputs.files, f = Cmin.measured sha1 input) ∧
    ∀ input ∈ inputs.files, ∃ f ∈ files, isCopy (Cmin.measured sha1 input) (some f) = true := by
  obtain ⟨found, _, order, deduped, sorted⟩ := listed
  rw [dedup] at deduped
  obtain ⟨byHash, byHashSorted, rfl⟩ := deduped
  rw [inputs.collect_eq] at order
  have members : ∀ f, f ∈ byHash ↔ ∃ input ∈ inputs.files, f = Cmin.measured sha1 input := by
    intro f
    rw [byHashSorted.perm.mem_iff, (order.map _).mem_iff]
    simp [Cmin.measured, eq_comm]
  constructor
  · intro f mem
    exact (members f).1 (removeDuplicates_subset _ _ f (sorted.perm.mem_iff.1 mem))
  · intro input mem
    have sized : (Cmin.measured sha1 input).size ≠ 0 := by
      rw [inputs.measured_eq mem]
      simpa using inputs.filled _ mem
    rcases removeDuplicates_represents none byHash _ ((members _).2 ⟨input, mem, rfl⟩) sized
      with bad | found
    · cases bad
    · obtain ⟨f, present, copied⟩ := found
      exact ⟨f, sorted.perm.mem_iff.2 present, copied⟩

theorem Listed.unmeasured (noDedup : options.noDedup = true) :
    files.Perm (inputs.files.map collectFile) := by
  obtain ⟨_, _, order, taken, sorted⟩ := listed
  rw [noDedup] at taken
  rw [inputs.collect_eq] at order
  subst taken
  exact sorted.perm.trans order

theorem Listed.mem_content {f : CminFile} (mem : f ∈ files) :
    ∃ input ∈ inputs.files, f.content = input.content ∧ f.size < 2 ^ 32 - 1 := by
  cases dedup : options.noDedup with
  | false =>
    obtain ⟨input, present, rfl⟩ := (listed.measured dedup).1 f mem
    rw [inputs.measured_eq present]
    exact ⟨input, present, rfl, inputs.small _ present⟩
  | true =>
    have found := (listed.unmeasured dedup).mem_iff.1 mem
    obtain ⟨input, present, rfl⟩ := mem_map.1 found
    exact ⟨input, present, rfl, Nat.zero_lt_of_ne_zero (by decide)⟩

end

theorem Listed.exists (options : Options) (sha1 : List Byte → Digest) (inputs : Inputs) :
    ∃ files, Listed options sha1 inputs.files files := by
  obtain ⟨byHash, byHashSorted⟩ :=
    Sorts.exists compareHashes ((collect inputs.files).map (getBinaryHashLocal sha1))
  cases dedup : options.noDedup with
  | false =>
    obtain ⟨files, sorted⟩ := Sorts.exists compareFiles (removeDuplicates none byHash)
    refine ⟨files, _, _, List.Perm.refl _, ?_, sorted⟩
    rw [dedup]
    exact ⟨byHash, byHashSorted, rfl⟩
  | true =>
    obtain ⟨files, sorted⟩ := Sorts.exists compareFiles (collect inputs.files)
    refine ⟨files, _, _, List.Perm.refl _, ?_, sorted⟩
    rw [dedup, if_pos rfl]

end AflPlusPlus.Cmin
