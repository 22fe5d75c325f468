/-
Choosing and writing the output files of afl-cmin.

For a tuple that is not covered yet its best file is written, and all tuples of its trace
are covered.  What has the name of a file already is replaced, unless a fresh name was
looked for.
-/

import AflPlusPlus.CminBest

namespace AflPlusPlus.Cmin

open Machine LaneWord List

structure TupleInfo where
  tuple : Nat
  count : Nat

def compareTupleCounts (ta tb : TupleInfo) : Int :=
  if ta.count ≠ tb.count then (BitVec.ofNat 32 ta.count - BitVec.ofNat 32 tb.count).toInt
  else (BitVec.ofNat 32 ta.tuple - BitVec.ofNat 32 tb.tuple).toInt

/-- The output directory: the names, and the files they are links to. -/
abbrev OutDir := List (FileName × CminFile)

def hexDigit (v : Nat) : Char := "0123456789abcdef".toList.getD v '0'

/-- `%02x` -/
def hexByte (byte : Byte) : FileName := [hexDigit (byte.toNat / 16), hexDigit (byte.toNat % 16)]

def hexBytes {w : Nat} (count : Nat) (word : BitVec w) : FileName :=
  (List.range count).flatMap (fun k => hexByte (laneAt 8 word (count - 1 - k)))

def hashName (sha1 : Digest) : FileName := hexBytes 20 sha1

def uniqueOutName (random : Nat → BitVec 32) (outDir : OutDir) (name : FileName) :
    Option FileName :=
  if outDir.all (fun entry => entry.1 ≠ name) then some name
  else (List.range 10000).findSome? (fun i =>
    let cand := hexBytes 4 (random i) ++ '_' :: name
    if outDir.all (fun entry => entry.1 ≠ cand) then some cand else none)

namespace Setup

variable (cfg : Setup)

def outName (random : Nat → BitVec 32) (outDir : OutDir) (written : Nat) (f : CminFile) :
    Option FileName :=
  if cfg.noDedup || !cfg.sha1fn then
    if cfg.asQueue then some (idText written ++ ',' :: ("orig:".toList ++ f.name))
    else uniqueOutName random outDir f.name
  else
    if cfg.asQueue then some (idText written ++ ',' :: ("hash:".toList ++ hashName f.sha1))
    else some (hashName f.sha1)

end Setup

def linkFile (outDir : OutDir) (name : FileName) (f : CminFile) : OutDir :=
  outDir.filter (fun entry => entry.1 ≠ name) ++ [(name, f)]

structure Cover where
  covered : Nat → Bool
  written : List Nat
  outDir : OutDir

structure CoverInput (cfg : Setup) where
  files : List CminFile
  finalBest : Nat → Nat
  traces : Nat → Option (List Nat)
  random : Nat → Nat → BitVec 32

namespace CoverInput

variable {cfg : Setup} (input : CoverInput cfg)

def trace (idx : Nat) : List Nat := (input.traces idx).getD []

def coverTuple (cover : Cover) (tuple : Nat) : Option Cover :=
  if cover.covered tuple then some cover
  else if input.finalBest tuple ∈ cover.written then some cover
  else do
    let f ← input.files[input.finalBest tuple]?
    let name ← cfg.outName (input.random cover.written.length) cover.outDir cover.written.length f
    return {
      covered := fun other =>
        cover.covered other || (input.trace (input.finalBest tuple)).contains other
      written := cover.written ++ [input.finalBest tuple]
      outDir := linkFile cover.outDir name f }

def coverAll : List TupleInfo → Cover → Option Cover
  | [], cover => some cover
  | info :: rest, cover => (input.coverTuple cover info.tuple).bind (coverAll rest)

def executeSetCover (order : List TupleInfo) : Option Cover :=
  input.coverAll order ⟨fun _ => false, [], []⟩

end CoverInput

variable {cfg : Setup} {input : CoverInput cfg}
variable {random : Nat → BitVec 32} {outDir : OutDir} {name : FileName} {later final : Cover}
  {tuple : Nat} {order : List TupleInfo} {f : CminFile}

private theorem uniqueOutName_fresh {found : FileName}
    (unique : uniqueOutName random outDir name = some found) :
    ∀ entry ∈ outDir, entry.1 ≠ found := by
  unfold uniqueOutName at unique
  split at unique
  · rename_i free
    cases unique
    simpa using free
  · obtain ⟨i, _, chosen⟩ := exists_of_findSome?_eq_some unique
    simp only at chosen
    split at chosen
    · rename_i free
      cases chosen
      simpa using free
    · cases chosen

variable {cover : Cover}

theorem CoverInput.coverTuple_cases (step : input.coverTuple cover tuple = some later) :
    later = cover ∧ (cover.covered tuple = true ∨ input.finalBest tuple ∈ cover.written) ∨
    ∃ f name, input.files[input.finalBest tuple]? = some f ∧
      cfg.outName (input.random cover.written.length) cover.outDir cover.written.length f =
        some name ∧
      later =
        { covered := fun other =>
            cover.covered other || (input.trace (input.finalBest tuple)).contains other
          written := cover.written ++ [input.finalBest tuple]
          outDir := linkFile cover.outDir name f } := by
  unfold coverTuple at step
  split at step
  · rename_i covered
    cases step
    exact .inl ⟨rfl, .inl covered⟩
  · split at step
    · rename_i written
      cases step
      exact .inl ⟨rfl, .inr written⟩
    · obtain ⟨f, found, rest⟩ := Option.bind_eq_some_iff.1 step
      obtain ⟨name, named, done⟩ := Option.bind_eq_some_iff.1 rest
      cases done
      exact .inr ⟨f, name, found, named, rfl⟩

theorem CoverInput.coverAll_invariant (holds : Cover → Prop)
    (kept : ∀ cover later, ∀ info ∈ order, holds cover →
      input.coverTuple cover info.tuple = some later → holds later) {cover : Cover}
    (start : holds cover) (all : input.coverAll order cover = some final) : holds final := by
  induction order generalizing cover with
  | nil =>
    cases all
    exact start
  | cons info rest ih =>
    obtain ⟨_, step, others⟩ := Option.bind_eq_some_iff.1 all
    exact ih (fun cover later other mem => kept _ _ _ (mem_cons_of_mem _ mem))
      (kept _ _ _ (mem_cons_self ..) start step) others

structure Written (input : CoverInput cfg) (order : List TupleInfo) (cover : Cover) : Prop where
  best : ∀ idx ∈ cover.written, ∃ info ∈ order, idx = input.finalBest info.tuple
  covered : ∀ tuple, cover.covered tuple = true ↔ ∃ idx ∈ cover.written, tuple ∈ input.trace idx
  linked : ∀ entry ∈ cover.outDir, ∃ idx ∈ cover.written, input.files[idx]? = some entry.2

theorem Written.step {info : TupleInfo} (written : Written input order cover)
    (mem : info ∈ order) (step : input.coverTuple cover info.tuple = some later) :
    Written input order later := by
  rcases CoverInput.coverTuple_cases step with ⟨same, _⟩ | ⟨f, _, found, _, rfl⟩
  · rw [same]
    exact written
  · exact
      { best := by
          intro idx present
          rcases mem_append.1 present with pre | new
          · exact written.best _ pre
          · exact ⟨info, mem, mem_singleton.1 new⟩
        covered := by
          intro tuple
          simp only [Bool.or_eq_true, contains_iff_mem, written.covered, mem_append, mem_singleton]
          constructor
          · intro either
            rcases either with ⟨idx, present, hit⟩ | hit
            · exact ⟨idx, .inl present, hit⟩
            · exact ⟨_, .inr rfl, hit⟩
          · intro found
            obtain ⟨idx, pre | new, hit⟩ := found
            · exact .inl ⟨idx, pre, hit⟩
            · rw [new] at hit
              exact .inr hit
        linked := by
          intro entry present
          rcases mem_append.1 present with pre | new
          · obtain ⟨idx, known, file⟩ := written.linked _ (mem_filter.1 pre).1
            exact ⟨idx, mem_append_left _ known, file⟩
          · rw [mem_singleton.1 new]
            exact ⟨_, mem_append_right _ (mem_singleton.2 rfl), found⟩ }

theorem Written.empty (input : CoverInput cfg) (order : List TupleInfo) :
    Written input order ⟨fun _ => false, [], []⟩ where
  best := nofun
  covered := by simp
  linked := nofun

theorem CoverInput.written_of_cover (cover : input.executeSetCover order = some final) :
    Written input order final :=
  input.coverAll_invariant (Written input order)
    (fun _ _ _ mem written step => written.step mem step) (Written.empty input order) cover

def Setup.hashNames (cfg : Setup) : Prop :=
  cfg.noDedup = false ∧ cfg.sha1fn = true ∧ cfg.asQueue = false

structure Linked (input : CoverInput cfg) (cover : Cover) : Prop where
  numbered : cfg.asQueue = true → ∀ entry ∈ cover.outDir,
    ∃ number rest, number < cover.written.length ∧ entry.1 = idText number ++ ',' :: rest
  hashed : cfg.hashNames → ∀ entry ∈ cover.outDir, entry.1 = hashName entry.2.sha1
  unique : ∀ entry ∈ cover.outDir, ∀ other ∈ cover.outDir, entry.1 = other.1 → entry = other

variable (named : cfg.outName random cover.outDir cover.written.length f = some name)

include named

private theorem Linked.outName (linked : Linked input cover) :
    (∀ entry ∈ cover.outDir, entry.1 ≠ name) ∨ cfg.hashNames ∧ name = hashName f.sha1 := by
  have numbered : cfg.asQueue = true → ∀ rest, name = idText cover.written.length ++ ',' :: rest →
      ∀ entry ∈ cover.outDir, entry.1 ≠ name := by
    intro queue rest form entry mem same
    obtain ⟨_, _, _, shape⟩ := linked.numbered queue _ mem
    rw [shape, form, idText, idText, append_assoc] at same
    have equal := zeroPadded_append_inj (by rfl) (append_cancel_left same)
    omega
  unfold Setup.outName at named
  cases dedup : cfg.noDedup <;> cases hash : cfg.sha1fn <;> cases queue : cfg.asQueue <;>
    simp only [dedup, hash, queue, Bool.not_true, Bool.not_false, Bool.or_true, Bool.or_false,
      if_true, Bool.false_eq_true, if_false] at named
  all_goals first
    | exact .inl (uniqueOutName_fresh named)
    | exact .inl (numbered queue _ (Option.some.inj named).symm)
    | exact .inr ⟨⟨dedup, hash, queue⟩, (Option.some.inj named).symm⟩

private theorem Linked.outName_numbered
    (queue : cfg.asQueue = true) : ∃ rest, name = idText cover.written.length ++ ',' :: rest := by
  unfold Setup.outName at named
  split at named <;> exact ⟨_, (Option.some.inj named).symm⟩

omit named

theorem mem_linkFile {entry : FileName × CminFile} :
    entry ∈ linkFile outDir name f ↔ entry ∈ outDir ∧ entry.1 ≠ name ∨ entry = (name, f) := by
  simp [linkFile]

theorem Linked.step (linked : Linked input cover)
    (step : input.coverTuple cover tuple = some later) :
    Linked input later := by
  rcases CoverInput.coverTuple_cases step with ⟨same, _⟩ | ⟨f, _, _, named, rfl⟩
  · rw [same]
    exact linked
  · exact
      { numbered := by
          intro queue entry present
          rw [length_append]
          rcases mem_linkFile.1 present with ⟨pre, _⟩ | new
          · obtain ⟨number, rest, below, shape⟩ := linked.numbered queue _ pre
            exact ⟨number, rest, Nat.lt_succ_of_lt below, shape⟩
          · obtain ⟨rest, shape⟩ := Linked.outName_numbered named queue
            exact ⟨_, rest, Nat.lt_succ_self _, new ▸ shape⟩
        hashed := by
          intro hash entry present
          rcases mem_linkFile.1 present with ⟨pre, _⟩ | new
          · exact linked.hashed hash _ pre
          · rw [new]
            unfold Setup.outName at named
            rw [hash.1, hash.2.1, hash.2.2] at named
            exact (Option.some.inj named).symm
        unique := by
          intro entry present other shown same
          rcases mem_linkFile.1 present with ⟨pre, differs⟩ | new
          · rcases mem_linkFile.1 shown with ⟨earlier, _⟩ | last
            · exact linked.unique _ pre _ earlier same
            · rw [last] at same
              exact absurd same differs
          · rcases mem_linkFile.1 shown with ⟨earlier, differs⟩ | last
            · rw [new] at same
              exact absurd same.symm differs
            · rw [new, last] }

theorem Linked.empty (input : CoverInput cfg) (covered : Nat → Bool) :
    Linked input ⟨covered, [], []⟩ where
  numbered := nofun
  hashed := nofun
  unique := nofun

private theorem Setup.outName_isSome {written : Nat} (f : CminFile)
    (easy : outDir = [] ∨ cfg.hashNames) :
    ∃ name, cfg.outName random outDir written f = some name := by
  unfold outName
  rcases easy with empty | hash
  · rw [empty]
    split_ifs
    · exact ⟨_, rfl⟩
    · exact ⟨f.name, rfl⟩
    all_goals exact ⟨_, rfl⟩
  · rw [hash.1, hash.2.1, hash.2.2]
    exact ⟨_, rfl⟩

theorem CoverInput.exists_cover
    (files : ∀ info ∈ order, ∃ f, input.files[input.finalBest info.tuple]? = some f)
    (easy : order.length ≤ 1 ∨ cfg.hashNames) :
    ∃ final, input.executeSetCover order = some final := by
  have all : ∀ (rest : List TupleInfo) (cover : Cover), (∀ info ∈ rest, info ∈ order) →
      (cover.outDir = [] ∧ rest.length ≤ 1 ∨ cfg.hashNames) →
      ∃ final, input.coverAll rest cover = some final := by
    intro rest
    induction rest with
    | nil => exact fun cover _ _ => ⟨cover, rfl⟩
    | cons head rest ih =>
      intro cover among easy
      have step : ∃ next, input.coverTuple cover head.tuple = some next := by
        obtain ⟨f, found⟩ := files _ (among _ (mem_cons_self ..))
        obtain ⟨_, named⟩ := @Setup.outName_isSome _
          (input.random cover.written.length) cover.outDir cover.written.length f
          (easy.imp (fun both => both.1) (fun hash => hash))
        unfold coverTuple
        split_ifs
        · exact ⟨_, rfl⟩
        · exact ⟨_, rfl⟩
        · rw [found]
          exact ⟨_, by rw [Option.bind_eq_bind, Option.bind_some, named]; rfl⟩
      obtain ⟨next, step⟩ := step
      have others : ∃ final, input.coverAll rest next = some final := by
        rcases easy with ⟨_, short⟩ | hash
        · have nothing : rest = [] := length_eq_zero_iff.1 (by simpa using short)
          rw [nothing]
          exact ⟨next, rfl⟩
        · exact ih _ (fun info mem => among _ (mem_cons_of_mem _ mem)) (.inr hash)
      obtain ⟨final, run⟩ := others
      refine ⟨final, ?_⟩
      rw [coverAll, step]
      exact run
  exact all _ _ (fun _ mem => mem) (easy.imp (fun short => ⟨rfl, short⟩) (fun hash => hash))

end AflPlusPlus.Cmin
