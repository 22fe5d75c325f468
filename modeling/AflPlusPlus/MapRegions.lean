/-
The fuzzer's view of the target's map.

The fuzzer rounds the reported size up to a multiple of 64 for its own buffers, and takes
the map of the bug pass and then the slots of `IJON_MAX` off both sizes.  What is left of
the reported size, rounded up to whole words, is what `has_new_bits` looks at.
-/

import AflPlusPlus.CoverageNovelty
import AflPlusPlus.MapLayout

namespace AflPlusPlus.MapLayout

/-- `map_size`, `real_map_size` and where `ijon_bits` points, if it is set. -/
structure View where
  mapSize : Nat
  realMapSize : Nat
  ijonOffset : Option Nat
  deriving DecidableEq, Repr

/-- The handshake.  A map of the fuzzer that is too small is refused there. -/
def View.received (rt : Runtime) : View :=
  { mapSize :=
      if rt.mapSize % 64 ≠ 0 then roundUp rt.mapSize else rt.mapSize
    realMapSize := rt.mapSize
    ijonOffset := none }

/-- `configure_bug_runtime`; no view stands for its `FATAL`. -/
def configureBugRuntime (view : View) : Option View :=
  if view.mapSize ≤ 4 + bugBytes then none
  else some { view with
    mapSize := view.mapSize - bugBytes
    realMapSize := view.realMapSize - bugBytes }

def configureIjonRuntime (view : View) : Option View :=
  if view.mapSize ≤ 4 + ijonBytes + ijonMapBytes then none
  else some
    { mapSize := view.mapSize - ijonBytes
      realMapSize := view.realMapSize - ijonBytes
      ijonOffset := some (view.mapSize - ijonBytes) }

def fuzzerView (rt : Runtime) : Option View := do
  let trimmed ←
    if rt.advertisesBugMap then configureBugRuntime (View.received rt)
    else some (View.received rt)
  if rt.advertisesIjon then configureIjonRuntime trimmed else some trimmed

def View.examined (size : WordSize) (view : View) : Nat :=
  size.bytes * size.realWords view.realMapSize

def Runtime.coverageBytes (rt : Runtime) : Nat :=
  rt.covMapSize + if rt.advertisesIjon then ijonMapBytes else 0

structure View.Agrees (size : WordSize) (rt : Runtime) (view : View) : Prop where
  slots : rt.advertisesIjon = true → view.ijonOffset = some rt.setMapSize
  coverage : rt.coverageBytes ≤ view.examined size
  noSlot : rt.advertisesIjon = true → ∀ k, rt.setMapSize ≤ k →
    k < rt.setMapSize + ijonBytes → view.examined size ≤ k
  noBug : rt.advertisesBugMap = true → ∀ k, rt.mapSize - bugBytes ≤ k →
    k < rt.mapSize → view.examined size ≤ k

/-- The fuzzer does not give up and sees the regions where the target has them. -/
def Agree (size : WordSize) (rt : Runtime) : Prop :=
  ∃ view, fuzzerView rt = some view ∧ view.Agrees size rt

variable (size : WordSize) (view : View)

theorem examined_eq :
    view.examined size = (view.realMapSize + (size.bytes - 1)) / size.bytes * size.bytes := by
  cases size with
  | size64 | size32 =>
    simp only [View.examined, WordSize.bytes, WordSize.realWords, Nat.shiftRight_eq_div_pow]
    omega

private theorem le_examined : view.realMapSize ≤ view.examined size := by
  rw [examined_eq]
  cases size <;> simp only [WordSize.bytes] <;> omega

private theorem examined_le_iff :
    view.examined size ≤ view.realMapSize ↔ view.realMapSize % size.bytes = 0 := by
  rw [examined_eq]
  cases size <;> simp only [WordSize.bytes] <;> omega

private theorem received_mapSize {rt : Runtime} (fits : rt.mapSize + 63 < 2 ^ 32) :
    (View.received rt).mapSize = (rt.mapSize + 63) / 64 * 64 := by
  simp only [View.received]
  split
  case isTrue uneven => rw [roundUp, u32_of_lt fits]
  case isFalse even => omega

variable {rt : Runtime} {coverage : Nat} {withIjon : Bool}

/-- What is left of the reported size without the map of the bug pass. -/
def Runtime.plainSize (rt : Runtime) : Nat :=
  rt.mapSize - if rt.advertisesBugMap then bugBytes else 0

variable (sized : Sized rt coverage withIjon)

include sized

theorem Sized.plainSize_eq :
    rt.plainSize = rt.setMapSize + if withIjon then ijonBytes else 0 := by
  rw [Runtime.plainSize, sized.map, Nat.add_sub_cancel]

theorem Sized.plainSize_add :
    rt.mapSize = rt.plainSize + if rt.advertisesBugMap then bugBytes else 0 := by
  rw [sized.plainSize_eq]
  exact sized.map

variable (pos : 0 < coverage)

include pos in
theorem Sized.plainSize_bounds (fits : coverage + overhead ≤ 2 ^ 32) :
    0 < rt.plainSize ∧ rt.plainSize + bugBytes + 63 < 2 ^ 32 := by
  rw [sized.plainSize_eq, sized.set, sized.cov]
  unfold overhead ijonMapBytes ijonBytes bugBytes at *
  cases withIjon with
  | false =>
    simp only [Bool.false_eq_true, if_false]
    omega
  | true =>
    simp only [if_true]
    omega

omit sized

theorem fuzzerView_eq (pos : 0 < rt.plainSize) (plain : rt.mapSize =
      rt.plainSize + if rt.advertisesBugMap then bugBytes else 0)
    (fits : rt.plainSize + bugBytes + 63 < 2 ^ 32) :
    fuzzerView rt =
      let trimmed : View := ⟨(rt.plainSize + 63) / 64 * 64, rt.plainSize, none⟩
      if rt.advertisesIjon then configureIjonRuntime trimmed else some trimmed := by
  have received := received_mapSize (show rt.mapSize + 63 < 2 ^ 32 by
    rw [plain]; split <;> omega)
  have real : (View.received rt).realMapSize = rt.mapSize := rfl
  have unset : (View.received rt).ijonOffset = none := rfl
  unfold fuzzerView
  cases bug : rt.advertisesBugMap with
  | false =>
    rw [bug] at plain
    simp only [Bool.false_eq_true, if_false, Nat.add_zero] at plain ⊢
    rw [Option.bind_eq_bind, Option.bind_some]
    rw [plain] at received real
    rw [← received, ← real, ← unset]
  | true =>
    rw [bug] at plain
    simp only [if_true] at plain ⊢
    have large : ¬ (View.received rt).mapSize ≤ 4 + bugBytes := by
      rw [received, plain]
      unfold bugBytes
      omega
    have rounded : (View.received rt).mapSize - bugBytes = (rt.plainSize + 63) / 64 * 64 := by
      rw [received, plain]
      unfold bugBytes
      omega
    rw [configureBugRuntime, if_neg large, Option.bind_eq_bind, Option.bind_some, rounded, real,
      unset, plain, Nat.add_sub_cancel]

include pos

private theorem Sized.agree_counted (sized : Sized rt coverage true)
    (fits : coverage + overhead ≤ 2 ^ 32)
    (announced : rt.advertisesIjon = true) : Agree size rt := by
  obtain ⟨nonempty, below⟩ := sized.plainSize_bounds pos fits
  have plain : rt.plainSize = rt.setMapSize + ijonBytes := sized.plainSize_eq
  have set : rt.setMapSize = rt.covMapSize + ijonMapBytes := sized.set
  have cov : rt.covMapSize = (coverage + 63) / 64 * 64 := sized.cov
  have rounded : (rt.plainSize + 63) / 64 * 64 = rt.setMapSize + ijonBytes := by
    rw [plain, set]
    unfold ijonMapBytes ijonBytes
    omega
  have large : ¬ rt.setMapSize + ijonBytes ≤ 4 + ijonBytes + ijonMapBytes := by
    omega
  have view := fuzzerView_eq nonempty sized.plainSize_add below
  rw [rounded, plain] at view
  simp only [announced, if_true, configureIjonRuntime, large, if_false, Nat.add_sub_cancel] at view
  have whole : View.examined size
      ⟨rt.setMapSize, rt.setMapSize, some rt.setMapSize⟩ = rt.setMapSize := by
    rw [examined_eq, set]
    unfold ijonMapBytes
    cases size <;> simp only [WordSize.bytes] <;> omega
  refine ⟨_, view, ⟨fun _ => rfl, ?_, ?_, ?_⟩⟩
  · apply Nat.le_of_eq
    rw [whole, Runtime.coverageBytes, if_pos announced, set]
  · intro _ k from_ _
    rw [whole]
    exact from_
  · intro bug k from_ _
    have map := sized.map
    rw [if_pos bug] at map
    omega

private theorem Sized.agree_plain_iff (sized : Sized rt coverage false)
    (fits : coverage + overhead ≤ 2 ^ 32)
    (silent : rt.advertisesIjon = false) :
    Agree size rt ↔ (rt.advertisesBugMap = true → rt.covMapSize % size.bytes = 0) := by
  obtain ⟨nonempty, below⟩ := sized.plainSize_bounds pos fits
  have view := fuzzerView_eq nonempty sized.plainSize_add below
  have plain : rt.plainSize = rt.covMapSize := sized.plainSize_eq.trans (Nat.add_zero _ ▸ sized.set)
  simp only [silent, Bool.false_eq_true, if_false, plain] at view
  have map := sized.plainSize_add
  rw [plain] at map
  constructor
  · rintro ⟨_, same, agrees⟩ bug
    rw [view, Option.some.injEq] at same
    rw [if_pos bug] at map
    have start := agrees.noBug bug (rt.mapSize - bugBytes) (Nat.le_refl _)
      (by unfold bugBytes at map ⊢; omega)
    rw [map, Nat.add_sub_cancel, ← same] at start
    exact (examined_le_iff _ _).1 start
  · intro whole
    refine ⟨_, view, ⟨?_, ?_, ?_, ?_⟩⟩
    · intro announced
      rw [silent] at announced
      cases announced
    · rw [Runtime.coverageBytes, silent]
      exact le_examined _ ⟨_, rt.covMapSize, none⟩
    · intro announced
      rw [silent] at announced
      cases announced
    · intro bug k from_ _
      rw [if_pos bug] at map
      rw [map, Nat.add_sub_cancel] at from_
      have all := (examined_le_iff _
        ⟨(rt.covMapSize + 63) / 64 * 64, rt.covMapSize, none⟩).2 (whole bug)
      exact Nat.le_trans all from_

private theorem Sized.disagree_forgotten (sized : Sized rt coverage false)
    (fits : coverage + overhead ≤ 2 ^ 32)
    (announced : rt.advertisesIjon = true) : ¬ Agree size rt := by
  obtain ⟨nonempty, below⟩ := sized.plainSize_bounds pos fits
  have view := fuzzerView_eq nonempty sized.plainSize_add below
  have plain : rt.plainSize = rt.setMapSize := sized.plainSize_eq
  simp only [announced, if_true, plain, configureIjonRuntime] at view
  rintro ⟨_, same, agrees⟩
  rw [view] at same
  split at same
  case isTrue small => cases same
  case isFalse large =>
    rw [Option.some.injEq] at same
    have slots := agrees.slots announced
    rw [← same, Option.some.injEq] at slots
    unfold ijonBytes at slots
    omega

omit pos

/-- Both sides agree exactly if the IJON maps are not forgotten and, without them, the
map of the bug pass starts at a whole word, which is right behind the last id. -/
theorem regions_agree_iff (size : WordSize) (cfg : Settings) (modules : List Module)
    (fits : Fits cfg modules) :
    Agree size (handshake cfg modules) ↔ Spared cfg modules ∧
        (cfg.ijonOn = false → cfg.bugMap = true → lastId cfg.linkedLoc (withGuards modules) ≠ 0 →
          (lastId cfg.linkedLoc (withGuards modules) + 1) % size.bytes = 0) := by
  obtain ⟨sized, small, enabled, -, bug⟩ := handshake_starts modules fits
  generalize lastId cfg.linkedLoc (withGuards modules) = last at sized small bug ⊢
  have pos : 0 < coverageEnd last := Nat.zero_lt_of_lt (lt_coverageEnd last)
  have announced : (handshake cfg modules).advertisesIjon = cfg.ijonOn := enabled
  rw [← counted_iff_spared]
  cases counts : counted cfg (withGuards modules) with
  | true =>
    have on : cfg.ijonOn = true := counted_on counts
    rw [counts] at sized
    have agree := sized.agree_counted size pos small (announced.trans on)
    simp [agree, on]
  | false =>
    rw [counts] at sized
    cases on : cfg.ijonOn with
    | true =>
      have disagree := sized.disagree_forgotten size pos small (announced.trans on)
      simp [disagree]
    | false =>
      have cov : (handshake cfg modules).covMapSize = coverageEnd last := sized.cov
      rw [sized.agree_plain_iff _ pos small (announced.trans on), bug on, cov]
      unfold coverageEnd
      by_cases used : last = 0
      · simp [used]
      · simp [used]

theorem regions_agree_oneModule :
    (Fits oneModule [[true, false, true]] ∧ Spared oneModule [[true, false, true]]) ∧
      Agree .size64 (handshake oneModule [[true, false, true]]) := by
  have fits : Fits oneModule [[true, false, true]] := by decide
  have spared : Spared oneModule [[true, false, true]] := fun _ => .inr ⟨rfl, _, rfl, by decide⟩
  exact ⟨⟨fits, spared⟩, (regions_agree_iff .size64 oneModule _ fits).2 ⟨spared, nofun⟩⟩

/-- One guard, no IJON: the coverage bytes end at 6, and the word that holds the last two
of them holds the first two bytes of the bug pass. -/
theorem last_word_reads_bug_map :
    let target := handshake { oneModule with ijon := false } [[true]]
    target.covMapSize = 6 ∧ target.mapSize = 6 + bugBytes ∧ fuzzerView target = some ⟨64, 6, none⟩ ∧
      View.examined .size64 ⟨64, 6, none⟩ = 8 ∧ ¬ Agree .size64 target := by
  have view : fuzzerView (handshake { oneModule with ijon := false } [[true]]) =
      some ⟨64, 6, none⟩ := by decide
  refine ⟨by decide, by decide, view, by decide, ?_⟩
  rintro ⟨_, same, agrees⟩
  rw [view, Option.some.injEq] at same
  have past := agrees.noBug (by decide) 6 (by decide) (by decide)
  rw [← same] at past
  exact absurd past (by decide)

end AflPlusPlus.MapLayout
