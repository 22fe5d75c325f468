import Mathlib

/-! The lookup of an address in the table of filtered code ranges. -/

namespace AflPlusPlus.PcFilter

/-- `FilterPCEntry`: the addresses from `start` on, `len` of them. -/
structure FilterPCEntry where
  start : Nat
  len : Nat

def FilterPCEntry.Holds (entry : FilterPCEntry) (addr : Nat) : Prop :=
  entry.start ≤ addr ∧ addr < entry.start + entry.len

/-- The loop of `locate_in_pcs`. The outer `none` is a read outside the table. -/
def search (table : List FilterPCEntry) (needle lower upper : Nat) : Option (Option Nat) :=
  if lower < table.length ∧ lower ≤ upper then
    let cur := lower + (upper - lower) / 2
    match table[cur]? with
    | none => none
    | some entry =>
      if entry.start ≤ needle then
        if needle < (entry.start + entry.len) % 2 ^ 64 then some (some cur)
        else search table needle (cur + 1) upper
      else if cur = 0 then some none
      else search table needle lower (cur - 1)
  else some none
termination_by upper + 1 - lower

/-- `locate_in_pcs`; the size is a `u32`, so an empty table starts with `upper_bound = UINT_MAX`. -/
def locateInPcs (table : List FilterPCEntry) (needle : Nat) : Option (Option Nat) :=
  search table needle 0 ((table.length + (2 ^ 32 - 1)) % 2 ^ 32)

variable {table : List FilterPCEntry} {needle : Nat}

/-- Every range ends before a later one starts. -/
def Ordered (table : List FilterPCEntry) : Prop :=
  table.Pairwise fun first second => first.start + first.len ≤ second.start

private theorem Ordered.placed (ordered : Ordered table) {i j : Nat} {first second : FilterPCEntry}
    (atFirst : table[i]? = some first) (atSecond : table[j]? = some second) :
    (i < j → first.start + first.len ≤ second.start) ∧
      (j < i → second.start + second.len ≤ first.start) ∧ (i = j → first = second) := by
  obtain ⟨_, rfl⟩ := List.getElem?_eq_some_iff.mp atFirst
  obtain ⟨_, rfl⟩ := List.getElem?_eq_some_iff.mp atSecond
  have apart := List.pairwise_iff_getElem.mp ordered
  exact ⟨apart i j _ _, apart j i _ _, fun same => by subst same; rfl⟩

private theorem search_exact (ordered : Ordered table)
    (bounded : ∀ entry ∈ table, entry.start + entry.len < 2 ^ 64) (lower upper : Nat)
    (inside : lower < table.length → upper < table.length)
    (outside : ∀ i entry, table[i]? = some entry → entry.Holds needle → lower ≤ i ∧ i ≤ upper) :
    ∃ found, search table needle lower upper = some found ∧ ∀ i, found = some i ↔
      ∃ entry, table[i]? = some entry ∧ entry.Holds needle := by
  fun_induction search with
  | case1 lower upper guard cur missing =>
    have := inside guard.1
    rw [List.getElem?_eq_none_iff] at missing
    omega
  | case2 lower upper guard cur entry read starts ends =>
    rw [Nat.mod_eq_of_lt (bounded entry (List.mem_of_getElem? read))] at ends
    refine ⟨some cur, rfl, fun i => ⟨?_, ?_⟩⟩
    · rintro ⟨⟩
      exact ⟨entry, read, starts, ends⟩
    · rintro ⟨other, atI, holds⟩
      have := ordered.placed atI read
      grind [FilterPCEntry.Holds]
  | case3 lower upper guard cur entry read starts ends rest =>
    rw [Nat.mod_eq_of_lt (bounded entry (List.mem_of_getElem? read))] at ends
    refine rest (fun _ => inside guard.1) fun i other atI holds => ?_
    have := outside i other atI holds
    have := ordered.placed atI read
    grind [FilterPCEntry.Holds]
  | case4 lower upper guard cur entry read starts first =>
    refine ⟨none, rfl, fun i => ⟨nofun, ?_⟩⟩
    rintro ⟨other, atI, holds⟩
    have := ordered.placed atI read
    grind [FilterPCEntry.Holds]
  | case5 lower upper guard cur entry read starts first rest =>
    have := inside guard.1
    refine rest (fun _ => by omega) fun i other atI holds => ?_
    have := outside i other atI holds
    have := ordered.placed atI read
    grind [FilterPCEntry.Holds]
  | case6 lower upper guard =>
    refine ⟨none, rfl, fun i => ⟨nofun, ?_⟩⟩
    rintro ⟨other, atI, holds⟩
    have := (List.getElem?_eq_some_iff.mp atI).1
    have := outside i other atI holds
    omega

theorem locateInPcs_exact (size : table.length < 2 ^ 32) (ordered : Ordered table)
    (bounded : ∀ entry ∈ table, entry.start + entry.len < 2 ^ 64) :
    ∃ found, locateInPcs table needle = some found ∧ ∀ i, found = some i ↔
      ∃ entry, table[i]? = some entry ∧ entry.Holds needle := by
  apply search_exact ordered bounded
  · omega
  · intro i entry atI _
    have := (List.getElem?_eq_some_iff.mp atI).1
    omega

theorem locateInPcs_two_ranges :
    let table : List FilterPCEntry := [⟨3, 7⟩, ⟨12, 4⟩]
    (table.length < 2 ^ 32 ∧ Ordered table ∧ ∀ entry ∈ table, entry.start + entry.len < 2 ^ 64) ∧
      ∃ found, locateInPcs table 13 = some found ∧ ∀ i, found = some i ↔
        ∃ entry, table[i]? = some entry ∧ entry.Holds 13 := by
  have ordered : Ordered [⟨3, 7⟩, ⟨12, 4⟩] := by simp [Ordered]
  exact ⟨⟨by decide, ordered, by decide⟩, locateInPcs_exact (by decide) ordered (by decide)⟩

theorem locateInPcs_empty_ranges :
    let table : List FilterPCEntry := [⟨3, 7⟩, ⟨5, 0⟩, ⟨6, 0⟩]
    table.Pairwise (fun first second => first.start ≤ second.start) ∧
      table.Pairwise (fun first second => ∀ addr, ¬ (first.Holds addr ∧ second.Holds addr)) ∧
        (∃ entry ∈ table, entry.Holds 7) ∧ locateInPcs table 7 = some none := by
  refine ⟨by decide, by simp [FilterPCEntry.Holds], by simp [FilterPCEntry.Holds],
    by decide +kernel⟩

end AflPlusPlus.PcFilter
