/-
The C library's `qsort`, of which only the contract is known: the result is a
permutation of the array, and it is in order if the comparison function orders the
elements of the array.  How elements that compare equal are arranged is open.

Insertion sort is one implementation that meets the contract.
-/

import Mathlib.Data.List.Basic
import Mathlib.Data.List.Perm.Basic

namespace AflPlusPlus.Machine

open List

variable {Item : Type}

/-- The comparison function is a total preorder on these elements. -/
structure LawfulOn (compare : Item → Item → Int) (items : List Item) : Prop where
  total : ∀ a ∈ items, ∀ b ∈ items, compare a b ≤ 0 ∨ compare b a ≤ 0
  trans : ∀ a ∈ items, ∀ b ∈ items, ∀ c ∈ items, compare a b ≤ 0 → compare b c ≤ 0 → compare a c ≤ 0

structure Qsort where
  sort : {Item : Type} → (Item → Item → Int) → List Item → List Item
  perm : ∀ {Item : Type} (compare : Item → Item → Int) (items : List Item),
    (sort compare items).Perm items
  ordered : ∀ {Item : Type} (compare : Item → Item → Int) (items : List Item),
    LawfulOn compare items → (sort compare items).Pairwise (fun a b => compare a b ≤ 0)

variable {compare : Item → Item → Int} {items : List Item}

theorem LawfulOn.of_subset {fewer : List Item} (lawful : LawfulOn compare items)
    (inside : ∀ item ∈ fewer, item ∈ items) :
    LawfulOn compare fewer where
  total a first b second := lawful.total a (inside a first) b (inside b second)
  trans a first b second c third :=
    lawful.trans a (inside a first) b (inside b second) c (inside c third)

theorem LawfulOn.of_key (key : Item → Int)
    (difference : ∀ a ∈ items, ∀ b ∈ items, compare a b = key a - key b) :
    LawfulOn compare items where
  total a first b second := by
    rw [difference a first b second, difference b second a first]
    omega
  trans a first b second c third := by
    rw [difference a first b second, difference b second c third, difference a first c third]
    omega

def insertItem (compare : Item → Item → Int) (item : Item) : List Item → List Item
  | [] => [item]
  | head :: rest =>
    if compare item head ≤ 0 then item :: head :: rest
    else head :: insertItem compare item rest

def insertionSort (compare : Item → Item → Int) : List Item → List Item
  | [] => []
  | head :: rest => insertItem compare head (insertionSort compare rest)

theorem insertItem_perm (compare : Item → Item → Int) (item : Item) (items : List Item) :
    (insertItem compare item items).Perm (item :: items) := by
  induction items with
  | nil => exact List.Perm.refl _
  | cons head rest ih =>
    rw [insertItem]
    split
    · exact List.Perm.refl _
    · exact (ih.cons _).trans (List.Perm.swap _ _ _)

theorem insertionSort_perm (compare : Item → Item → Int) (items : List Item) :
    (insertionSort compare items).Perm items := by
  induction items with
  | nil => exact List.Perm.refl _
  | cons head rest ih => exact (insertItem_perm _ _ _).trans (ih.cons _)

private theorem insertItem_ordered {item : Item} (lawful : LawfulOn compare (item :: items))
    (sorted : items.Pairwise (fun a b => compare a b ≤ 0)) :
    (insertItem compare item items).Pairwise (fun a b => compare a b ≤ 0) := by
  induction items with
  | nil => exact pairwise_singleton _ _
  | cons head rest ih =>
    obtain ⟨first, later⟩ := pairwise_cons.mp sorted
    have here : item ∈ item :: head :: rest := mem_cons_self
    have next : head ∈ item :: head :: rest := mem_cons_of_mem _ mem_cons_self
    rw [insertItem]
    by_cases pre : compare item head ≤ 0
    · rw [if_pos pre]
      refine pairwise_cons.mpr ⟨?_, sorted⟩
      intro other mem
      rcases mem_cons.mp mem with same | beyond
      · rw [same]
        exact pre
      · exact lawful.trans _ here _ next _ (mem_cons_of_mem _ mem) pre (first _ beyond)
    · rw [if_neg pre]
      refine pairwise_cons.mpr ⟨?_, ih (lawful.of_subset ?_) later⟩
      · intro other mem
        rcases mem_cons.mp ((insertItem_perm compare item rest).mem_iff.mp mem) with
          same | beyond
        · rw [same]
          exact (lawful.total _ here _ next).resolve_left pre
        · exact first _ beyond
      · intro other mem
        rcases mem_cons.mp mem with same | beyond
        · rw [same]
          exact here
        · exact mem_cons_of_mem _ (mem_cons_of_mem _ beyond)

theorem insertionSort_ordered (lawful : LawfulOn compare items) :
    (insertionSort compare items).Pairwise (fun a b => compare a b ≤ 0) := by
  induction items with
  | nil => exact List.Pairwise.nil
  | cons head rest ih =>
    have tail := ih (lawful.of_subset (fun _ mem => mem_cons_of_mem _ mem))
    refine insertItem_ordered (lawful.of_subset ?_) tail
    intro item mem
    exact ((insertionSort_perm _ _).cons _).mem_iff.mp mem

def insertionQsort : Qsort where
  sort := insertionSort
  perm := insertionSort_perm
  ordered _ _ lawful := insertionSort_ordered lawful

/-- What a call may leave in the array. -/
structure Sorts (compare : Item → Item → Int) (items res : List Item) : Prop where
  perm : res.Perm items
  ordered : LawfulOn compare items → res.Pairwise (fun a b => compare a b ≤ 0)

theorem Sorts.exists (compare : Item → Item → Int) (items : List Item) :
    ∃ res, Sorts compare items res :=
  ⟨insertionSort compare items, insertionSort_perm compare items, insertionSort_ordered⟩

end AflPlusPlus.Machine
