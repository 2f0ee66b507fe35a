/-
A set cut into the blocks of a list.

An allocator hands out blocks that do not meet, and keeps the set of what is taken. Each
item of the list has its block; the blocks are pairwise disjoint and make up the set.
Everything in this file is about an arbitrary space and an arbitrary block function.
-/
import Mathlib.Data.List.Pairwise
import Mathlib.Data.Set.Lattice
import Mathlib.Order.CompletePartialOrder
import Mathlib.Order.Disjoint

set_option autoImplicit false

section

variable {ι α : Type*} {f : ι → Set α} {items : List ι} {used : Set α} {i : ι}

/-- The blocks of the items are pairwise disjoint and make up `used`. -/
structure Tiling (f : ι → Set α) (items : List ι) (used : Set α) : Prop where
  disjoint : items.Pairwise fun i j => Disjoint (f i) (f j)
  mem_iff : ∀ x, x ∈ used ↔ ∃ i ∈ items, x ∈ f i

namespace Tiling

theorem nil (f : ι → Set α) : Tiling f [] ∅ :=
  ⟨List.Pairwise.nil, fun x => by simp⟩

theorem subset (h : Tiling f items used) (hi : i ∈ items) : f i ⊆ used :=
  fun x hx => (h.mem_iff x).mpr ⟨i, hi, hx⟩

/-- A block that meets nothing in use can be taken. -/
theorem take (h : Tiling f items used) (hi : Disjoint (f i) used) :
    Tiling f (items ++ [i]) (used ∪ f i) := by
  refine ⟨?_, fun x => ?_⟩
  · rw [List.pairwise_append]
    refine ⟨h.disjoint, List.pairwise_singleton _ _, ?_⟩
    intro j hj k hk
    rw [List.mem_singleton.mp hk]
    exact (hi.mono_right (h.subset hj)).symm
  · rw [Set.mem_union, h.mem_iff]
    constructor
    · rintro (⟨j, hj, hx⟩ | hx)
      · exact ⟨j, List.mem_append_left _ hj, hx⟩
      · exact ⟨i, List.mem_append_right _ (List.mem_singleton_self i), hx⟩
    · rintro ⟨j, hj, hx⟩
      rcases List.mem_append.mp hj with hj | hj
      · exact Or.inl ⟨j, hj, hx⟩
      · rw [List.mem_singleton.mp hj] at hx
        exact Or.inr hx

/-- A block can be given back, once. -/
theorem give_back [BEq ι] [LawfulBEq ι] (h : Tiling f items used) (hi : i ∈ items) :
    Tiling f (items.erase i) (used \ f i) := by
  have hsymm : ∀ {j k : ι}, Disjoint (f j) (f k) → Disjoint (f k) (f j) := fun hd => hd.symm
  have hcons : (i :: items.erase i).Pairwise fun j k => Disjoint (f j) (f k) :=
    ((List.perm_cons_erase hi).pairwise_iff hsymm).mp h.disjoint
  rw [List.pairwise_cons] at hcons
  refine ⟨hcons.2, fun x => ?_⟩
  rw [Set.mem_sdiff, h.mem_iff]
  constructor
  · rintro ⟨⟨j, hj, hx⟩, hn⟩
    refine ⟨j, ?_, hx⟩
    rcases List.mem_cons.mp ((List.perm_cons_erase hi).mem_iff.mp hj) with rfl | hj
    · exact absurd hx hn
    · exact hj
  · rintro ⟨j, hj, hx⟩
    refine ⟨⟨j, List.mem_of_mem_erase hj, hx⟩, fun hn => ?_⟩
    exact Set.disjoint_left.mp (hcons.1 j hj) hn hx

end Tiling

end
