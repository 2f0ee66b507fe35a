/-
`lazylist.h`: what a list stands for, in sequential use.

The nodes between the sentinels are in order and no two of their ranges touch; together
with the free list they are all the nodes there are. Every call keeps this.
-/
import Pspin.LazylistCalls

set_option autoImplicit false

namespace Pspin.Lazylist

open Interleave LinkedPath RangeList
open Function (update)

variable {list : lazylist_t} {range : lazylist_range_t} {n p c : ℕ} {A B L F : List ℕ}

/-- `L` are the nodes of the list between its sentinels, `F` those of the free list, and
`n` is the number of nodes. -/
structure Valid (list : lazylist_t) (n : ℕ) (L F : List ℕ) : Prop where
  capacity : n + 1 < NUM_SEGMENTS
  head : list.head_idx = n
  linked : Path list.next_idx EOL n (n :: (L ++ [n + 1]))
  free : Path list.next_idx EOL list.free_head_idx F
  perm : (L ++ F).Perm (List.range n)
  idx : ∀ i ≤ n + 1, list.idx i = i
  lock : ∀ i ≤ n + 1, list.lock i = 0
  free_lock : list.free_head_lock = 0
  mark : ∀ i ∈ n :: (L ++ [n + 1]), list.marks i = 0
  sentinel_left : list.left n = INT32_MIN ∧ list.right n = INT32_MIN
  sentinel_right : list.left (n + 1) = INT32_MAX ∧ list.right (n + 1) = INT32_MAX
  bounds : ∀ i ∈ L, INT32_MIN < list.left i ∧ list.right i < INT32_MAX
  spaced : Spaced 1 list.left list.right L

namespace Valid

theorem nodup (h : Valid list n L F) : (L ++ F).Nodup :=
  h.perm.nodup_iff.mpr List.nodup_range

theorem lt (h : Valid list n L F) {i : ℕ} (hi : i ∈ L ++ F) : i < n :=
  List.mem_range.mp (h.perm.mem_iff.mp hi)

theorem ne_EOL (h : Valid list n L F) {i : ℕ} (hi : i ≤ n + 1) : i ≠ EOL := by
  have := h.capacity
  have : NUM_SEGMENTS < EOL := by decide
  omega

/-- A node of the list is at one place only. -/
theorem place (h : Valid list n (A ++ p :: B) F) : p < n ∧ p ∉ A ∧ p ∉ B ∧ p ∉ F := by
  refine ⟨h.lt (by simp), ?_⟩
  have hd := h.nodup
  rw [List.append_assoc, List.cons_append, List.nodup_middle, List.nodup_cons] at hd
  simp only [List.mem_append, not_or] at hd
  exact hd.1

/-- The node at the head of the free list is not in the list. -/
theorem place_free (h : Valid list n L (p :: F)) : p < n ∧ p ∉ L ∧ p ∉ F := by
  refine ⟨h.lt (by simp), ?_⟩
  have hd := h.nodup
  rw [List.nodup_middle, List.nodup_cons] at hd
  simp only [List.mem_append, not_or] at hd
  exact hd.1

end Valid

/-! ## Stores to a valid list

Each way to place a range changes the range of one node `p`, which stands between the
nodes `A` and `B` afterwards. -/

/-- What a store leaves as it is. -/
structure SameFrame (list list' : lazylist_t) : Prop where
  head : list'.head_idx = list.head_idx
  free_lock : list'.free_head_lock = list.free_head_lock
  idx : list'.idx = list.idx
  lock : list'.lock = list.lock

/-- The range of no node but `p` changes. -/
def OnlyRange (list list' : lazylist_t) (p : ℕ) : Prop :=
  ∀ i, i ≠ p → list'.left i = list.left i ∧ list'.right i = list.right i

theorem OnlyRange.covers {list' : lazylist_t} (hr : OnlyRange list list' p) (hA : p ∉ A)
    (hB : p ∉ B) :
    covers list'.left list'.right (A ++ p :: B) =
      covers list.left list.right (A ++ B) ∪ Set.Icc (list'.left p) (list'.right p) := by
  have hne : ∀ i ∈ A ++ B, i ≠ p := by
    rintro i hi rfl
    exact (List.mem_append.mp hi).elim hA hB
  rw [covers_put, covers_congr (fun i hi => (hr i (hne i hi)).1) fun i hi => (hr i (hne i hi)).2]

theorem Valid.put (h : Valid list n L F) {list' : lazylist_t} {F' : List ℕ}
    (hs : (A ++ B).Sublist L) (hp : p < n) (hpA : p ∉ A) (hpB : p ∉ B)
    (hf : SameFrame list list') (hr : OnlyRange list list' p)
    (hlinked : Path list'.next_idx EOL n (n :: (A ++ p :: B ++ [n + 1])))
    (hfree : Path list'.next_idx EOL list'.free_head_idx F')
    (hperm : (A ++ p :: B ++ F').Perm (L ++ F))
    (hmark : ∀ i ∈ n :: (A ++ p :: B ++ [n + 1]), list'.marks i = 0)
    (hmin : INT32_MIN < list'.left p) (hmax : list'.right p < INT32_MAX)
    (hle : list'.left p ≤ list'.right p) (hA : ∀ a ∈ A, list.right a + 1 < list'.left p)
    (hB : ∀ b ∈ B, list'.right p + 1 < list.left b) : Valid list' n (A ++ p :: B) F' := by
  -- the other nodes of the list are not `p`
  have hne : ∀ i ∈ A ++ B, i ≠ p := by
    rintro i hi rfl
    exact (List.mem_append.mp hi).elim hpA hpB
  have hnp := hr n hp.ne'
  have hnp' := hr (n + 1) (by omega)
  -- all of it as before, but the ranges
  refine
    { capacity := h.capacity, head := hf.head.trans h.head, linked := hlinked, free := hfree,
      perm := hperm.trans h.perm, idx := fun i hi => (congrFun hf.idx i).trans (h.idx i hi),
      lock := fun i hi => (congrFun hf.lock i).trans (h.lock i hi),
      free_lock := hf.free_lock.trans h.free_lock, mark := hmark,
      sentinel_left := ⟨hnp.1.trans h.sentinel_left.1, hnp.2.trans h.sentinel_left.2⟩,
      sentinel_right := ⟨hnp'.1.trans h.sentinel_right.1, hnp'.2.trans h.sentinel_right.2⟩,
      bounds := ?_, spaced := ?_ }
  · -- the range of `p` is inside, as those of the others are
    intro i hi
    by_cases hip : i = p
    · rw [hip]
      exact ⟨hmin, hmax⟩
    · rw [(hr i hip).1, (hr i hip).2]
      refine h.bounds i (hs.subset ?_)
      simp only [List.mem_append, List.mem_cons] at hi ⊢
      tauto
  · -- and it fits between its neighbours
    refine ((h.spaced.sublist hs).congr (fun i hi => (hr i (hne i hi)).1)
      fun i hi => (hr i (hne i hi)).2).put hle ?_ ?_
    · intro a ha
      rw [(hr a (ne_of_mem_of_not_mem ha hpA)).2]
      exact hA a ha
    · intro b hb
      rw [(hr b (ne_of_mem_of_not_mem hb hpB)).1]
      exact hB b hb

section Cases

variable (hle : range.left ≤ range.right) (hmin : INT32_MIN < range.left)
  (hmax : range.right < INT32_MAX) (hA : ∀ a ∈ A, list.right a < range.left)
  (hB : ∀ b ∈ B, range.right < list.left b)

theorem Valid.joined (h : Valid list n (A ++ p :: c :: B) F) :
    Valid (freed (joined list p c) c) n (A ++ p :: B) (c :: F) := by
  obtain ⟨hp, hpA, hpcB, hpF⟩ := h.place
  have h' : Valid list n ((A ++ [p]) ++ c :: B) F := by simpa using h
  obtain ⟨hc, hcA, hcB, hcF⟩ := h'.place
  have hpB : p ∉ B := fun hm => hpcB (List.mem_cons_of_mem c hm)
  -- the node that goes is in the list no more
  have hcl : c ∉ n :: (A ++ p :: B ++ [n + 1]) := by
    simp only [List.mem_append, List.mem_cons, List.not_mem_nil, or_false, not_or] at hcA ⊢
    exact ⟨hc.ne, ⟨hcA.1, hcA.2, hcB⟩, by omega⟩
  have hl : Path list.next_idx EOL n ((n :: A) ++ p :: c :: (B ++ [n + 1])) := by
    simpa using h.linked
  have hright : (freed (Lazylist.joined list p c) c).right p = list.right c :=
    Function.update_self _ _ _
  obtain ⟨-, hpc, hAp⟩ := Spaced.append_iff.mp h.spaced
  obtain ⟨hpp, hcB', hpc⟩ := Spaced.cons_iff.mp hpc
  obtain ⟨hcc, -, hcb⟩ := Spaced.cons_iff.mp hcB'
  have hlt := hpc c (by simp)
  -- it is `put` with the range of both, after one has been taken out
  refine h.put (((List.sublist_cons_self c B).cons p).append_left A) hp hpA hpB
    ⟨rfl, rfl, rfl, rfl⟩ (fun i hi => ⟨rfl, Function.update_of_ne hi _ _⟩) ?_
    ((h.free.update_of_notMem hpF).push hcF (h.ne_EOL (by omega))) ?_ ?_
    (h.bounds p (by simp)).1 ?_ ?_ (fun a ha => hAp a ha p (by simp)) ?_
  · -- the links, then that no node is lost, the marks and the range
    simpa [freed, Lazylist.joined] using
      hl.remove.update_of_notMem (v := list.free_head_idx) (by simpa using hcl)
  · simp only [List.append_assoc, List.cons_append]
    exact ((List.perm_middle).cons p).append_left A
  · intro i hi
    refine (Function.update_of_ne (ne_of_mem_of_not_mem hi hcl) _ _).trans (h.mark i ?_)
    simp only [List.mem_append, List.mem_cons] at hi ⊢
    tauto
  · rw [hright]
    exact (h.bounds c (by simp)).2
  · rw [hright]
    exact hpp.trans (by omega)
  · rw [hright]
    exact hcb

include hle hmax in
theorem Valid.grown_right (h : Valid list n (A ++ p :: B) F) (hl : list.right p + 1 = range.left)
    (hB : ∀ b ∈ B, range.right + 1 < list.left b) :
    Valid (grown_right list range p) n (A ++ p :: B) F := by
  obtain ⟨hp, hpA, hpB, -⟩ := h.place
  have hright : (Lazylist.grown_right list range p).right p = range.right :=
    Function.update_self _ _ _
  obtain ⟨-, hpB', hAp⟩ := Spaced.append_iff.mp h.spaced
  have hpp := (Spaced.cons_iff.mp hpB').1
  refine h.put ((List.sublist_cons_self p B).append_left A) hp hpA hpB ⟨rfl, rfl, rfl, rfl⟩
    (fun i hi => ⟨rfl, Function.update_of_ne hi _ _⟩) h.linked h.free (List.Perm.refl _) h.mark
    (h.bounds p (by simp)).1 ?_ ?_ (fun a ha => hAp a ha p (by simp)) ?_
  · rw [hright]
    exact hmax
  · rw [hright]
    exact hpp.trans (by omega)
  · rw [hright]
    exact hB

include hle hmin in
theorem Valid.grown_left (h : Valid list n (A ++ c :: B) F) (hr : range.right + 1 = list.left c)
    (hA : ∀ a ∈ A, list.right a + 1 < range.left) :
    Valid (grown_left list range c) n (A ++ c :: B) F := by
  obtain ⟨hc, hcA, hcB, -⟩ := h.place
  have hleft : (Lazylist.grown_left list range c).left c = range.left :=
    Function.update_self _ _ _
  obtain ⟨-, hcB', -⟩ := Spaced.append_iff.mp h.spaced
  obtain ⟨hcc, -, hcb⟩ := Spaced.cons_iff.mp hcB'
  refine h.put ((List.sublist_cons_self c B).append_left A) hc hcA hcB ⟨rfl, rfl, rfl, rfl⟩
    (fun i hi => ⟨Function.update_of_ne hi _ _, rfl⟩) h.linked h.free (List.Perm.refl _) h.mark
    ?_ (h.bounds c (by simp)).2 ?_ ?_ hcb
  · rw [hleft]
    exact hmin
  · rw [hleft]
    exact (show range.left ≤ list.left c by omega).trans hcc
  · rw [hleft]
    exact hA

omit hle hmin hmax in
/-- The list with the nodes `l` between two neighbours. -/
theorem neighbours_eq {pred curr : ℕ} {X Y : List ℕ} (hX : n :: A = X ++ [pred])
    (hY : B ++ [n + 1] = curr :: Y) (l : List ℕ) :
    n :: (A ++ (l ++ B) ++ [n + 1]) = X ++ pred :: (l ++ curr :: Y) := by
  rw [← hY, ← List.singleton_append (x := pred), ← List.append_assoc X, ← hX]
  simp

include hle hmin hmax in
theorem Valid.added {pred curr m : ℕ} {X Y : List ℕ} (h : Valid list n (A ++ B) (m :: F))
    (hX : n :: A = X ++ [pred]) (hY : B ++ [n + 1] = curr :: Y)
    (hA : ∀ a ∈ A, list.right a + 1 < range.left) (hB : ∀ b ∈ B, range.right + 1 < list.left b) :
    Valid (added list range pred curr) n (A ++ m :: B) F := by
  obtain ⟨hm, hmL, hmF⟩ := h.place_free
  have hfree : list.free_head_idx = m := h.free.1
  simp only [List.mem_append, not_or] at hmL
  have hlist := neighbours_eq hX hY []
  have hlist' := neighbours_eq hX hY [m]
  -- the new node was not in the list
  have hml : m ∉ X ++ pred :: curr :: Y := by
    rw [List.nil_append, List.nil_append] at hlist
    rw [← hlist]
    simp only [List.mem_append, List.mem_cons, List.not_mem_nil, or_false, not_or]
    exact ⟨hm.ne, hmL, by omega⟩
  have hl : Path list.next_idx EOL n (X ++ pred :: curr :: Y) := hlist ▸ h.linked
  have hleft : (Lazylist.added list range pred curr).left m = range.left := by
    simp [Lazylist.added, hfree]
  have hright : (Lazylist.added list range pred curr).right m = range.right := by
    simp [Lazylist.added, hfree]
  have hlock : update list.lock m 0 = list.lock := by
    rw [Function.update_eq_self_iff, h.lock m (by omega)]
  -- nor is `pred` free, so the free list keeps its links
  have hpF : pred ∉ F := by
    intro hpF
    have hpA : pred ∈ n :: A := hX ▸ List.mem_append_right X List.mem_cons_self
    rcases List.mem_cons.mp hpA with rfl | hpA
    · exact (h.lt (List.mem_append_right _ (List.mem_cons_of_mem m hpF))).false
    · exact h.nodup.disjoint (List.mem_append_left B hpA) (List.mem_cons_of_mem m hpF)
  -- it is `put` with the new range, at a node that was free
  refine h.put (List.Sublist.refl _) hm hmL.1 hmL.2 ⟨rfl, rfl, rfl, ?_⟩
    (fun i hi => ?_) ?_ ?_ ?_ ?_ ?_ ?_ ?_ ?_ ?_
  · simp [Lazylist.added, hfree, hlock]
  · simp [Lazylist.added, hfree, hi]
  · -- the links of the list and of the free list, then that no node is lost
    rw [show A ++ m :: B = A ++ ([m] ++ B) from rfl, hlist']
    have := hl.insert hml (h.ne_EOL (by omega))
    rw [hl.next] at this
    simpa [Lazylist.added, hfree] using this
  · simp only [Lazylist.added, hfree]
    have := h.free.2.2
    exact (this.update_of_notMem hmF).update_of_notMem hpF
  · simp only [List.append_assoc, List.cons_append]
    refine List.Perm.append_left A ?_
    exact List.perm_middle.symm
  · -- the new node is not marked
    intro i hi
    by_cases him : i = m
    · simp [Lazylist.added, hfree, him]
    · have hi' : i ∈ n :: (A ++ B ++ [n + 1]) := by
        simp only [List.mem_append, List.mem_cons, him, false_or] at hi ⊢
        exact hi
      simp [Lazylist.added, hfree, him, h.mark i hi']
  · rw [hleft]
    exact hmin
  · rw [hright]
    exact hmax
  · rw [hleft, hright]
    exact hle
  · rw [hleft]
    exact hA
  · rw [hright]
    exact hB

end Cases

theorem Valid.removed {front_next : ℕ} (h : Valid list n (c :: B) F)
    (hn : list.next_idx c = front_next) :
    Valid (freed (removed list n c front_next) c) n B (c :: F) := by
  obtain ⟨hc, -, hcB, hcF⟩ := h.place (A := [])
  have hcl : c ∉ n :: (B ++ [n + 1]) := by
    simp only [List.mem_append, List.mem_cons, List.not_mem_nil, or_false, not_or]
    exact ⟨hc.ne, hcB, by omega⟩
  have hnF : n ∉ F := fun hm => (h.lt (List.mem_append_right (c :: B) hm)).false
  have hl : Path list.next_idx EOL n ([] ++ n :: c :: (B ++ [n + 1])) := h.linked
  refine
    { capacity := h.capacity, head := h.head, linked := ?_,
      free := (h.free.update_of_notMem hnF).push hcF (h.ne_EOL (by omega)),
      perm := List.perm_middle.trans h.perm, idx := h.idx, lock := h.lock, free_lock := h.free_lock,
      mark := fun i hi => ?_, sentinel_left := h.sentinel_left,
      sentinel_right := h.sentinel_right,
      bounds := fun i hi => h.bounds i (List.mem_cons_of_mem c hi),
      spaced := h.spaced.sublist (List.sublist_cons_self c B) }
  · rw [← hn]
    exact hl.remove.update_of_notMem hcl
  · refine (Function.update_of_ne (ne_of_mem_of_not_mem hi hcl) _ _).trans (h.mark i ?_)
    simp only [List.cons_append, List.mem_cons] at hi ⊢
    tauto

end Pspin.Lazylist
