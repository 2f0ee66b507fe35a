/-
`lazylist.h`: calls on whole lists and their runs, in sequential use.

A range that fits is added to what the list stands for, and the front is the lowest range
of it. In every run of such calls each node is in the list or in the free list. On a list
without a free node, a call that needs one reads past the end of the array: the test for
an empty free list looks at the lock.
-/
import Pspin.LazylistContents

set_option autoImplicit false

namespace Pspin.Lazylist

open Interleave LinkedPath RangeList
open Function (update)

variable {list : lazylist_t} {range : lazylist_range_t} {n p c : ℕ} {A B L F : List ℕ}

/-! ## Calls on a valid list -/

/-- With enough turns of its loops the call returns `a`. -/
def Returns {α : Type} (call : ℕ → Code α) (list : lazylist_t) (a : α) (list' : lazylist_t) :
    Prop :=
  ∃ turns, ∀ fuel, turns ≤ fuel → exec (call fuel) list = .ok a list'

/-- A call that returns with `turns` turns and any number more. -/
theorem Returns.of_add {α : Type} {call : ℕ → Code α} {list list' : lazylist_t} {a : α}
    (turns : ℕ) (h : ∀ k, exec (call (k + turns)) list = .ok a list') :
    Returns call list a list' := by
  refine ⟨turns, fun fuel hf => ?_⟩
  obtain ⟨k, rfl⟩ := Nat.exists_eq_add_of_le' hf
  exact h k

section Search

variable {pred curr : ℕ} {X Y : List ℕ}

namespace Valid

/-- The cells of the list and its two sentinels. -/
theorem le_of_linked (h : Valid list n L F) {i : ℕ} (hi : i ∈ n :: (L ++ [n + 1])) :
    i ≤ n + 1 := by
  simp only [List.mem_cons, List.mem_append, List.not_mem_nil, or_false] at hi
  rcases hi with rfl | hi | rfl
  · omega
  · exact (h.lt (List.mem_append_left F hi)).le.trans (by omega)
  · exact le_rfl

/-- The walk ends between two cells that are linked. -/
theorem neighbours (h : Valid list n (A ++ B) F) (hX : n :: A = X ++ [pred])
    (hY : B ++ [n + 1] = curr :: Y) : Neighbours list pred curr := by
  have hlist : n :: (A ++ B ++ [n + 1]) = X ++ pred :: curr :: Y := neighbours_eq hX hY []
  have hl : Path list.next_idx EOL n (X ++ pred :: curr :: Y) := hlist ▸ h.linked
  have hp : pred ∈ n :: (A ++ B ++ [n + 1]) := by
    rw [hlist]
    simp
  have hc : curr ∈ n :: (A ++ B ++ [n + 1]) := by
    rw [hlist]
    simp
  have hcap := h.capacity
  have hpl := h.le_of_linked hp
  have hcl := h.le_of_linked hc
  refine ⟨by omega, by omega, ?_, h.idx pred hpl, h.idx curr hcl, h.mark pred hp, h.mark curr hc,
    hl.next⟩
  have hnd := hl.drop.nodup
  exact fun he => (List.nodup_cons.mp hnd).1 (he ▸ List.mem_cons_self)

/-- The search ends where the range belongs. -/
theorem find_pred (h : Valid list n (A ++ B) F) (hX : n :: A = X ++ [pred])
    (hY : B ++ [n + 1] = curr :: Y) (hmin : INT32_MIN < range.left)
    (hle : range.left ≤ range.right) (hmax : range.right < INT32_MAX)
    (hA : ∀ a ∈ A, list.right a < range.left) (hB : ∀ b ∈ B, range.right < list.left b) {fuel : ℕ}
    (hf : A.length + 1 < fuel) :
    exec (lazylist_find_pred fuel range) list = .ok (some (pred, curr)) list := by
  have hnb := h.neighbours hX hY
  have hlist : (n :: A) ++ curr :: Y = n :: (A ++ B ++ [n + 1]) := by
    rw [← hY]
    simp
  -- `curr` is the first node behind the range, or the right sentinel
  have hcurr : range.right < list.left curr ∧ range.left ≤ list.right curr := by
    have hc : curr ∈ B ++ [n + 1] := hY ▸ List.mem_cons_self
    rcases List.mem_append.mp hc with hc | hc
    · have h1 := hB curr hc
      have h2 := h.spaced.nonempty curr (List.mem_append_right A hc)
      omega
    · rw [List.mem_singleton.mp hc, h.sentinel_right.1, h.sentinel_right.2]
      omega
  -- all nodes of the list are nodes of the array
  have hlt : ∀ i ∈ (n :: A) ++ curr :: Y, i < NUM_SEGMENTS + 2 := by
    intro i hi
    have := h.le_of_linked (hlist ▸ hi)
    have := h.capacity
    omega
  have hright : ∀ i ∈ n :: A, list.right i < range.left := by
    refine List.forall_mem_cons.mpr ⟨?_, hA⟩
    rw [h.sentinel_left.2]
    exact hmin
  have hpath : Path list.next_idx EOL n ((n :: A) ++ curr :: Y) := hlist ▸ h.linked
  -- the loop stops at the last node that ends before the range, which is `pred`
  have hloop := exec_find_pred_loop hpath hlt hright hcurr.2 n fuel hf
  rw [hX, List.getLastD_concat, if_neg (not_le.mpr hcurr.1)] at hloop
  simp [lazylist_find_pred, sem, h.head, hloop]

/-- The whole call, up to what it does between its two nodes. -/
theorem exec_insert (h : Valid list n (A ++ B) F) (hX : n :: A = X ++ [pred])
    (hY : B ++ [n + 1] = curr :: Y) (hmin : INT32_MIN < range.left)
    (hle : range.left ≤ range.right) (hmax : range.right < INT32_MAX)
    (hA : ∀ a ∈ A, list.right a < range.left) (hB : ∀ b ∈ B, range.right < list.left b) {fuel : ℕ}
    (hf : A.length + 1 < fuel) :
    exec (lazylist_insert fuel range) list =
      (exec (lazylist_insert_between pred curr range) (locked list pred curr)).bind
        fun r list => exec (lazylist_insert_end r.1 r.2) (unlocked list pred curr) := by
  obtain ⟨turns, rfl⟩ := Nat.exists_eq_succ_of_ne_zero (Nat.ne_of_gt (Nat.zero_lt_of_lt hf))
  have hnb := h.neighbours hX hY
  have hlist : n :: (A ++ B ++ [n + 1]) = X ++ pred :: curr :: Y := neighbours_eq hX hY []
  refine exec_insert_turn (h.find_pred hX hY hmin hle hmax hA hB hf) hnb
    (h.lock pred (h.le_of_linked ?_)) (h.lock curr (h.le_of_linked ?_)) <;>
  · rw [hlist]
    simp

end Valid

end Search

/-! ## Insertion -/

/-- The integers that the nodes `L` stand for. -/
def contents (list : lazylist_t) (L : List ℕ) : Set ℤ := covers list.left list.right L

/-- A valid range that shares nothing with `S`. -/
structure Fits (range : lazylist_range_t) (S : Set ℤ) : Prop where
  min : INT32_MIN < range.left
  le : range.left ≤ range.right
  max : range.right < INT32_MAX
  disjoint : Disjoint S (Set.Icc range.left range.right)

/-- The range touches nothing of `S`. -/
def Apart (range : lazylist_range_t) (S : Set ℤ) : Prop :=
  range.left - 1 ∉ S ∧ range.right + 1 ∉ S

/-- The insertion returns and adds the range to what the list stands for. -/
def Inserts (list : lazylist_t) (range : lazylist_range_t) (n : ℕ) (L : List ℕ) : Prop :=
  ∃ list' L' F', Returns (lazylist_insert · range) list 0 list' ∧ Valid list' n L' F' ∧
    contents list' L' = contents list L ∪ Set.Icc range.left range.right

section Insertion

variable {X Y : List ℕ} {pred curr : ℕ} {S : Set ℤ}

/-- The part before has a last cell: the head sentinel, if nothing else. -/
theorem exists_concat (n : ℕ) (A : List ℕ) : ∃ X pred, n :: A = X ++ [pred] :=
  ⟨_, _, (List.dropLast_append_getLast (List.cons_ne_nil n A)).symm⟩

theorem exists_cons (n : ℕ) (B : List ℕ) : ∃ curr Y, B ++ [n] = curr :: Y :=
  List.exists_cons_of_ne_nil (List.append_ne_nil_of_right_ne_nil B (List.cons_ne_nil n []))

namespace Valid

/-- What the call leaves, from what it leaves between its two nodes. -/
theorem returns_insert (h : Valid list n (A ++ B) F) (hr : Fits range S)
    (hX : n :: A = X ++ [pred]) (hY : B ++ [n + 1] = curr :: Y)
    (hA : ∀ a ∈ A, list.right a < range.left) (hB : ∀ b ∈ B, range.right < list.left b)
    {list₁ list' : lazylist_t} {to_delete : Option ℕ}
    (hb : exec (lazylist_insert_between pred curr range) (locked list pred curr) =
      .ok (0, to_delete) list₁)
    (hlock : ∀ i, i ≠ pred → i ≠ curr → list₁.lock i = list.lock i)
    (he : exec (lazylist_insert_end 0 to_delete) { list₁ with lock := list.lock } = .ok 0 list') :
    Returns (lazylist_insert · range) list 0 list' := by
  have hlist : n :: (A ++ B ++ [n + 1]) = X ++ pred :: curr :: Y := neighbours_eq hX hY []
  have hp : list.lock pred = 0 := h.lock pred (h.le_of_linked (by rw [hlist]; simp))
  have hc : list.lock curr = 0 := h.lock curr (h.le_of_linked (by rw [hlist]; simp))
  refine ⟨A.length + 2, fun fuel hf => ?_⟩
  have hx : exec (lazylist_insert fuel range) list = _ :=
    h.exec_insert hX hY hr.min hr.le hr.max hA hB (by omega)
  simpa only [hx, hb, Outcome.ok_bind, unlocked_eq hp hc hlock] using he

/-- The first node cannot be extended to the left sentinel. -/
theorem not_connects_left (h : Valid list n (A ++ B) F) (hX : n :: A = X ++ [pred])
    (hA : ∀ a ∈ A, list.right a + 1 < range.left) :
    ¬(list.right pred + 1 = range.left ∧ INT32_MIN < list.left pred) := by
  have hp : pred ∈ n :: A := hX ▸ List.mem_append_right X List.mem_cons_self
  rcases List.mem_cons.mp hp with rfl | hp
  · rw [h.sentinel_left.1]
    omega
  · have := hA pred hp
    omega

/-- The next range does not begin where the new one ends. -/
theorem not_connects_right (h : Valid list n (A ++ B) F) (hY : B ++ [n + 1] = curr :: Y)
    (hB : ∀ b ∈ B, range.right + 1 < list.left b) :
    ¬(range.right + 1 = list.left curr ∧ list.left curr < INT32_MAX) := by
  have hc : curr ∈ B ++ [n + 1] := hY ▸ List.mem_cons_self
  rcases List.mem_append.mp hc with hc | hc
  · have := hB curr hc
    omega
  · rw [List.mem_singleton.mp hc, h.sentinel_right.1]
    omega

/-- The new range closes the gap between two ranges: one cell is freed. -/
theorem insert_joined (h : Valid list n (A ++ p :: c :: B) F) (hr : Fits range S)
    (hl : list.right p + 1 = range.left) (hc : range.right + 1 = list.left c) :
    Inserts list range n (A ++ p :: c :: B) := by
  have h' : Valid list n ((A ++ [p]) ++ c :: B) F := by simpa using h
  have hnb := h'.neighbours (X := n :: A) (Y := B ++ [n + 1]) rfl rfl
  have hbp := h.bounds p (by simp)
  have hbc := h.bounds c (by simp)
  obtain ⟨-, hpc, hAp⟩ := Spaced.append_iff.mp h.spaced
  obtain ⟨hpp, hcB, -⟩ := Spaced.cons_iff.mp hpc
  obtain ⟨hcc, -, hcb⟩ := Spaced.cons_iff.mp hcB
  -- the insertion widens `p` up to the end of `c` and takes `c` out
  refine ⟨_, _, _, h'.returns_insert hr (X := n :: A) (Y := B ++ [n + 1]) rfl rfl ?_ ?_
    (exec_insert_joined hnb.pred_lt' hnb.curr_lt hnb.idx_curr ⟨hl, hbp.1⟩ ⟨hc, ?_⟩)
    (fun i => locked_lock) ?_, h.joined, ?_⟩
  · exact h.spaced.hi_lt zero_le_one (by omega)
  · exact h'.spaced.lt_lo zero_le_one (by omega)
  · exact hcc.trans_lt hbc.2
  · -- `c` goes back to the free list
    have hput : exec (lazylist_put_free_node c) (Lazylist.joined list p c) =
        .ok () (freed (Lazylist.joined list p c) c) :=
      exec_put_free_node h.free_lock hnb.curr_lt' hnb.idx_curr
    change exec (lazylist_insert_end 0 (some c)) (Lazylist.joined list p c) = _
    rw [lazylist_insert_end, exec_bind, hput]
    rfl
  · -- what `p` covers now: its own range, the new one and that of `c`
    have hpB : p ∉ B := fun hm => h.place.2.2.1 (List.mem_cons_of_mem c hm)
    have hr' : OnlyRange list (freed (Lazylist.joined list p c) c) p :=
      fun i hi => ⟨rfl, Function.update_of_ne hi _ _⟩
    have hright : (freed (Lazylist.joined list p c) c).right p = list.right c :=
      Function.update_self _ _ _
    have hleft : (freed (Lazylist.joined list p c) c).left p = list.left p := rfl
    rw [contents, contents, hr'.covers h.place.2.1 hpB, covers_put, covers_put, hright, hleft,
      Set.union_right_comm, ← Icc_join hpp hl (show range.left ≤ list.right c by have := hr.le; omega),
      ← Icc_join hr.le hc hcc]
    ac_rfl

theorem insert_grown_right (h : Valid list n (A ++ p :: B) F) (hr : Fits range S)
    (hl : list.right p + 1 = range.left) (hB : ∀ b ∈ B, range.right + 1 < list.left b) :
    Inserts list range n (A ++ p :: B) := by
  have h' : Valid list n ((A ++ [p]) ++ B) F := by simpa using h
  obtain ⟨curr, Y, hY⟩ := exists_cons (n + 1) B
  have hnb := h'.neighbours (X := n :: A) rfl hY
  have hbp := h.bounds p (by simp)
  -- the node behind the range does not touch it
  obtain ⟨-, hpB, hAp⟩ := Spaced.append_iff.mp h.spaced
  have hpp := (Spaced.cons_iff.mp hpB).1
  have hcurr := h'.not_connects_right hY hB
  -- the insertion widens `p`, nothing else
  refine ⟨Lazylist.grown_right list range p, _, _,
    h'.returns_insert hr (X := n :: A) rfl hY ?_ ?_
      (exec_insert_grown_right hnb.pred_lt' hnb.curr_lt' ⟨hl, hbp.1⟩ hcurr) (fun i => locked_lock) rfl,
      h.grown_right hr.le hr.max hl hB, ?_⟩
  · exact h.spaced.hi_lt zero_le_one (by omega)
  · intro b hb
    have := hB b hb
    omega
  · -- `p` now covers its own range and the new one
    have hr' : OnlyRange list (Lazylist.grown_right list range p) p :=
      fun i hi => ⟨rfl, Function.update_of_ne hi _ _⟩
    have hright : (Lazylist.grown_right list range p).right p = range.right :=
      Function.update_self _ _ _
    have hleft : (Lazylist.grown_right list range p).left p = list.left p := rfl
    rw [contents, contents, hr'.covers h.place.2.1 h.place.2.2.1, covers_put, hright, hleft,
      Set.union_assoc, Icc_join hpp hl hr.le]

theorem insert_grown_left (h : Valid list n (A ++ c :: B) F) (hr : Fits range S)
    (hc : range.right + 1 = list.left c) (hA : ∀ a ∈ A, list.right a + 1 < range.left) :
    Inserts list range n (A ++ c :: B) := by
  obtain ⟨X, pred, hX⟩ := exists_concat n A
  have hnb := h.neighbours (Y := B ++ [n + 1]) hX rfl
  have hbc := h.bounds c (by simp)
  obtain ⟨-, hcB, -⟩ := Spaced.append_iff.mp h.spaced
  obtain ⟨hcc, -, hcb⟩ := Spaced.cons_iff.mp hcB
  -- the node before the range does not touch it
  have hpred := h.not_connects_left hX hA
  -- the insertion widens `c`, nothing else
  refine ⟨Lazylist.grown_left list range c, _, _,
    h.returns_insert hr (Y := B ++ [n + 1]) hX rfl ?_ ?_
      (exec_insert_grown_left hnb.pred_lt' hnb.curr_lt' hpred ⟨hc, hcc.trans_lt hbc.2⟩) (fun i => locked_lock) rfl,
      h.grown_left hr.le hr.min hc hA, ?_⟩
  · intro a ha
    have := hA a ha
    omega
  · exact h.spaced.lt_lo zero_le_one (by omega)
  · -- `c` now covers the new range and its own
    have hr' : OnlyRange list (Lazylist.grown_left list range c) c :=
      fun i hi => ⟨Function.update_of_ne hi _ _, rfl⟩
    have hleft : (Lazylist.grown_left list range c).left c = range.left :=
      Function.update_self _ _ _
    have hright : (Lazylist.grown_left list range c).right c = list.right c := rfl
    rw [contents, contents, hr'.covers h.place.2.1 h.place.2.2.1, covers_put, hright, hleft,
      ← Icc_join hr.le hc hcc, Set.union_assoc, Set.union_comm (Set.Icc range.left _)]

/-- It touches no range, and gets a cell of its own. -/
theorem returns_added {m : ℕ} (h : Valid list n (A ++ B) (m :: F)) (hr : Fits range S)
    (hX : n :: A = X ++ [pred]) (hY : B ++ [n + 1] = curr :: Y)
    (hA : ∀ a ∈ A, list.right a + 1 < range.left) (hB : ∀ b ∈ B, range.right + 1 < list.left b) :
    Returns (lazylist_insert · range) list 0 (Lazylist.added list range pred curr) := by
  have hnb := h.neighbours hX hY
  have hfree : list.free_head_idx = m := h.free.1
  have hm := h.place_free.1
  have hcap := h.capacity
  -- between the locks and the unlocks: neither neighbour touches the range, so a node is taken
  -- from the free list
  have hadded : exec (lazylist_insert_between pred curr range) (locked list pred curr) =
      .ok (0, none) (Lazylist.added (locked list pred curr) range pred curr) := by
    refine exec_insert_added hnb.pred_lt' hnb.curr_lt' hnb.idx_curr (h.not_connects_left hX hA)
      (h.not_connects_right hY hB) h.free_lock ?_ ?_
    · change list.free_head_idx < NUM_SEGMENTS
      omega
    · change list.idx list.free_head_idx = list.free_head_idx
      rw [hfree]
      exact h.idx m (by omega)
  refine h.returns_insert hr hX hY (fun a ha => ?_) (fun b hb => ?_) hadded ?_ ?_
  · have := hA a ha
    omega
  · have := hB b hb
    omega
  · -- a lock that is not one of the two is as before; that of the new node was 0
    intro i hip hic
    by_cases him : i = m
    · simp [Lazylist.added, locked, hfree, him, h.lock m (by omega)]
    · simpa [Lazylist.added, locked, hfree, him] using
        (locked_lock hip hic : (locked list pred curr).lock i = list.lock i)
  · have hlock : update list.lock m 0 = list.lock := by
      rw [Function.update_eq_self_iff, h.lock m (by omega)]
    simp [lazylist_insert_end, Lazylist.added, locked, hfree, hlock]

/-- So the list represents one more range. -/
theorem insert_added {m : ℕ} (h : Valid list n (A ++ B) (m :: F)) (hr : Fits range S)
    (hA : ∀ a ∈ A, list.right a + 1 < range.left) (hB : ∀ b ∈ B, range.right + 1 < list.left b) :
    Inserts list range n (A ++ B) := by
  obtain ⟨X, pred, hX⟩ := exists_concat n A
  obtain ⟨curr, Y, hY⟩ := exists_cons (n + 1) B
  have hfree : list.free_head_idx = m := h.free.1
  obtain ⟨-, hmL, -⟩ := h.place_free
  simp only [List.mem_append, not_or] at hmL
  have hr' : OnlyRange list (Lazylist.added list range pred curr) m := by
    intro i hi
    simp [Lazylist.added, hfree, hi]
  have hleft : (Lazylist.added list range pred curr).left m = range.left := by
    simp [Lazylist.added, hfree]
  have hright : (Lazylist.added list range pred curr).right m = range.right := by
    simp [Lazylist.added, hfree]
  refine ⟨_, _, _, h.returns_added hr hX hY hA hB, h.added hr.le hr.min hr.max hX hY hA hB, ?_⟩
  rw [contents, contents, hr'.covers hmL.1 hmL.2, hleft, hright]

/-- Between nodes that it does not touch, the range touches nothing. -/
theorem apart (h : Valid list n (A ++ B) F) (hle : range.left ≤ range.right)
    (hA : ∀ a ∈ A, list.right a + 1 < range.left) (hB : ∀ b ∈ B, range.right + 1 < list.left b) :
    Apart range (contents list (A ++ B)) := by
  constructor <;>
  · rintro ⟨c, hc, hlc, hhc⟩
    rcases List.mem_append.mp hc with hc | hc
    · have := hA c hc
      omega
    · have := hB c hc
      have := h.spaced.nonempty c (List.mem_append_right A hc)
      omega

/-- **Insertion.** A range that fits is added, when there is a free node or none is
needed. -/
theorem insert (h : Valid list n L F) (hr : Fits range (contents list L))
    (hroom : F ≠ [] ∨ ¬Apart range (contents list L)) : Inserts list range n L := by
  -- the nodes before the range and those behind it
  obtain ⟨A, B, rfl, hA, hB⟩ := h.spaced.split zero_le_one hr.le hr.disjoint
  obtain ⟨hsA, hsB, -⟩ := Spaced.append_iff.mp h.spaced
  -- which of the two neighbours the range touches: both, the left, the right, or none
  by_cases hl : ∃ p ∈ A, list.right p + 1 = range.left <;>
    by_cases hc : ∃ c ∈ B, range.right + 1 = list.left c
  · -- joined
    obtain ⟨p, hp, hl⟩ := hl
    obtain ⟨c, hc, hcl⟩ := hc
    obtain ⟨A, rfl⟩ := hsA.eq_concat hA hp hl
    obtain ⟨B, rfl⟩ := hsB.eq_cons hB hc hcl
    rw [List.append_assoc] at h ⊢
    exact h.insert_joined hr hl hcl
  · -- grown to the right
    obtain ⟨p, hp, hl⟩ := hl
    obtain ⟨A, rfl⟩ := hsA.eq_concat hA hp hl
    rw [List.append_assoc] at h ⊢
    exact h.insert_grown_right hr hl fun b hb => lt_of_le_of_ne (hB b hb) fun he => hc ⟨b, hb, he⟩
  · -- grown to the left
    obtain ⟨c, hc, hcl⟩ := hc
    obtain ⟨B, rfl⟩ := hsB.eq_cons hB hc hcl
    exact h.insert_grown_left hr hcl fun a ha => lt_of_le_of_ne (hA a ha) fun he => hl ⟨a, ha, he⟩
  · -- a node of its own, for which there must be a free one
    have hA' : ∀ a ∈ A, list.right a + 1 < range.left :=
      fun a ha => lt_of_le_of_ne (hA a ha) fun he => hl ⟨a, ha, he⟩
    have hB' : ∀ b ∈ B, range.right + 1 < list.left b :=
      fun b hb => lt_of_le_of_ne (hB b hb) fun he => hc ⟨b, hb, he⟩
    have hF : F ≠ [] := hroom.resolve_right (not_not_intro (h.apart hr.le hA' hB'))
    obtain ⟨m, F, rfl⟩ := List.exists_cons_of_ne_nil hF
    exact h.insert_added hr hA' hB'

end Valid

end Insertion

/-! ## Exhaustion -/

namespace Valid

/-- A call that needs a node when there is none. -/
theorem exhausted (h : Valid list n L []) (hr : Fits range (contents list L))
    (ha : Apart range (contents list L)) :
    ∃ turns, ∀ fuel, turns ≤ fuel → exec (lazylist_insert fuel range) list = .undefined := by
  obtain ⟨A, B, rfl, hA, hB⟩ := h.spaced.split zero_le_one hr.le hr.disjoint
  have hA' : ∀ a ∈ A, list.right a + 1 < range.left := by
    refine fun a haA => lt_of_le_of_ne (hA a haA) fun he => ha.1 ?_
    have := h.spaced.nonempty a (List.mem_append_left B haA)
    exact mem_covers (List.mem_append_left B haA) (by omega) (by omega)
  have hB' : ∀ b ∈ B, range.right + 1 < list.left b := by
    refine fun b hbB => lt_of_le_of_ne (hB b hbB) fun he => ha.2 ?_
    have := h.spaced.nonempty b (List.mem_append_right A hbB)
    exact mem_covers (List.mem_append_right A hbB) (by omega) (by omega)
  obtain ⟨X, pred, hX⟩ := exists_concat n A
  obtain ⟨curr, Y, hY⟩ := exists_cons (n + 1) B
  have hnb := h.neighbours hX hY
  refine ⟨A.length + 2, fun fuel hf => ?_⟩
  have hb : exec (lazylist_insert_between pred curr range) (locked list pred curr) = .undefined :=
    exec_insert_exhausted hnb.pred_lt' hnb.curr_lt' (h.not_connects_left hX hA')
      (h.not_connects_right hY hB') h.free_lock h.free
  rw [h.exec_insert hX hY hr.min hr.le hr.max hA hB (by omega), hb, Outcome.undefined_bind]

/-! ## Removal -/

variable {range_left : ℤ}

/-- Nothing is taken from an empty list. -/
theorem pop_front_empty (h : Valid list n [] F) :
    Returns (lazylist_pop_front · range_left) list none list := by
  refine ⟨1, fun fuel hf => ?_⟩
  obtain ⟨turns, rfl⟩ := Nat.exists_eq_succ_of_ne_zero (Nat.one_le_iff_ne_zero.mp hf)
  have hn : list.next_idx n = n + 1 := Path.next (l := []) h.linked
  have hcap := h.capacity
  have hlt : n < NUM_SEGMENTS + 2 := by omega
  have hlt' : n + 1 < NUM_SEGMENTS + 2 := by omega
  have hne : n ≠ EOL := h.ne_EOL (by omega)
  simp [lazylist_pop_front, lazylist_pop_front_loop, sem, h.head, hn, hlt, hlt', hne,
    h.sentinel_right.1]

/-- Nor when the first range begins elsewhere. -/
theorem pop_front_elsewhere (h : Valid list n (c :: B) F) (ha : any_start range_left = false)
    (hs : list.left c ≠ range_left) :
    Returns (lazylist_pop_front · range_left) list none list := by
  refine ⟨1, fun fuel hf => ?_⟩
  obtain ⟨turns, rfl⟩ := Nat.exists_eq_succ_of_ne_zero (Nat.one_le_iff_ne_zero.mp hf)
  have hn : list.next_idx n = c := Path.next (l := []) h.linked
  have hcap := h.capacity
  have hlt : n < NUM_SEGMENTS + 2 := by omega
  have hc := (h.place (A := [])).1
  have hlt' : c < NUM_SEGMENTS + 2 := by omega
  have hne : n ≠ EOL := h.ne_EOL (by omega)
  have hmax : list.left c ≠ INT32_MAX := by
    have := h.spaced.nonempty c (by simp)
    have := (h.bounds c (by simp)).2
    omega
  simp [lazylist_pop_front, lazylist_pop_front_loop, starts_elsewhere, sem, h.head, hn, hlt, hlt',
    hne, hmax, ha, hs]

/-- **Removal.** The front is given to the caller and taken out of the list. -/
theorem pop_front (h : Valid list n (c :: B) F)
    (hs : any_start range_left = true ∨ list.left c = range_left) :
    ∃ list', Returns (lazylist_pop_front · range_left) list
        (some ⟨list.left c, list.right c⟩) list' ∧
      Valid list' n B (c :: F) ∧ contents list' B = contents list B := by
  -- the front is `c`; behind it is another node or the right sentinel
  obtain ⟨front_next, Y, hY⟩ := exists_cons (n + 1) B
  have hnb : Neighbours list c front_next :=
    Valid.neighbours (A := [c]) (X := [n]) h rfl hY
  have hn : list.next_idx n = c := Path.next (l := []) h.linked
  have hcap := h.capacity
  have hc := (h.place (A := [])).1
  have hfn : front_next ≤ n + 1 := by
    refine h.le_of_linked (i := front_next) ?_
    rw [List.cons_append, hY]
    simp
  have hlc : list.lock c = 0 := h.lock c (by omega)
  have hlf : list.lock front_next = 0 := h.lock front_next hfn
  have hmax : list.left c ≠ INT32_MAX := by
    have := h.spaced.nonempty c (by simp)
    have := (h.bounds c (by simp)).2
    omega
  have hn' : list.head_idx < NUM_SEGMENTS + 2 := by
    rw [h.head]
    omega
  -- one turn of the loop is enough, since nothing else runs
  refine ⟨_, ⟨1, fun fuel hf => ?_⟩, h.removed hnb.next, rfl⟩
  obtain ⟨turns, rfl⟩ := Nat.exists_eq_succ_of_ne_zero (Nat.one_le_iff_ne_zero.mp hf)
  have hturn : exec (lazylist_pop_front_loop range_left (turns + 1)) list = _ :=
    exec_pop_front_turn hn' (by rw [h.head, hn]) hnb hlc hlf hmax hs
  have hput : exec (lazylist_put_free_node c) (Lazylist.removed list n c front_next) =
      .ok () (freed (Lazylist.removed list n c front_next) c) :=
    exec_put_free_node h.free_lock hnb.pred_lt' hnb.idx_pred
  have hun : unlocked (Lazylist.removed (locked list c front_next) n c front_next) c front_next =
      Lazylist.removed list n c front_next :=
    unlocked_eq hlc hlf fun i => locked_lock
  rw [exec_remove_front hn' hnb.locked, Outcome.ok_bind, h.head, hun] at hturn
  exact hturn.trans (congrArg (Outcome.bind · _) hput)

end Valid

/-! ## The initial list -/

/-- The loop of the initialisation numbers the nodes. -/
theorem init_nodes (list : lazylist_t) (k : ℕ) :
    (List.range k).foldl init_node list =
      { list with
        idx := fun i => if i < k then i else list.idx i
        next_idx := fun i => if i < k then i + 1 else list.next_idx i
        marks := fun i => if i < k then 0 else list.marks i
        lock := fun i => if i < k then 0 else list.lock i } := by
  induction k with
  | zero => simp
  | succ k ih =>
      rw [List.range_succ, List.foldl_append, ih]
      simp only [List.foldl_cons, List.foldl_nil, init_node, lazylist_t.mk.injEq, true_and]
      refine ⟨?_, ?_, ?_, ?_⟩ <;>
      · funext i
        by_cases hi : i = k
        · simp [hi]
        · have : i < k + 1 ↔ i < k := by omega
          simp [hi, this]

/-- The nodes of the free list are linked in the order of their indices. -/
theorem path_range {next_idx : ℕ → ℕ} {m : ℕ} (hl : next_idx m = EOL) :
    ∀ j k, k + j = m → m < EOL → (∀ i, k ≤ i → i < m → next_idx i = i + 1) →
      Path next_idx EOL k (List.range' k (j + 1)) := by
  intro j
  induction j with
  | zero =>
      rintro k rfl hm -
      exact ⟨rfl, hm.ne, hl⟩
  | succ j ih =>
      intro k hk hm hn
      refine ⟨rfl, by omega, ?_⟩
      rw [hn k le_rfl (by omega)]
      exact ih (k + 1) (by omega) hm fun i hi hi' => hn i (by omega) hi'

/-- The marks do not matter to the rest of the list. -/
theorem init_marks (marks : ℕ → ℕ) (capacity : ℕ) :
    lazylist_init { list with marks := marks } capacity =
      { lazylist_init list capacity with
        marks := (lazylist_init { list with marks := marks } capacity).marks } := by
  simp [lazylist_init, init_nodes, init_sentinel]

theorem Valid.init {capacity : ℕ} (hc : 3 ≤ capacity) (hc' : capacity ≤ NUM_SEGMENTS)
    (hm : list.marks (capacity - 2) = 0) (hm' : list.marks (capacity - 1) = 0) :
    Valid (lazylist_init list capacity) (capacity - 2) [] (List.range (capacity - 2)) := by
  obtain ⟨m, rfl⟩ : ∃ m, capacity = m + 3 := ⟨capacity - 3, by omega⟩
  have hcap : m + 3 ≤ 128 := hc'
  have hE : m + 2 < EOL := lt_of_le_of_lt (show m + 2 ≤ 128 by omega) (by decide)
  have hn : m + 3 - 2 = m + 1 := rfl
  have hn' : m + 3 - 1 = m + 2 := rfl
  rw [hn] at hm ⊢
  rw [hn'] at hm'
  refine
    { capacity := hc', head := rfl, linked := ?_, free := ?_, perm := List.Perm.refl _, idx := ?_,
      lock := ?_, free_lock := rfl, mark := ?_, sentinel_left := ?_, sentinel_right := ?_,
      bounds := nofun, spaced := ⟨nofun, List.Pairwise.nil⟩ }
  · -- the list is the two sentinels
    refine ⟨rfl, by omega, ?_, by omega, ?_⟩ <;> simp [lazylist_init, init_sentinel]
    rfl
  · -- the free list is the other nodes, in their order
    rw [List.range_eq_range']
    refine path_range (m := m) ?_ m 0 (by omega) (by omega) fun i _ hi => ?_
    · have h2 : m ≠ m + 1 + 1 := by omega
      simp [lazylist_init, init_sentinel, h2]
    · have h1 : i ≠ m + 1 + 1 := by omega
      have h2 : i ≠ m + 1 := by omega
      have h3 : i ≠ m := by omega
      have h4 : i < m + 1 := by omega
      simp only [lazylist_init, Nat.reduceSubDiff, init_sentinel, init_nodes, add_tsub_cancel_right,
        ne_eq, h1, not_false_eq_true, Function.update_of_ne, h2, h3, h4, ↓reduceIte]
  · -- every node has its own index
    intro i hi
    rcases (show i < m + 1 ∨ i = m + 1 ∨ i = m + 1 + 1 by omega) with h | rfl | rfl
    · simp only [lazylist_init, Nat.reduceSubDiff, init_sentinel, init_nodes, add_tsub_cancel_right,
        ne_eq, (Nat.lt_succ_of_lt h).ne, not_false_eq_true, Function.update_of_ne, h.ne, h,
        ↓reduceIte]
    · simp [lazylist_init, init_sentinel]
    · simp [lazylist_init, init_sentinel]
  · -- no node is locked
    intro i hi
    rcases (show i < m + 1 ∨ i = m + 1 ∨ i = m + 1 + 1 by omega) with h | rfl | rfl
    · simp only [lazylist_init, Nat.reduceSubDiff, init_sentinel, init_nodes, add_tsub_cancel_right,
        ne_eq, (Nat.lt_succ_of_lt h).ne, not_false_eq_true, Function.update_of_ne, h.ne, h,
        ↓reduceIte]
    · simp [lazylist_init, init_sentinel]
    · simp [lazylist_init, init_sentinel]
  · -- no node of the list is marked
    intro i hi
    simp only [List.nil_append, List.mem_cons, List.not_mem_nil, or_false] at hi
    rcases hi with rfl | rfl
    · simp [lazylist_init, init_nodes, init_sentinel, hm]
    · simp [lazylist_init, init_nodes, init_sentinel, hm']
  · simp [lazylist_init, init_sentinel]
  · simp [lazylist_init, init_sentinel]

/-! ## Runs -/

/-- The integers of a range that was popped. -/
def popped_values : Option lazylist_range_t → Set ℤ
  | none => ∅
  | some range => Set.Icc range.left range.right

/-- The runs from `lazylist_init`, one call after another, that never run out of nodes. A
list comes with the integers that were inserted and not yet popped. -/
inductive Reach (capacity : ℕ) : lazylist_t → Set ℤ → Prop
  | init {list : lazylist_t} (hc : 3 ≤ capacity) (hc' : capacity ≤ NUM_SEGMENTS)
      (hm : list.marks (capacity - 2) = 0) (hm' : list.marks (capacity - 1) = 0) :
      Reach capacity (lazylist_init list capacity) ∅
  | insert {list list' : lazylist_t} {S : Set ℤ} {range : lazylist_range_t} {error : ℕ}
      (h : Reach capacity list S) (hr : Fits range S)
      (hroom : list.free_head_idx ≠ EOL ∨ ¬Apart range S)
      (hc : Returns (lazylist_insert · range) list error list') :
      Reach capacity list' (S ∪ Set.Icc range.left range.right)
  | pop_front {list list' : lazylist_t} {S : Set ℤ} {range_left : ℤ}
      {popped : Option lazylist_range_t} (h : Reach capacity list S)
      (hc : Returns (lazylist_pop_front · range_left) list popped list') :
      Reach capacity list' (S \ popped_values popped)

theorem Returns.unique {α : Type} {call : ℕ → Code α} {a a' : α} {list₁ list₂ : lazylist_t}
    (h : Returns call list a list₁) (h' : Returns call list a' list₂) : a = a' ∧ list₁ = list₂ := by
  obtain ⟨t, h⟩ := h
  obtain ⟨t', h'⟩ := h'
  have := (h (max t t') (le_max_left t t')).symm.trans (h' (max t t') (le_max_right t t'))
  simpa using this

namespace Valid

/-- The head of the free list says whether there is a free node. -/
theorem free_ne_nil (h : Valid list n L F) (hf : list.free_head_idx ≠ EOL) : F ≠ [] := by
  rintro rfl
  exact hf h.free

/-- What `lazylist_pop_front` returns, and that it keeps a valid list. -/
theorem pop_front_cases (h : Valid list n L F) (range_left : ℤ) :
    ∃ popped list' L' F', Returns (lazylist_pop_front · range_left) list popped list' ∧
      Valid list' n L' F' ∧ contents list' L' = contents list L \ popped_values popped := by
  cases L with
  | nil => exact ⟨_, _, _, _, h.pop_front_empty, h, by simp [popped_values]⟩
  | cons c B =>
      by_cases hs : any_start range_left = true ∨ list.left c = range_left
      · obtain ⟨list', hret, hv, hcont⟩ := h.pop_front hs
        exact ⟨_, _, _, _, hret, hv, hcont.trans (Spaced.covers_remove (X := []) zero_le_one h.spaced)⟩
      · rw [not_or, Bool.not_eq_true] at hs
        exact ⟨_, _, _, _, h.pop_front_elsewhere hs.1 hs.2, h, by simp [popped_values]⟩

end Valid

/-- Every list that a run reaches is valid and stands for what was inserted and not yet
popped. -/
theorem Reach.valid {capacity : ℕ} {S : Set ℤ} (h : Reach capacity list S) :
    ∃ L F, Valid list (capacity - 2) L F ∧ contents list L = S := by
  induction h with
  | init hc hc' hm hm' => exact ⟨_, _, Valid.init hc hc' hm hm', covers_nil⟩
  | insert _ hr hroom hc ih =>
      obtain ⟨L, F, hv, rfl⟩ := ih
      obtain ⟨list₂, L', F', hret, hv', hcont⟩ := hv.insert hr (hroom.imp_left hv.free_ne_nil)
      obtain ⟨-, rfl⟩ := hret.unique hc
      exact ⟨L', F', hv', hcont⟩
  | pop_front _ hc ih =>
      obtain ⟨L, F, hv, rfl⟩ := ih
      obtain ⟨popped, list₂, L', F', hret, hv', hcont⟩ := hv.pop_front_cases _
      obtain ⟨rfl, rfl⟩ := hret.unique hc
      exact ⟨L', F', hv', hcont⟩

/-- The list stands for `S`: its nodes are linked from the left sentinel to the right one,
in order and with gaps between their ranges, and the other nodes are the free list. -/
def Represents (list : lazylist_t) (capacity : ℕ) (S : Set ℤ) : Prop :=
  ∃ L F, Path list.next_idx EOL list.head_idx ((capacity - 2) :: (L ++ [capacity - 1])) ∧
    Path list.next_idx EOL list.free_head_idx F ∧ (L ++ F).Perm (List.range (capacity - 2)) ∧
    Spaced 1 list.left list.right L ∧ contents list L = S

/-- A list has room for the sentinels and one range. -/
theorem Reach.capacity {capacity : ℕ} {S : Set ℤ} (h : Reach capacity list S) : 3 ≤ capacity := by
  induction h with
  | init hc => exact hc
  | insert _ _ _ _ ih => exact ih
  | pop_front _ _ ih => exact ih

/-- A list that is reached represents the values that were inserted and not removed. -/
theorem Reach.represents {capacity : ℕ} {S : Set ℤ} (h : Reach capacity list S) :
    Represents list capacity S := by
  obtain ⟨L, F, hv, hcont⟩ := h.valid
  have hcap := h.capacity
  refine ⟨L, F, ?_, hv.free, hv.perm, hv.spaced, hcont⟩
  rw [hv.head, show capacity - 1 = capacity - 2 + 1 by omega]
  exact hv.linked

/-- What a removal does on a list that stands for `S`: it gives the lowest range and takes
it out exactly when that range starts where the caller asks. -/
def Pops (list : lazylist_t) (capacity : ℕ) (S : Set ℤ) (range_left : ℤ) : Prop :=
  (S = ∅ ∧ Returns (lazylist_pop_front · range_left) list none list) ∨
  ∃ left right, Lowest left right S ∧
    (any_start range_left = true ∨ left = range_left →
      ∃ list', Returns (lazylist_pop_front · range_left) list (some ⟨left, right⟩) list' ∧
        Represents list' capacity (S \ Set.Icc left right)) ∧
    (¬(any_start range_left = true ∨ left = range_left) →
      Returns (lazylist_pop_front · range_left) list none list)

/-- And a removal takes its first range. -/
theorem Reach.pops {capacity : ℕ} {S : Set ℤ} (h : Reach capacity list S) (range_left : ℤ) :
    Pops list capacity S range_left := by
  obtain ⟨L, F, hv, rfl⟩ := h.valid
  cases L with
  | nil => exact Or.inl ⟨covers_nil, hv.pop_front_empty⟩
  | cons c B =>
      refine Or.inr ⟨_, _, hv.spaced.lowest, fun hs => ?_, fun hs => ?_⟩
      · obtain ⟨list', hret, -⟩ := hv.pop_front hs
        exact ⟨list', hret, (h.pop_front hret).represents⟩
      · rw [not_or, Bool.not_eq_true] at hs
        exact hv.pop_front_elsewhere hs.1 hs.2

/-- **Sequential use.** In every run the list stands for what was inserted and not yet
popped; an insertion with room adds its range, and a removal gives the lowest one. -/
theorem lazylist_represents {capacity : ℕ} {S : Set ℤ} (h : Reach capacity list S) :
    Represents list capacity S ∧
    (∀ range, Fits range S → list.free_head_idx ≠ EOL ∨ ¬Apart range S →
      ∃ list', Returns (lazylist_insert · range) list 0 list' ∧
        Represents list' capacity (S ∪ Set.Icc range.left range.right)) ∧
    ∀ range_left, Pops list capacity S range_left := by
  refine ⟨h.represents, fun range hr hroom => ?_, h.pops⟩
  obtain ⟨L, F, hv, rfl⟩ := h.valid
  obtain ⟨list', -, -, hret, -⟩ := hv.insert hr (hroom.imp_left hv.free_ne_nil)
  exact ⟨list', hret, (h.insert hr hroom hret).represents⟩

/-! ## One run

Three ranges go into a list of three nodes, a fourth one closes the gap between the first
two, and the lowest range, which is these three together, is popped. -/

/-- A list in memory that is 0. -/
def blank : lazylist_t :=
  ⟨0, 0, 0, fun _ => 0, fun _ => 0, fun _ => 0, fun _ => 0, fun _ => 0, fun _ => 0⟩

/-- What an insertion of at most nine turns leaves in memory. -/
def with_range (list : lazylist_t) (range : lazylist_range_t) : lazylist_t :=
  (exec (lazylist_insert 9 range) list).state.getD list

/-- The list with the first three ranges: no node is free. -/
def three_ranges : lazylist_t :=
  with_range (with_range (with_range (lazylist_init blank 5) ⟨0, 9⟩) ⟨20, 29⟩) ⟨40, 49⟩

/-- Three ranges that do not touch. -/
def three_values : Set ℤ := ((∅ ∪ Set.Icc 0 9) ∪ Set.Icc 20 29) ∪ Set.Icc 40 49

theorem three_ranges_reach : Reach 5 three_ranges three_values := by
  have hr1 : Fits ⟨0, 9⟩ ∅ := ⟨by decide, by decide, by decide, Set.empty_disjoint _⟩
  have hr2 : Fits ⟨20, 29⟩ (∅ ∪ Set.Icc 0 9) := by
    refine ⟨by decide, by decide, by decide, Set.disjoint_left.mpr fun v hv hv' => ?_⟩
    simp only [Set.mem_union, Set.mem_Icc, Set.mem_empty_iff_false, false_or] at hv hv'
    omega
  have hr3 : Fits ⟨40, 49⟩ ((∅ ∪ Set.Icc 0 9) ∪ Set.Icc 20 29) := by
    refine ⟨by decide, by decide, by decide, Set.disjoint_left.mpr fun v hv hv' => ?_⟩
    simp only [Set.mem_union, Set.mem_Icc, Set.mem_empty_iff_false, false_or] at hv hv'
    omega
  have h0 : Reach 5 (lazylist_init blank 5) ∅ := .init (by decide) (by decide) rfl rfl
  have h1 : Reach 5 (with_range (lazylist_init blank 5) ⟨0, 9⟩) (∅ ∪ Set.Icc 0 9) :=
    h0.insert hr1 (Or.inl (by decide)) (.of_add 9 fun _ => rfl)
  have h2 : Reach 5 (with_range (with_range (lazylist_init blank 5) ⟨0, 9⟩) ⟨20, 29⟩) _ :=
    h1.insert hr2 (Or.inl (by decide)) (.of_add 9 fun _ => rfl)
  exact h2.insert hr3 (Or.inl (by decide)) (.of_add 9 fun _ => rfl)

/-- The range that fills the first gap. -/
theorem joining_fits : Fits ⟨10, 19⟩ three_values := by
  refine ⟨by decide, by decide, by decide, Set.disjoint_left.mpr fun v hv hv' => ?_⟩
  simp only [three_values, Set.mem_union, Set.mem_Icc, Set.mem_empty_iff_false, false_or] at hv hv'
  omega

/-- The fourth range needs no node: it touches the first one. -/
theorem joining_touches : ¬Apart ⟨10, 19⟩ three_values := by
  intro ha
  apply ha.1
  simp [three_values]

/-- The first two ranges and the one between them are one range now. -/
theorem joining_lowest : Lowest 0 29 (three_values ∪ Set.Icc 10 19) where
  le := by decide
  least := by
    refine ⟨by simp [three_values], fun v hv => ?_⟩
    simp only [three_values, Set.mem_union, Set.mem_Icc, Set.mem_empty_iff_false, false_or] at hv
    omega
  sub := by
    intro v hv
    simp only [three_values, Set.mem_union, Set.mem_Icc, Set.mem_empty_iff_false, false_or] at hv ⊢
    omega
  ends := by
    intro hv
    simp only [three_values, Set.mem_union, Set.mem_Icc, Set.mem_empty_iff_false, false_or] at hv
    omega

theorem lazylist_represents_demo :
    ∃ list' list'', Returns (lazylist_insert · ⟨10, 19⟩) three_ranges 0 list'
      ∧ Represents list' 5 (three_values ∪ Set.Icc 10 19)
      ∧ Returns (lazylist_pop_front · (-1)) list' (some ⟨0, 29⟩) list''
      ∧ Represents list'' 5 ((three_values ∪ Set.Icc 10 19) \ Set.Icc 0 29) := by
  obtain ⟨-, hinsert, -⟩ := lazylist_represents three_ranges_reach
  obtain ⟨list', hret, hrep⟩ := hinsert ⟨10, 19⟩ joining_fits (Or.inr joining_touches)
  have hreach := three_ranges_reach.insert joining_fits (Or.inr joining_touches) hret
  -- the range popped is the lowest one of what is in the list
  rcases (lazylist_represents hreach).2.2 (-1) with ⟨hempty, -⟩ | ⟨left, right, hlow, hpop, -⟩
  · have hmem : (10 : ℤ) ∈ three_values ∪ Set.Icc 10 19 := by simp
    rw [hempty] at hmem
    exact absurd hmem (Set.notMem_empty _)
  · obtain ⟨rfl, rfl⟩ := joining_lowest.unique hlow
    obtain ⟨list'', hret', hrep'⟩ := hpop (Or.inl (by decide))
    exact ⟨list', list'', hret, hrep, hret', hrep'⟩

/-! ## Running out of nodes

The test of `lazylist_get_free_node` for an empty free list compares the lock with `EOL`,
and the caller holds the lock. -/

/-- A call that needs a node on a list without one reads out of bounds. -/
theorem Reach.undefined {capacity : ℕ} {S : Set ℤ} (h : Reach capacity list S)
    (hf : list.free_head_idx = EOL) (hr : Fits range S) (ha : Apart range S) :
    ∃ turns, ∀ fuel, turns ≤ fuel → exec (lazylist_insert fuel range) list = .undefined := by
  obtain ⟨L, F, hv, rfl⟩ := h.valid
  cases F with
  | nil => exact hv.exhausted hr ha
  | cons m F => exact absurd (hv.free.1.symm.trans hf) hv.free.2.1

/-- A call that runs out of the array does not return. -/
theorem Returns.not_undefined {α : Type} {call : ℕ → Code α} {a : α} {list' : lazylist_t}
    (h : ∃ turns, ∀ fuel, turns ≤ fuel → exec (call fuel) list = .undefined) :
    ¬Returns call list a list' := by
  rintro ⟨t', h'⟩
  obtain ⟨t, h⟩ := h
  exact nomatch (h (max t t') (le_max_left t t')).symm.trans (h' (max t t') (le_max_right t t'))

/-- **Exhaustion.** On no list without a free node does a range that touches neither of
its neighbours get the error: the call reads `nodes[EOL]`. -/
theorem lazylist_insert_exhausted {capacity : ℕ} {S : Set ℤ} (h : Reach capacity list S)
    (hf : list.free_head_idx = EOL) (hr : Fits range S) (ha : Apart range S) :
    (∃ turns, ∀ fuel, turns ≤ fuel → exec (lazylist_insert fuel range) list = .undefined) ∧
      ¬Returns (lazylist_insert · range) list 1 list :=
  ⟨h.undefined hf hr ha, Returns.not_undefined (h.undefined hf hr ha)⟩

/-- The only node holds the range from 0 to 9. -/
def one_node : lazylist_t := added (lazylist_init blank 3) ⟨0, 9⟩ 1 2

theorem one_node_returns :
    Returns (lazylist_insert · ⟨0, 9⟩) (lazylist_init blank 3) 0 one_node := by
  have h : Valid (lazylist_init blank 3) 1 ([] ++ []) [0] :=
    Valid.init (by decide) (by decide) rfl rfl
  exact h.returns_added (S := ∅) (X := []) (Y := [])
    ⟨by decide, by decide, by decide, Set.empty_disjoint _⟩ rfl rfl nofun nofun

theorem one_node_reach : Reach 3 one_node (∅ ∪ Set.Icc 0 9) :=
  .insert (.init (by decide) (by decide) rfl rfl)
    ⟨by decide, by decide, by decide, Set.empty_disjoint _⟩ (Or.inl (by decide)) one_node_returns

/-- The next range is one that a caller may insert. -/
theorem one_node_fits : Fits ⟨20, 29⟩ (∅ ∪ Set.Icc 0 9) :=
  ⟨by decide, by decide, by decide, by
    rw [Set.empty_union, Set.disjoint_left]
    simp only [Set.mem_Icc]
    omega⟩

theorem one_node_apart : Apart ⟨20, 29⟩ (∅ ∪ Set.Icc 0 9) := by
  simp [Apart]

theorem lazylist_insert_exhausted_demo :
    ¬Returns (lazylist_insert · ⟨20, 29⟩) one_node 1 one_node :=
  (lazylist_insert_exhausted one_node_reach (by decide) one_node_fits one_node_apart).2

/-- A list for one range holds `[0, 9]` and is asked to take `[20, 29]`. -/
theorem second_range_undefined :
    Returns (lazylist_insert · ⟨0, 9⟩) (lazylist_init blank 3) 0 one_node ∧
      one_node.free_head_idx = EOL ∧
      ¬Returns (lazylist_insert · ⟨20, 29⟩) one_node 1 one_node :=
  ⟨one_node_returns, by decide,
    Returns.not_undefined (one_node_reach.undefined (by decide) one_node_fits one_node_apart)⟩

end Pspin.Lazylist
