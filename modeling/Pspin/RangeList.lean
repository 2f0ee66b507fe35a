/-
Lists of cells with a range each, in order.

A cell `c` stands for the integers from `lo c` to `hi c`. A list of cells is spaced by `k`
when each range ends at least `k + 1` before the next ones start: for `k = 0` the ranges
are sorted and disjoint, for `k = 1` they do not touch either, so that no shorter list
covers the same integers.

A list changes at one place: some cells there are left out and one cell with a new range
is put in (`Spaced.put`, `covers_put`). To add a range, to grow one and to join two are
all of this kind.
-/
import Mathlib.Data.Int.ConditionallyCompleteOrder
import Mathlib.Data.List.Pairwise
import Mathlib.Data.Set.Lattice
import Mathlib.Order.CompletePartialOrder
import Mathlib.Order.Interval.Set.Basic
import Mathlib.Tactic.Common
import Mathlib.Tactic.Linarith

set_option autoImplicit false

namespace RangeList

variable {α : Type*} {lo hi lo' hi' : α → ℤ} {k : ℤ} {l X Y : List α} {p : α}

/-- The integers in the ranges of `l`. -/
def covers (lo hi : α → ℤ) (l : List α) : Set ℤ := {v | ∃ c ∈ l, lo c ≤ v ∧ v ≤ hi c}

structure Spaced (k : ℤ) (lo hi : α → ℤ) (l : List α) : Prop where
  nonempty : ∀ c ∈ l, lo c ≤ hi c
  lt : l.Pairwise fun c d => hi c + k < lo d

/-! ## What a list covers -/

@[simp] theorem covers_nil : covers lo hi ([] : List α) = ∅ := by
  ext v
  simp [covers]

theorem covers_cons : covers lo hi (p :: l) = Set.Icc (lo p) (hi p) ∪ covers lo hi l := by
  ext v
  simp [covers]

theorem covers_append : covers lo hi (X ++ Y) = covers lo hi X ∪ covers lo hi Y := by
  ext v
  simp [covers, or_and_right, exists_or]

theorem covers_congr (hl : ∀ c ∈ l, lo' c = lo c) (hh : ∀ c ∈ l, hi' c = hi c) :
    covers lo' hi' l = covers lo hi l := by
  ext v
  exact exists_congr fun c => and_congr_right fun hc => by rw [hl c hc, hh c hc]

theorem covers_put :
    covers lo hi (X ++ p :: Y) = covers lo hi (X ++ Y) ∪ Set.Icc (lo p) (hi p) := by
  rw [covers_append, covers_append, covers_cons, Set.union_assoc,
    Set.union_comm (Set.Icc _ _)]

theorem mem_covers {c : α} {v : ℤ} (hc : c ∈ l) (hl : lo c ≤ v) (hh : v ≤ hi c) :
    v ∈ covers lo hi l :=
  ⟨c, hc, hl, hh⟩

theorem covers_update_hi [DecidableEq α] {b : ℤ} (hX : p ∉ X) (hY : p ∉ Y) :
    covers lo (Function.update hi p b) (X ++ p :: Y) = covers lo hi (X ++ Y) ∪ Set.Icc (lo p) b := by
  rw [covers_put, Function.update_self, covers_congr (fun _ _ => rfl) fun d hd => ?_]
  refine Function.update_of_ne ?_ _ _
  rintro rfl
  exact (List.mem_append.mp hd).elim hX hY

theorem covers_update_lo [DecidableEq α] {a : ℤ} (hX : p ∉ X) (hY : p ∉ Y) :
    covers (Function.update lo p a) hi (X ++ p :: Y) = covers lo hi (X ++ Y) ∪ Set.Icc a (hi p) := by
  rw [covers_put, Function.update_self, covers_congr (fun d hd => ?_) fun _ _ => rfl]
  refine Function.update_of_ne ?_ _ _
  rintro rfl
  exact (List.mem_append.mp hd).elim hX hY

/-- Two ranges that meet are one. -/
theorem Icc_join {a b c d : ℤ} (hab : a ≤ b) (hbc : b + 1 = c) (hcd : c ≤ d) :
    Set.Icc a b ∪ Set.Icc c d = Set.Icc a d := by
  ext v
  simp only [Set.mem_union, Set.mem_Icc]
  omega

/-! ## Spaced lists -/

namespace Spaced

theorem congr (h : Spaced k lo hi l) (hl : ∀ c ∈ l, lo' c = lo c) (hh : ∀ c ∈ l, hi' c = hi c) :
    Spaced k lo' hi' l where
  nonempty c hc := by
    rw [hl c hc, hh c hc]
    exact h.nonempty c hc
  lt := h.lt.imp_of_mem fun hc hd hcd => by
    rw [hh _ hc, hl _ hd]
    exact hcd

theorem sublist (h : Spaced k lo hi l) {l' : List α} (hs : l'.Sublist l) : Spaced k lo hi l' where
  nonempty c hc := h.nonempty c (hs.subset hc)
  lt := h.lt.sublist hs

theorem append_iff : Spaced k lo hi (X ++ Y) ↔
    Spaced k lo hi X ∧ Spaced k lo hi Y ∧ ∀ c ∈ X, ∀ d ∈ Y, hi c + k < lo d := by
  constructor
  · rintro ⟨hn, hp⟩
    rw [List.pairwise_append] at hp
    exact ⟨⟨fun c hc => hn c (List.mem_append_left Y hc), hp.1⟩,
      ⟨fun c hc => hn c (List.mem_append_right X hc), hp.2.1⟩, hp.2.2⟩
  · rintro ⟨hX, hY, hXY⟩
    refine ⟨fun c hc => ?_, List.pairwise_append.mpr ⟨hX.lt, hY.lt, hXY⟩⟩
    rcases List.mem_append.mp hc with hc | hc
    · exact hX.nonempty c hc
    · exact hY.nonempty c hc

theorem cons_iff : Spaced k lo hi (p :: l) ↔
    lo p ≤ hi p ∧ Spaced k lo hi l ∧ ∀ d ∈ l, hi p + k < lo d := by
  constructor
  · rintro ⟨hn, hp⟩
    rw [List.pairwise_cons] at hp
    exact ⟨hn p List.mem_cons_self, ⟨fun c hc => hn c (List.mem_cons_of_mem p hc), hp.2⟩, hp.1⟩
  · rintro ⟨hp, hl, hpl⟩
    refine ⟨fun c hc => ?_, List.pairwise_cons.mpr ⟨hpl, hl.lt⟩⟩
    rcases List.mem_cons.mp hc with rfl | hc
    · exact hp
    · exact hl.nonempty c hc

/-- A cell put in between. -/
theorem put (h : Spaced k lo hi (X ++ Y)) (hp : lo p ≤ hi p) (hX : ∀ c ∈ X, hi c + k < lo p)
    (hY : ∀ c ∈ Y, hi p + k < lo c) : Spaced k lo hi (X ++ p :: Y) := by
  obtain ⟨h1, h2, h12⟩ := append_iff.mp h
  refine append_iff.mpr ⟨h1, cons_iff.mpr ⟨hp, h2, hY⟩, fun c hc d hd => ?_⟩
  rcases List.mem_cons.mp hd with rfl | hd
  · exact hX c hc
  · exact h12 c hc d hd

/-- What lies behind the range of `p` lies behind those before it. -/
theorem hi_lt (hk : 0 ≤ k) (h : Spaced k lo hi (X ++ p :: Y)) {v : ℤ} (hv : hi p < v) :
    ∀ c ∈ X ++ [p], hi c < v := by
  obtain ⟨-, hpY, h12⟩ := append_iff.mp h
  have hp := (cons_iff.mp hpY).1
  refine List.forall_mem_append.mpr ⟨fun c hc => ?_, List.forall_mem_singleton.mpr hv⟩
  have := h12 c hc p List.mem_cons_self
  omega

/-- What lies before the range of `p` lies before those behind it. -/
theorem lt_lo (hk : 0 ≤ k) (h : Spaced k lo hi (X ++ p :: Y)) {v : ℤ} (hv : v < lo p) :
    ∀ c ∈ p :: Y, v < lo c := by
  obtain ⟨hp, -, hpY⟩ := cons_iff.mp (append_iff.mp h).2.1
  refine List.forall_mem_cons.mpr ⟨hv, fun c hc => ?_⟩
  have := hpY c hc
  omega

/-- A range that meets none of the cells falls between two of them. -/
theorem split (hk : 0 ≤ k) (h : Spaced k lo hi l) {a b : ℤ} (hab : a ≤ b)
    (hd : Disjoint (covers lo hi l) (Set.Icc a b)) :
    ∃ X Y, l = X ++ Y ∧ (∀ c ∈ X, hi c < a) ∧ ∀ c ∈ Y, b < lo c := by
  induction l with
  | nil => exact ⟨[], [], rfl, nofun, nofun⟩
  | cons c l ih =>
      obtain ⟨hc, hl, hcl⟩ := cons_iff.mp h
      rw [covers_cons, Set.disjoint_union_left] at hd
      by_cases hca : hi c < a
      · obtain ⟨X, Y, rfl, hX, hY⟩ := ih hl hd.2
        exact ⟨c :: X, Y, rfl, List.forall_mem_cons.mpr ⟨hca, hX⟩, hY⟩
      · -- `c` reaches `a`, so it starts behind `b`, and the others behind it
        have hbc : b < lo c := by
          by_contra hn
          have hv : max a (lo c) ∈ Set.Icc (lo c) (hi c) := ⟨le_max_right _ _, by omega⟩
          exact Set.disjoint_left.mp hd.1 hv ⟨le_max_left _ _, by omega⟩
        refine ⟨[], c :: l, rfl, nofun, List.forall_mem_cons.mpr ⟨hbc, fun d hd => ?_⟩⟩
        have := hcl d hd
        omega

/-- The cell that ends right before `v` is the last of those that end before `v`. -/
theorem eq_concat (h : Spaced 1 lo hi l) {v : ℤ} (hl : ∀ c ∈ l, hi c < v) (hp : p ∈ l)
    (hv : hi p + 1 = v) : ∃ X, l = X ++ [p] := by
  obtain ⟨X, Y, rfl⟩ := List.append_of_mem hp
  cases Y with
  | nil => exact ⟨X, rfl⟩
  | cons c Y =>
      obtain ⟨-, hcY, hpc⟩ := cons_iff.mp (append_iff.mp h).2.1
      have h1 := hpc c List.mem_cons_self
      have h2 := (cons_iff.mp hcY).1
      have h3 := hl c (List.mem_append_right X (List.mem_cons_of_mem p List.mem_cons_self))
      omega

/-- The cell that starts right behind `v` is the first of those that start behind `v`. -/
theorem eq_cons (h : Spaced 1 lo hi l) {v : ℤ} (hl : ∀ c ∈ l, v < lo c) (hp : p ∈ l)
    (hv : v + 1 = lo p) : ∃ Y, l = p :: Y := by
  obtain ⟨X, Y, rfl⟩ := List.append_of_mem hp
  cases X with
  | nil => exact ⟨Y, rfl⟩
  | cons c X =>
      obtain ⟨hc, -, hcp⟩ := cons_iff.mp h
      have h1 := hcp p (List.mem_append_right X List.mem_cons_self)
      have h3 := hl c List.mem_cons_self
      omega

/-- Behind every cell of a list spaced by 1 there is an integer that no cell covers. -/
theorem hi_succ_notMem (h : Spaced 1 lo hi (X ++ p :: Y)) :
    hi p + 1 ∉ covers lo hi (X ++ p :: Y) := by
  rintro ⟨c, hc, hlc, hhc⟩
  obtain ⟨-, hpY, hXp⟩ := append_iff.mp h
  obtain ⟨hp, -, hpd⟩ := cons_iff.mp hpY
  rcases List.mem_append.mp hc with hc | hc
  · have := hXp c hc p List.mem_cons_self
    omega
  rcases List.mem_cons.mp hc with rfl | hc
  · omega
  · have := hpd c hc
    omega

/-- Without one of its cells a list covers what that cell does not. -/
theorem covers_remove (hk : 0 ≤ k) (h : Spaced k lo hi (X ++ p :: Y)) :
    covers lo hi (X ++ Y) = covers lo hi (X ++ p :: Y) \ Set.Icc (lo p) (hi p) := by
  obtain ⟨-, hpY, hXp⟩ := append_iff.mp h
  obtain ⟨hp, -, hpd⟩ := cons_iff.mp hpY
  rw [covers_put, Set.union_sdiff_right]
  refine (sdiff_eq_left.mpr (Set.disjoint_left.mpr ?_)).symm
  rintro v ⟨c, hc, hlc, hhc⟩ hv
  have hlv := hv.1
  have hvh := hv.2
  rcases List.mem_append.mp hc with hc | hc
  · have := hXp c hc p List.mem_cons_self
    omega
  · have := hpd c hc
    omega

/-! Two neighbours `p` and `c`, and the integers from `a` to `b` between them. -/

section Neighbours

variable [DecidableEq α] {c : α} {a b : ℤ}

/-- A new value for the end of `p`. -/
theorem update_hi (h : Spaced k lo hi (X ++ p :: Y)) (hX : p ∉ X) (hY : p ∉ Y) (hp : lo p ≤ b)
    (hb : ∀ d ∈ Y, b + k < lo d) : Spaced k lo (Function.update hi p b) (X ++ p :: Y) := by
  obtain ⟨hsX, hpY, hXp⟩ := append_iff.mp h
  have hsame : ∀ d ∈ X ++ Y, Function.update hi p b d = hi d := by
    intro d hd
    refine Function.update_of_ne ?_ _ _
    rintro rfl
    exact (List.mem_append.mp hd).elim hX hY
  refine ((h.sublist ((List.sublist_cons_self p Y).append_left X)).congr (fun _ _ => rfl)
    hsame).put ?_ (fun d hd => ?_) ?_
  · rw [Function.update_self]
    exact hp
  · rw [hsame d (List.mem_append_left Y hd)]
    exact hXp d hd p List.mem_cons_self
  · rw [Function.update_self]
    exact hb

/-- A new value for the start of `c`. -/
theorem update_lo (h : Spaced k lo hi (X ++ c :: Y)) (hX : c ∉ X) (hY : c ∉ Y) (hc : a ≤ hi c)
    (ha : ∀ d ∈ X, hi d + k < a) : Spaced k (Function.update lo c a) hi (X ++ c :: Y) := by
  obtain ⟨-, hcY, -⟩ := append_iff.mp h
  have hsame : ∀ d ∈ X ++ Y, Function.update lo c a d = lo d := by
    intro d hd
    refine Function.update_of_ne ?_ _ _
    rintro rfl
    exact (List.mem_append.mp hd).elim hX hY
  refine ((h.sublist ((List.sublist_cons_self c Y).append_left X)).congr hsame
    (fun _ _ => rfl)).put ?_ ?_ (fun d hd => ?_)
  · rw [Function.update_self]
    exact hc
  · rw [Function.update_self]
    exact ha
  · rw [hsame d (List.mem_append_right X hd)]
    exact (cons_iff.mp hcY).2.2 d hd

end Neighbours

end Spaced

/-! ## The lowest range of a set -/

/-- The integers from `a` to `b` are the lowest run of `S`. -/
structure Lowest (a b : ℤ) (S : Set ℤ) : Prop where
  le : a ≤ b
  least : IsLeast S a
  sub : Set.Icc a b ⊆ S
  ends : b + 1 ∉ S

theorem Lowest.unique {a b a' b' : ℤ} {S : Set ℤ} (h : Lowest a b S) (h' : Lowest a' b' S) :
    a = a' ∧ b = b' := by
  obtain rfl := h.least.unique h'.least
  refine ⟨rfl, ?_⟩
  by_contra hne
  rcases lt_or_gt_of_ne hne with hlt | hlt
  · exact h.ends (h'.sub ⟨by have := h.le; omega, hlt⟩)
  · exact h'.ends (h.sub ⟨by have := h'.le; omega, hlt⟩)

/-- The first cell of a list spaced by 1 is the lowest range of what the list covers. -/
theorem Spaced.lowest (h : Spaced 1 lo hi (p :: l)) :
    Lowest (lo p) (hi p) (covers lo hi (p :: l)) where
  le := (cons_iff.mp h).1
  least := by
    refine ⟨mem_covers List.mem_cons_self le_rfl (cons_iff.mp h).1, ?_⟩
    rintro v ⟨c, hc, hlc, -⟩
    rcases List.mem_cons.mp hc with rfl | hc
    · exact hlc
    · have h1 := (cons_iff.mp h).1
      have h2 := (cons_iff.mp h).2.2 c hc
      omega
  sub := by
    rw [covers_cons]
    exact Set.subset_union_left
  ends := hi_succ_notMem (X := []) h

end RangeList
