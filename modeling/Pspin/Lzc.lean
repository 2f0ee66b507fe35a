/-
`lzc`, the trailing zero counter of the common cells, in its default mode.

`cnt_o` is the index of the lowest set bit of `in_i` and `empty_o` says that there
is none. With no bit set the count is the largest index, which the callers that
look at `cnt_o` alone can see.

The bits are a function of the index, read on `[0, WIDTH)` only.
-/
import Mathlib.Data.List.Basic
import Mathlib.Data.List.Count
import Mathlib.Data.List.Nodup
import Mathlib.Data.List.Range

set_option autoImplicit false

namespace Pspin.Lzc

/-- `empty_o`: no bit of the input is set. -/
def empty_o (WIDTH : ℕ) (in_i : ℕ → Bool) : Bool := !(List.range WIDTH).any in_i

/-- `cnt_o`: the number of trailing zeros, and `WIDTH - 1` on an empty input. -/
def cnt_o (WIDTH : ℕ) (in_i : ℕ → Bool) : ℕ :=
  if empty_o WIDTH in_i then WIDTH - 1 else (List.range WIDTH).findIdx in_i

theorem empty_o_iff {WIDTH : ℕ} {in_i : ℕ → Bool} :
    empty_o WIDTH in_i = true ↔ ∀ k < WIDTH, in_i k = false := by
  simp [empty_o, List.any_eq_false]

theorem not_empty_o_iff {WIDTH : ℕ} {in_i : ℕ → Bool} :
    empty_o WIDTH in_i = false ↔ ∃ k < WIDTH, in_i k = true := by
  simp [empty_o, List.any_eq_true]

/-- On a non-empty input the count is an index of the vector, its bit is set, and
no lower bit is. -/
theorem cnt_o_spec {WIDTH : ℕ} {in_i : ℕ → Bool} (h : empty_o WIDTH in_i = false) :
    cnt_o WIDTH in_i < WIDTH ∧ in_i (cnt_o WIDTH in_i) = true
      ∧ ∀ k < cnt_o WIDTH in_i, in_i k = false := by
  have hlt : (List.range WIDTH).findIdx in_i < (List.range WIDTH).length := by
    rw [List.findIdx_lt_length]
    obtain ⟨k, hk, hb⟩ := not_empty_o_iff.mp h
    exact ⟨k, List.mem_range.mpr hk, hb⟩
  have hget := List.findIdx_getElem (w := hlt)
  simp only [List.getElem_range] at hget
  simp only [cnt_o, h, Bool.false_eq_true, if_false]
  refine ⟨by simpa using hlt, hget, fun k hk => ?_⟩
  have := List.not_of_lt_findIdx hk
  simpa using this

theorem cnt_o_lt {WIDTH : ℕ} {in_i : ℕ → Bool} (h : 0 < WIDTH) : cnt_o WIDTH in_i < WIDTH := by
  cases he : empty_o WIDTH in_i with
  | false => exact (cnt_o_spec he).1
  | true => simp only [cnt_o, he, if_true]; omega

/-! ## Vectors with one bit -/

/-- The indices whose bit is set, where only the bit of `a` is. -/
theorem filter_range_one {n a : ℕ} {bit : ℕ → Bool} (ha : a < n)
    (hbit : ∀ k < n, bit k = true ↔ k = a) : (List.range n).filter bit = [a] := by
  have heq : (List.range n).filter bit = (List.range n).filter (· == a) := by
    apply List.filter_congr
    intro k hk
    rw [Bool.eq_iff_iff, beq_iff_eq]
    exact hbit k (List.mem_range.mp hk)
  have hcount : (List.range n).count a = 1 :=
    List.count_eq_one_of_mem List.nodup_range (List.mem_range.mpr ha)
  rw [heq, List.filter_beq, hcount, List.replicate_one]

/-- The part of a vector at index `a`. -/
theorem filter_range_at {n a : ℕ} (bit : ℕ → Bool) (ha : a < n) :
    (List.range n).filter (fun k => (k == a) && bit k) = if bit a then [a] else [] := by
  split_ifs with hbit
  · apply filter_range_one ha
    intro k _
    rw [Bool.and_eq_true, beq_iff_eq]
    constructor
    · exact fun h => h.1
    · rintro rfl
      exact ⟨rfl, hbit⟩
  · rw [List.filter_eq_nil_iff]
    intro k _ hk
    rw [Bool.and_eq_true, beq_iff_eq] at hk
    obtain ⟨rfl, hk⟩ := hk
    exact hbit hk

end Pspin.Lzc
