/-
A loop within a loop, taken up in the middle, and the part of a list that fits.

The outer loop runs over `count` blocks and the inner one over the `size c` elements of
block `c`; element `b` of block `c` gives the list `f c b`. `rest c b` is what the two loops
still give from element `b` of block `c` on. Whoever keeps the pair `(c, b)` can stop
anywhere and go on later: the lemmas say how `rest` changes as the pair moves.

`fit` takes items off the front of a list for as long as they fit into some room. It stops
at the first item that does not, so the list can be cut there and continued with more room.
-/
import Mathlib.Algebra.BigOperators.Group.List.Basic
import Mathlib.Algebra.Order.Ring.Nat
import Mathlib.Data.List.Range
import Mathlib.Tactic.Common

set_option autoImplicit false

namespace NestedLoop

variable {α : Type*} {count : ℕ} {size : ℕ → ℕ} {f : ℕ → ℕ → List α} {c b n : ℕ}

/-- The elements `b`, …, `b + n - 1` of one block. -/
def elements (g : ℕ → List α) (b n : ℕ) : List α := (List.range' b n).flatMap g

/-- What `n` blocks give, from block `c` on. -/
def blocks (size : ℕ → ℕ) (f : ℕ → ℕ → List α) (c n : ℕ) : List α :=
  (List.range' c n).flatMap fun c' => elements (f c') 0 (size c')

/-- What is left at element `b` of block `c`. -/
def rest (count : ℕ) (size : ℕ → ℕ) (f : ℕ → ℕ → List α) (c b : ℕ) : List α :=
  elements (f c) b (size c - b) ++ blocks size f (c + 1) (count - (c + 1))

/-! ## Moving on -/

theorem elements_add (g : ℕ → List α) (b m n : ℕ) :
    elements g b (m + n) = elements g b m ++ elements g (b + m) n := by
  rw [elements, elements, elements, ← List.flatMap_append, List.range'_append_1]

@[simp] theorem elements_one (g : ℕ → List α) (b : ℕ) : elements g b 1 = g b := by
  simp [elements]

theorem blocks_succ (size : ℕ → ℕ) (f : ℕ → ℕ → List α) (c n : ℕ) :
    blocks size f c (n + 1) = elements (f c) 0 (size c) ++ blocks size f (c + 1) n := by
  rw [blocks, List.range'_succ, List.flatMap_cons]
  rfl

/-- `n` elements of the block are done. -/
theorem rest_elements (h : b + n ≤ size c) :
    rest count size f c b = elements (f c) b n ++ rest count size f c (b + n) := by
  have hsplit : size c - b = n + (size c - (b + n)) := by omega
  rw [rest, hsplit, elements_add, List.append_assoc, rest]

theorem rest_element (h : b < size c) :
    rest count size f c b = f c b ++ rest count size f c (b + 1) := by
  rw [rest_elements (n := 1) h, elements_one]

/-- The block is done and there is a next one. -/
theorem rest_next_block (hc : c + 1 < count) :
    rest count size f c (size c) = rest count size f (c + 1) 0 := by
  obtain ⟨n, hn⟩ : ∃ n, count - (c + 1) = n + 1 := ⟨count - (c + 1) - 1, by omega⟩
  have hn' : count - (c + 1 + 1) = n := by omega
  rw [rest, rest, hn, hn', blocks_succ, Nat.sub_self, Nat.sub_zero]
  rfl

theorem rest_last_block (hc : count ≤ c + 1) : rest count size f c (size c) = [] := by
  rw [rest, Nat.sub_self, Nat.sub_eq_zero_of_le hc]
  rfl

/-- What is left at the start is everything. -/
theorem rest_start (hc : 0 < count) : rest count size f 0 0 = blocks size f 0 count := by
  obtain ⟨n, rfl⟩ : ∃ n, count = n + 1 := ⟨count - 1, by omega⟩
  rw [rest, blocks_succ, Nat.sub_zero, Nat.zero_add, Nat.add_sub_cancel]

end NestedLoop

namespace Fit

variable {α : Type*} {size : α → ℕ} {room : ℕ} {l P R : List α} {a : α}

/-- The size of a list of things. -/
def total (size : α → ℕ) (l : List α) : ℕ := (l.map size).sum

/-- The items at the front of `l` that fit into `room`. -/
def fit (size : α → ℕ) : ℕ → List α → List α
  | _, [] => []
  | room, a :: l => if size a ≤ room then a :: fit size (room - size a) l else []

@[simp] theorem total_nil : total size ([] : List α) = 0 := rfl

@[simp] theorem total_cons : total size (a :: l) = size a + total size l := by
  simp [total]

@[simp] theorem total_append : total size (P ++ R) = total size P + total size R := by
  simp [total]

/-- What fits of two lists, when the first one does. -/
theorem fit_append (h : total size P ≤ room) :
    fit size room (P ++ R) = P ++ fit size (room - total size P) R := by
  induction P generalizing room with
  | nil => simp
  | cons a P ih =>
      rw [total_cons] at h
      have ha : size a ≤ room := by omega
      have hP : total size P ≤ room - size a := by omega
      rw [List.cons_append, fit, if_pos ha, ih hP, total_cons, ← Nat.sub_sub]
      rfl

/-- Nothing fits any more. -/
theorem fit_eq_nil (h : ∀ a ∈ l.head?, room < size a) : fit size room l = [] := by
  cases l with
  | nil => rfl
  | cons a l => rw [fit, if_neg (not_le.mpr (h a rfl))]

theorem total_fit_le (size : α → ℕ) (room : ℕ) (l : List α) : total size (fit size room l) ≤ room := by
  induction l generalizing room with
  | nil => exact Nat.zero_le _
  | cons a l ih =>
      rw [fit]
      split_ifs with ha
      · have := ih (room - size a)
        rw [total_cons]
        omega
      · exact Nat.zero_le _

/-- What fits is the longest front part that does. -/
theorem total_le_fit (h : total size P ≤ room) :
    total size P ≤ total size (fit size room (P ++ R)) := by
  rw [fit_append h, total_append]
  exact Nat.le_add_right _ _

/-- The room of a front part holds that part, and no more. -/
theorem fit_total (h : ∀ a ∈ R.head?, 0 < size a) : fit size (total size P) (P ++ R) = P := by
  rw [fit_append le_rfl, Nat.sub_self, fit_eq_nil h, List.append_nil]

end Fit
