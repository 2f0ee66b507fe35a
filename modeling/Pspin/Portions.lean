/-
A stream of parts, where the last part of each portion is marked.

`finished` has the sizes of the portions whose last part is there, `begun` is the size of what
is there of the next one. The first argument is what is there before the stream.
-/
import Mathlib.Algebra.BigOperators.Group.List.Basic
import Mathlib.Algebra.Order.Ring.Nat
import Mathlib.Tactic.Common

set_option autoImplicit false

namespace Portions

variable {α : Type*} (size : α → ℕ) (last : α → Bool)

def finished : ℕ → List α → List ℕ
  | _, [] => []
  | n, a :: as => if last a then (n + size a) :: finished 0 as else finished (n + size a) as

def begun : ℕ → List α → ℕ
  | n, [] => n
  | n, a :: as => if last a then begun 0 as else begun (n + size a) as

variable (n : ℕ) (as bs : List α)

theorem finished_append : finished size last n (as ++ bs) =
    finished size last n as ++ finished size last (begun size last n as) bs := by
  induction as generalizing n with
  | nil => rfl
  | cons a as ih =>
      rw [List.cons_append, finished, finished, begun]
      split_ifs
      · rw [ih, List.cons_append]
      · exact ih _

theorem begun_append : begun size last n (as ++ bs) = begun size last (begun size last n as) bs := by
  induction as generalizing n with
  | nil => rfl
  | cons a as ih =>
      rw [List.cons_append, begun, begun]
      split_ifs
      · exact ih _
      · exact ih _

/-- One portion for each mark. -/
theorem length_finished : (finished size last n as).length = as.countP last := by
  induction as generalizing n with
  | nil => rfl
  | cons a as ih =>
      rw [finished, List.countP_cons]
      split_ifs
      · rw [List.length_cons, ih]
      · exact ih _

/-- Nothing is lost. -/
theorem sum_finished : (finished size last n as).sum + begun size last n as = n + (as.map size).sum := by
  induction as generalizing n with
  | nil => exact Nat.add_comm _ _
  | cons a as ih =>
      rw [finished, begun, List.map_cons, List.sum_cons]
      split_ifs
      · rw [List.sum_cons, Nat.add_assoc, ih]
        omega
      · rw [ih]
        omega

end Portions
