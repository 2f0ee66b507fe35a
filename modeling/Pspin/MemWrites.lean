/-
Writes to a memory whose order does not matter.

Commands that copy bytes may complete in any order. If no two of them write different
values to one place, the memory afterwards is the same for every order: a place that is
written holds the value written there, and the others keep theirs.
-/
import Mathlib.Data.List.Induction
import Mathlib.Logic.Function.Basic
import Mathlib.Tactic.Common

set_option autoImplicit false

open Function (update)

namespace MemWrites

variable {α β : Type*} [DecidableEq α] {mem : α → β} {ws : List (α × β)} {a : α} {v : β}

/-- The memory after the writes, the first one first. -/
def apply (mem : α → β) (ws : List (α × β)) : α → β :=
  ws.foldl (fun m w => update m w.1 w.2) mem

@[simp] theorem apply_nil (mem : α → β) : apply mem [] = mem := rfl

theorem apply_append (mem : α → β) (ws ws' : List (α × β)) :
    apply mem (ws ++ ws') = apply (apply mem ws) ws' := List.foldl_append

theorem apply_of_not_mem (h : ∀ w ∈ ws, w.1 ≠ a) : apply mem ws a = mem a := by
  induction ws using List.reverseRecOn with
  | nil => rfl
  | append_singleton ws w ih =>
      have hw : a ≠ w.1 := (h w (by simp)).symm
      rw [apply_append]
      change update (apply mem ws) w.1 w.2 a = mem a
      rw [Function.update_of_ne hw]
      exact ih fun w' hw' => h w' (List.mem_append_left _ hw')

/-- All writes to `a` write `v`. -/
theorem apply_of_mem (h : ∀ w ∈ ws, w.1 = a → w.2 = v) (ha : ∃ w ∈ ws, w.1 = a) :
    apply mem ws a = v := by
  induction ws using List.reverseRecOn with
  | nil => simp at ha
  | append_singleton ws w ih =>
      rw [apply_append]
      change update (apply mem ws) w.1 w.2 a = v
      by_cases hw : w.1 = a
      · rw [hw, Function.update_self]
        exact h w (by simp) hw
      · rw [Function.update_of_ne (Ne.symm hw)]
        refine ih (fun w' hw' => h w' (List.mem_append_left _ hw')) ?_
        obtain ⟨w', hw', ha'⟩ := ha
        rcases List.mem_append.mp hw' with hin | hin
        · exact ⟨w', hin, ha'⟩
        · rw [List.mem_singleton.mp hin] at ha'
          exact absurd ha' hw

end MemWrites
