/-
Linked segments with an end mark.

A cell has a successor and a mark that says it is the last one. `Seg nxt lst a l`
reads the list `l` off the cells from `a` on: every cell but the last is unmarked
and points to the one after it, and the last one is marked. A segment is never
empty, so an owner that may be empty keeps a flag of its own beside it.

`walk` is the executable reader, with a bound on the cells it visits. The rest of
the file is what queue code does to a segment: read it past cells it does not own
(`Seg.frame`), drop its first cell (`Seg.tail`), add a cell behind its last one
(`Seg.snoc`).
-/
import Mathlib.Data.List.Basic
import Mathlib.Data.List.Nodup
import Mathlib.Logic.Function.Basic

set_option autoImplicit false

namespace Segment

variable {α : Type*} {nxt nxt' : α → α} {lst lst' : α → Bool}

/-- The cells from `a` up to the first marked one are `l`. -/
inductive Seg (nxt : α → α) (lst : α → Bool) : α → List α → Prop
  | last {a : α} (h : lst a = true) : Seg nxt lst a [a]
  | cons {a : α} {l : List α} (h : lst a = false) (ht : Seg nxt lst (nxt a) l) :
      Seg nxt lst a (a :: l)

/-- Read at most `n` cells from `a`, stopping behind the first marked one. -/
def walk (nxt : α → α) (lst : α → Bool) : ℕ → α → List α
  | 0, _ => []
  | n + 1, a => if lst a then [a] else a :: walk nxt lst n (nxt a)

namespace Seg

theorem ne_nil {a : α} {l : List α} (h : Seg nxt lst a l) : l ≠ [] := by
  cases h <;> simp

theorem head?_eq {a : α} {l : List α} (h : Seg nxt lst a l) : l.head? = some a := by
  cases h <;> rfl

theorem mem_head {a : α} {l : List α} (h : Seg nxt lst a l) : a ∈ l := by
  cases h <;> simp

/-- The reader finds the segment once its bound covers it. -/
theorem walk_eq {a : α} {l : List α} (h : Seg nxt lst a l) :
    ∀ n, l.length ≤ n → walk nxt lst n a = l := by
  induction h with
  | last h =>
      intro n hn
      cases n with
      | zero => simp at hn
      | succ n => simp [walk, h]
  | cons h ht ih =>
      intro n hn
      cases n with
      | zero => simp at hn
      | succ n =>
          simp only [List.length_cons] at hn
          simp [walk, h, ih n (by omega)]

/-- A segment reads only its own cells. -/
theorem frame {a : α} {l : List α} (h : Seg nxt lst a l) (hn : ∀ c ∈ l, nxt' c = nxt c)
    (hl : ∀ c ∈ l, lst' c = lst c) : Seg nxt' lst' a l := by
  induction h with
  | last h => exact .last (by rw [hl _ (by simp), h])
  | @cons a l h ht ih =>
      refine .cons (by rw [hl _ (by simp), h]) ?_
      rw [hn a (by simp)]
      exact ih (fun c hc => hn c (List.mem_cons_of_mem _ hc))
        (fun c hc => hl c (List.mem_cons_of_mem _ hc))

/-- The mark of the first cell says whether it is the only one. -/
theorem last_head_iff {a : α} {l : List α} (h : Seg nxt lst a l) :
    lst a = true ↔ l.tail = [] := by
  cases h with
  | last h => simp [h]
  | cons h ht => simp [h, ht.ne_nil]

/-- Dropping the first of several cells leaves the segment of its successor. -/
theorem tail {a : α} {l : List α} (h : Seg nxt lst a l) (hne : l.tail ≠ []) :
    Seg nxt lst (nxt a) l.tail := by
  cases h with
  | last h => simp at hne
  | cons h ht => exact ht

theorem getLast_tail {a : α} {l : List α} (h : Seg nxt lst a l) (hne : l.tail ≠ []) :
    l.tail.getLast? = l.getLast? := by
  cases h with
  | last h => simp at hne
  | cons h ht =>
      obtain ⟨b, l', rfl⟩ := List.exists_cons_of_ne_nil ht.ne_nil
      simp

/-- Adding a marked cell `c` behind the last cell `z`: the successor of `z`
becomes `c` and the mark moves from `z` to `c`. -/
theorem snoc [DecidableEq α] {a z c : α} {l : List α} (h : Seg nxt lst a l) (hnd : l.Nodup)
    (hz : l.getLast? = some z) (hc : c ∉ l) (hn : ∀ d ∈ l, d ≠ z → nxt' d = nxt d)
    (hnz : nxt' z = c) (hl : ∀ d ∈ l, d ≠ z → lst' d = lst d) (hlz : lst' z = false)
    (hlc : lst' c = true) : Seg nxt' lst' a (l ++ [c]) := by
  induction h with
  | @last a h =>
      obtain rfl : a = z := by simpa using hz
      exact .cons hlz (by rw [hnz]; exact .last hlc)
  | @cons a l h ht ih =>
      obtain ⟨b, l', rfl⟩ := List.exists_cons_of_ne_nil ht.ne_nil
      -- `z` is further down the list, so the first cell keeps its successor
      have hzl : (b :: l').getLast? = some z := by simpa using hz
      have hne : a ≠ z := by
        rintro rfl
        exact (List.nodup_cons.mp hnd).1 (List.mem_of_getLast? hzl)
      refine .cons (by rw [hl a (by simp) hne, h]) ?_
      rw [hn a (by simp) hne]
      exact ih (List.nodup_cons.mp hnd).2 hzl (fun hm => hc (List.mem_cons_of_mem _ hm))
        (fun d hd => hn d (List.mem_cons_of_mem _ hd)) (fun d hd => hl d (List.mem_cons_of_mem _ hd))

end Seg

end Segment
