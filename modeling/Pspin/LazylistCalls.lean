/-
`lazylist.h`, one call after another.

Each function has a lemma that says what it returns and what it leaves in memory. The
last section puts them together to calls on a whole list.
-/
import Pspin.Lazylist
import Pspin.RangeList

set_option autoImplicit false

namespace Pspin.Lazylist

open Interleave LinkedPath
open Function (update)

variable {α β R : Type} {list : lazylist_t} {range : lazylist_range_t} {i pred curr : ℕ}

/-! ## Single accesses -/

@[simp] theorem exec_ret (a : α) (list : lazylist_t) : exec (.ret a) list = .ok a list := rfl

@[simp] theorem exec_bind (p : Code α) (f : α → Code β) (list : lazylist_t) :
    exec (p >>= f) list = (exec p list).bind fun a list => exec (f a) list :=
  Prog.run_bind p f list

@[simp] theorem exec_noted (note : note_t) (o : op_t R) (list : lazylist_t) :
    exec (noted note o) list = (sem list o).outcome := by
  rw [noted, exec, Prog.run]
  cases sem list o <;> rfl

@[simp] theorem at_node_of_lt {a : Access lazylist_t R} (h : i < NUM_SEGMENTS + 2) :
    at_node i a = a :=
  if_pos h

@[simp] theorem at_mark_of_lt {a : Access lazylist_t R} (h : i < NUM_SEGMENTS) :
    at_mark i a = a :=
  if_pos h

/-- The access that runs out of the array. -/
theorem at_node_EOL {a : Access lazylist_t R} : at_node EOL a = .undefined := rfl

@[simp] theorem futex_lock_s_zero {lock : ℕ} {locked : lazylist_t} (h : lock = 0) :
    futex_lock_s lock locked = .ok () locked :=
  if_pos h

/-! ## The free list -/

/-- Taking a free node. The lock is free again afterwards, so it does not show in the state. -/
theorem exec_get_free_node (hl : list.free_head_lock = 0)
    (hn : list.free_head_idx < NUM_SEGMENTS + 2) :
    exec lazylist_get_free_node list =
      .ok (some list.free_head_idx)
        { list with free_head_idx := list.next_idx list.free_head_idx } := by
  have hlock : (1 : ℕ) ≠ EOL := by decide
  simp [lazylist_get_free_node, sem, hl, hn, hlock]

/-- The test reads the lock, which the caller holds, and not the head of the free list. -/
theorem exec_get_free_node_empty (hl : list.free_head_lock = 0) (hn : list.free_head_idx = EOL) :
    exec lazylist_get_free_node list = .undefined := by
  have hlock : (1 : ℕ) ≠ EOL := by decide
  simp [lazylist_get_free_node, sem, hl, hn, hlock, at_node_EOL]

/-- A node put on the free list. -/
def freed (list : lazylist_t) (i : ℕ) : lazylist_t :=
  { list with next_idx := update list.next_idx i list.free_head_idx, free_head_idx := i }

theorem exec_put_free_node (hl : list.free_head_lock = 0) (hi : i < NUM_SEGMENTS + 2)
    (hidx : list.idx i = i) : exec (lazylist_put_free_node i) list = .ok () (freed list i) := by
  simp [lazylist_put_free_node, sem, hl, hi, hidx, freed]

/-- Two neighbours of the list, as a call on its own finds them. -/
structure Neighbours (list : lazylist_t) (pred curr : ℕ) : Prop where
  pred_lt : pred < NUM_SEGMENTS
  curr_lt : curr < NUM_SEGMENTS
  ne : pred ≠ curr
  idx_pred : list.idx pred = pred
  idx_curr : list.idx curr = curr
  mark_pred : list.marks pred = 0
  mark_curr : list.marks curr = 0
  next : list.next_idx pred = curr

namespace Neighbours

theorem pred_lt' (h : Neighbours list pred curr) : pred < NUM_SEGMENTS + 2 :=
  Nat.lt_add_right 2 h.pred_lt

theorem curr_lt' (h : Neighbours list pred curr) : curr < NUM_SEGMENTS + 2 :=
  Nat.lt_add_right 2 h.curr_lt

end Neighbours

/-! ## Search and validation -/

/-- Nobody else has changed the window. -/
theorem exec_validate (h : Neighbours list pred curr) :
    exec (lazylist_validate pred curr) list = .ok true list := by
  simp [lazylist_validate, sem, h.pred_lt, h.curr_lt, h.pred_lt', h.curr_lt', h.idx_pred,
    h.idx_curr, h.mark_pred, h.mark_curr, h.next]

/-- The search goes past the nodes that end before the range, and stops at the next. -/
theorem exec_find_pred_loop {a : ℕ} {X Y : List ℕ} (h : Path list.next_idx EOL a (X ++ curr :: Y))
    (hlt : ∀ i ∈ X ++ curr :: Y, i < NUM_SEGMENTS + 2) (hX : ∀ i ∈ X, list.right i < range.left)
    (hc : range.left ≤ list.right curr) :
    ∀ pred fuel, X.length < fuel →
      exec (lazylist_find_pred_loop range fuel pred a) list =
        .ok (if list.left curr ≤ range.right then none else some (X.getLastD pred, curr)) list := by
  -- induction on the nodes that the search passes
  induction X generalizing a with
  | nil =>
      intro pred fuel hf
      obtain ⟨rfl, -, -⟩ := h
      obtain ⟨fuel, rfl⟩ := Nat.exists_eq_succ_of_ne_zero (Nat.ne_of_gt hf)
      have ha := hlt a (by simp)
      by_cases hl : list.left a ≤ range.right <;>
        simp [lazylist_find_pred_loop, sem, ha, not_lt.mpr hc, hl]
  | cons x X ih =>
      intro pred fuel hf
      obtain ⟨rfl, -, ht⟩ := h
      obtain ⟨fuel, rfl⟩ := Nat.exists_eq_succ_of_ne_zero (Nat.ne_of_gt (Nat.zero_lt_of_lt hf))
      have ha := hlt a (by simp)
      have hr := hX a (by simp)
      have hrest := ih ht (fun i hi => hlt i (List.mem_cons_of_mem a hi))
        (fun i hi => hX i (List.mem_cons_of_mem a hi)) a fuel (Nat.lt_of_succ_lt_succ hf)
      rw [List.getLastD_cons, ← hrest]
      simp [lazylist_find_pred_loop, sem, ha, hr]

/-! ## Placing a range

What each of the four ways to place a range leaves in memory. -/

section Insert

variable (list range pred curr)

/-- The range closes a gap: the cell on the left takes over the right end of the one on the right,
which is unlinked and marked. -/
def joined : lazylist_t :=
  { list with
    right := update list.right pred (list.right curr)
    marks := update list.marks curr 1
    next_idx := update list.next_idx pred (list.next_idx curr) }

/-- The cell on the left grows. -/
def grown_right : lazylist_t :=
  { list with right := update list.right pred range.right }

/-- The cell on the right grows. -/
def grown_left : lazylist_t :=
  { list with left := update list.left curr range.left }

/-- A new cell is linked between the two. -/
def added : lazylist_t :=
  let new_node := list.free_head_idx
  { list with
    free_head_idx := list.next_idx new_node
    left := update list.left new_node range.left
    right := update list.right new_node range.right
    marks := update list.marks new_node 0
    lock := update list.lock new_node 0
    next_idx := update (update list.next_idx new_node curr) pred new_node }

end Insert

/-- Whether the range begins where the cell on the left ends. A sentinel does not count. -/
theorem exec_connects_left (hp : pred < NUM_SEGMENTS + 2) :
    exec (connects_left pred curr range) list =
      .ok (decide (list.right pred + 1 = range.left ∧ INT32_MIN < list.left pred)) list := by
  by_cases h : list.right pred + 1 = range.left <;> simp [connects_left, sem, hp, h]

/-- Whether it ends where the cell on the right begins. -/
theorem exec_connects_right (hc : curr < NUM_SEGMENTS + 2) :
    exec (connects_right curr range) list =
      .ok (decide (range.right + 1 = list.left curr ∧ list.left curr < INT32_MAX)) list := by
  by_cases h : range.right + 1 = list.left curr <;> simp [connects_right, sem, hc, h]

theorem exec_insert_joined (hp : pred < NUM_SEGMENTS + 2) (hc : curr < NUM_SEGMENTS)
    (hi : list.idx curr = curr)
    (hl : list.right pred + 1 = range.left ∧ INT32_MIN < list.left pred)
    (hr : range.right + 1 = list.left curr ∧ list.left curr < INT32_MAX) :
    exec (lazylist_insert_between pred curr range) list =
      .ok (0, some curr) (joined list pred curr) := by
  have hc' : curr < NUM_SEGMENTS + 2 := by omega
  simp [lazylist_insert_between, exec_connects_left hp, exec_connects_right hc', hl, hr, sem, hp,
    hc, hc', hi, joined]

theorem exec_insert_grown_right (hp : pred < NUM_SEGMENTS + 2) (hc : curr < NUM_SEGMENTS + 2)
    (hl : list.right pred + 1 = range.left ∧ INT32_MIN < list.left pred)
    (hr : ¬(range.right + 1 = list.left curr ∧ list.left curr < INT32_MAX)) :
    exec (lazylist_insert_between pred curr range) list =
      .ok (0, none) (grown_right list range pred) := by
  simp [lazylist_insert_between, exec_connects_left hp, exec_connects_right hc, hl, hr, sem, hp,
    grown_right]

theorem exec_insert_grown_left (hp : pred < NUM_SEGMENTS + 2) (hc : curr < NUM_SEGMENTS + 2)
    (hl : ¬(list.right pred + 1 = range.left ∧ INT32_MIN < list.left pred))
    (hr : range.right + 1 = list.left curr ∧ list.left curr < INT32_MAX) :
    exec (lazylist_insert_between pred curr range) list =
      .ok (0, none) (grown_left list range curr) := by
  simp [lazylist_insert_between, exec_connects_left hp, exec_connects_right hc, hl, hr, sem, hc,
    grown_left]

theorem exec_insert_added (hp : pred < NUM_SEGMENTS + 2) (hc : curr < NUM_SEGMENTS + 2)
    (hi : list.idx curr = curr)
    (hl : ¬(list.right pred + 1 = range.left ∧ INT32_MIN < list.left pred))
    (hr : ¬(range.right + 1 = list.left curr ∧ list.left curr < INT32_MAX))
    (hfl : list.free_head_lock = 0) (hn : list.free_head_idx < NUM_SEGMENTS)
    (hni : list.idx list.free_head_idx = list.free_head_idx) :
    exec (lazylist_insert_between pred curr range) list =
      .ok (0, none) (added list range pred curr) := by
  have hn' : list.free_head_idx < NUM_SEGMENTS + 2 := by omega
  simp [lazylist_insert_between, exec_connects_left hp, exec_connects_right hc, hl, hr, sem, hc,
    hp, exec_get_free_node hfl hn', hn, hn', hni, hi, added]

/-- A call that needs a node and finds the free list empty. -/
theorem exec_insert_exhausted (hp : pred < NUM_SEGMENTS + 2) (hc : curr < NUM_SEGMENTS + 2)
    (hl : ¬(list.right pred + 1 = range.left ∧ INT32_MIN < list.left pred))
    (hr : ¬(range.right + 1 = list.left curr ∧ list.left curr < INT32_MAX))
    (hfl : list.free_head_lock = 0) (hn : list.free_head_idx = EOL) :
    exec (lazylist_insert_between pred curr range) list = .undefined := by
  simp [lazylist_insert_between, exec_connects_left hp, exec_connects_right hc, hl, hr,
    exec_get_free_node_empty hfl hn]

/-! ## Locks around a call -/

/-- Both nodes locked. -/
def locked (list : lazylist_t) (pred curr : ℕ) : lazylist_t :=
  { list with lock := update (update list.lock pred 1) curr 1 }

/-- Both nodes unlocked. -/
def unlocked (list : lazylist_t) (pred curr : ℕ) : lazylist_t :=
  { list with lock := update (update list.lock curr 0) pred 0 }

/-- Unlocking gives the locks back as they were before. -/
theorem unlocked_eq {list list' : lazylist_t} (hp : list.lock pred = 0) (hc : list.lock curr = 0)
    (h : ∀ i, i ≠ pred → i ≠ curr → list'.lock i = list.lock i) :
    unlocked list' pred curr = { list' with lock := list.lock } := by
  have hlock : update (update list'.lock curr 0) pred 0 = list.lock := by
    funext i
    by_cases hip : i = pred
    · rw [hip, Function.update_self, hp]
    rw [Function.update_of_ne hip]
    by_cases hic : i = curr
    · rw [hic, Function.update_self, hc]
    · rw [Function.update_of_ne hic, h i hip hic]
  rw [unlocked, hlock]

/-- The two locks of the window touch no other node. -/
theorem locked_lock {i : ℕ} (hip : i ≠ pred) (hic : i ≠ curr) :
    (locked list pred curr).lock i = list.lock i :=
  (Function.update_of_ne hic _ _).trans (Function.update_of_ne hip _ _)

theorem Neighbours.locked (h : Neighbours list pred curr) :
    Neighbours (locked list pred curr) pred curr :=
  { h with }

/-- A turn of `lazylist_insert` whose search ends at two neighbours. -/
theorem exec_insert_turn {fuel turns : ℕ}
    (hf : exec (lazylist_find_pred fuel range) list = .ok (some (pred, curr)) list)
    (h : Neighbours list pred curr) (hp : list.lock pred = 0) (hc : list.lock curr = 0) :
    exec (lazylist_insert_loop fuel range (turns + 1)) list =
      (exec (lazylist_insert_between pred curr range) (locked list pred curr)).bind
        fun r list => exec (lazylist_insert_end r.1 r.2) (unlocked list pred curr) := by
  have hlock : update list.lock pred 1 curr = 0 := by
    rw [Function.update_of_ne h.ne.symm, hc]
  have hv := exec_validate h.locked
  rw [locked] at hv
  simp [lazylist_insert_loop, hf, sem, h.pred_lt', h.curr_lt', hp, hlock, hv, locked, unlocked]

/-- The turn of `lazylist_pop_front` that finds a node to remove. -/
theorem exec_pop_front_turn {front front_next turns : ℕ} {range_left : ℤ}
    (hh : list.head_idx < NUM_SEGMENTS + 2) (hf : list.next_idx list.head_idx = front)
    (h : Neighbours list front front_next)
    (hp : list.lock front = 0) (hc : list.lock front_next = 0)
    (hr : list.left front ≠ INT32_MAX)
    (hs : any_start range_left = true ∨ list.left front = range_left) :
    exec (lazylist_pop_front_loop range_left (turns + 1)) list =
      (exec (lazylist_remove_front list.head_idx front front_next) (locked list front front_next)).bind
        fun r list => (exec (lazylist_put_free_node r.2) (unlocked list front front_next)).bind
          fun _ list => .ok (some r.1) list := by
  -- the two locks are free, and the second is not the first
  have hlock : update list.lock front 1 front_next = 0 := by
    rw [Function.update_of_ne h.ne.symm, hc]
  have hv := exec_validate h.locked
  rw [locked] at hv
  -- the front is the one that was asked for
  have hse : exec (starts_elsewhere front range_left) list = .ok false list := by
    rcases hs with hs | hs <;> by_cases ha : any_start range_left = true <;>
      simp_all [starts_elsewhere, sem, h.pred_lt']
  have hvf : exec (validate_front front front_next range_left) (locked list front front_next) =
      .ok true (locked list front front_next) := by
    rcases hs with hs | hs <;> simp [validate_front, locked, hv, sem, h.pred_lt', hs]
  rw [locked] at hvf
  have hhe : list.head_idx ≠ EOL := Nat.ne_of_lt (hh.trans (by decide))
  simp [lazylist_pop_front_loop, hh, hhe, hf, h.next, hr, hse, sem, h.pred_lt', h.curr_lt',
    hp, hlock, hvf, locked, unlocked]

/-- The first cell is unlinked and marked. -/
def removed (list : lazylist_t) (head front front_next : ℕ) : lazylist_t :=
  { list with
    marks := update list.marks front 1
    next_idx := update list.next_idx head front_next }

/-- The removal returns the range of that cell. -/
theorem exec_remove_front {head front front_next : ℕ} (hh : head < NUM_SEGMENTS + 2)
    (h : Neighbours list front front_next) :
    exec (lazylist_remove_front head front front_next) list =
      .ok (⟨list.left front, list.right front⟩, front) (removed list head front front_next) := by
  simp [lazylist_remove_front, sem, hh, h.pred_lt', h.curr_lt', h.pred_lt, h.idx_pred,
    h.idx_curr, removed]

end Pspin.Lazylist
