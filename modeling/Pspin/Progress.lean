/-
Requests that are answered in order, each in several parts.

A request `a` has `parts a` parts. The answers come one part at a time, all of the oldest
request before the next one, so the number of answers so far says everything: which request
the next part belongs to (`place`), and what a queue holds that keeps an entry for every
request not yet complete and changes only the first one (`queue_at`).

Requests, parts and entries are arbitrary.
-/
import Mathlib.Algebra.BigOperators.Group.List.Basic
import Mathlib.Algebra.Order.Ring.Nat
import Mathlib.Tactic.Common

set_option autoImplicit false

namespace Progress

section

variable {α ε : Type*} (parts : α → ℕ) (entry : α → ℕ → ε)

/-- All parts of the requests. -/
def total (requests : List α) : ℕ := (requests.map parts).sum

/-- The request that the answer after `r` belongs to, with the number of its part. -/
def place : List α → ℕ → Option (α × ℕ)
  | [], _ => none
  | a :: rest, r => if r < parts a then some (a, r) else place rest (r - parts a)

/-- The entries after `r` answers: the first request has some, the others none. -/
def queue_at : List α → ℕ → List ε
  | [], _ => []
  | a :: rest, r =>
    if r < parts a then entry a r :: rest.map fun b => entry b 0 else queue_at rest (r - parts a)

variable {parts entry} {requests : List α} {a : α} {q r : ℕ}

theorem total_cons : total parts (a :: requests) = parts a + total parts requests := List.sum_cons

theorem total_append_singleton : total parts (requests ++ [a]) = total parts requests + parts a := by
  simp [total]

theorem total_le_of_prefix {requests' : List α} (h : requests <+: requests') :
    total parts requests ≤ total parts requests' := by
  obtain ⟨rest, rfl⟩ := h
  simp [total]

/-! ## Places -/

theorem place_isSome_iff : (place parts requests r).isSome = true ↔ r < total parts requests := by
  induction requests generalizing r with
  | nil => simp [place, total]
  | cons a rest ih =>
      rw [place, total_cons]
      split_ifs with hr
      · exact iff_of_true rfl (by omega)
      · rw [ih]
        omega

theorem place_of_lt (h : r < total parts requests) : ∃ a q, place parts requests r = some (a, q) := by
  obtain ⟨⟨a, q⟩, hx⟩ := Option.isSome_iff_exists.mp (place_isSome_iff.mpr h)
  exact ⟨a, q, hx⟩

theorem lt_parts_of_place (h : place parts requests r = some (a, q)) : q < parts a := by
  induction requests generalizing r with
  | nil => exact absurd h (by simp [place])
  | cons b rest ih =>
      rw [place] at h
      split_ifs at h with hr
      · obtain ⟨rfl, rfl⟩ := Prod.mk.inj (Option.some.inj h)
        exact hr
      · exact ih h

theorem mem_of_place (h : place parts requests r = some (a, q)) : a ∈ requests := by
  induction requests generalizing r with
  | nil => exact absurd h (by simp [place])
  | cons b rest ih =>
      rw [place] at h
      split_ifs at h with hr
      · obtain ⟨rfl, rfl⟩ := Prod.mk.inj (Option.some.inj h)
        exact List.mem_cons_self
      · exact List.mem_cons_of_mem _ (ih h)

/-- A later request changes no place. -/
theorem place_append {more : List α} (h : r < total parts requests) :
    place parts (requests ++ more) r = place parts requests r := by
  induction requests generalizing r with
  | nil => exact absurd h (Nat.not_lt_zero r)
  | cons b rest ih =>
      rw [total_cons] at h
      rw [List.cons_append, place, place]
      split_ifs with hr
      · rfl
      · exact ih (by omega)

/-- **Where the parts of a request are.** -/
theorem place_start {j : ℕ} (h : requests[j]? = some a) (hq : q < parts a) :
    place parts requests (total parts (requests.take j) + q) = some (a, q) := by
  induction requests generalizing j with
  | nil => exact absurd h (by simp)
  | cons b rest ih =>
      cases j with
      | zero =>
          obtain rfl : b = a := Option.some.inj h
          rw [place, List.take_zero, total, List.map_nil, List.sum_nil, Nat.zero_add, if_pos hq]
      | succ j =>
          rw [List.take_succ_cons, total_cons, place, if_neg (by omega), Nat.add_assoc,
            Nat.add_sub_cancel_left]
          exact ih h

/-- A list that has the parts of all requests has each at its place. -/
theorem getElem?_flatMap {β : Type*} {f : α → List β}
    (hf : ∀ a ∈ requests, (f a).length = parts a) :
    (requests.flatMap f)[r]? = (place parts requests r).bind fun x => (f x.1)[x.2]? := by
  induction requests generalizing r with
  | nil => rfl
  | cons b rest ih =>
      obtain ⟨hb, hrest⟩ := List.forall_mem_cons.mp hf
      rw [List.flatMap_cons, place]
      split_ifs with hr
      · rw [List.getElem?_append_left (by omega)]
        rfl
      · rw [List.getElem?_append_right (by omega), hb, ih hrest]

theorem length_flatMap {β : Type*} {f : α → List β}
    (hf : ∀ a ∈ requests, (f a).length = parts a) :
    (requests.flatMap f).length = total parts requests := by
  rw [List.length_flatMap, total, List.map_congr_left hf]

/-- The parts of one request. -/
theorem flatMap_slice {β : Type*} {f : α → List β} (hf : ∀ a ∈ requests, (f a).length = parts a)
    {j : ℕ} (h : requests[j]? = some a) :
    ((requests.flatMap f).drop (total parts (requests.take j))).take (parts a) = f a := by
  induction requests generalizing j with
  | nil => exact absurd h (by simp)
  | cons b rest ih =>
      obtain ⟨hb, hrest⟩ := List.forall_mem_cons.mp hf
      cases j with
      | zero =>
          obtain rfl : b = a := Option.some.inj h
          rw [List.take_zero, total, List.map_nil, List.sum_nil, List.drop_zero, List.flatMap_cons,
            ← hb, List.take_left]
      | succ j =>
          rw [List.take_succ_cons, total_cons, List.flatMap_cons, ← hb, List.drop_length_add_append]
          exact ih hrest h

/-! ## The queue -/

theorem queue_at_zero (hpos : ∀ a ∈ requests, 0 < parts a) :
    queue_at parts entry requests 0 = requests.map fun b => entry b 0 := by
  cases requests with
  | nil => rfl
  | cons b rest => rw [queue_at, if_pos (hpos b List.mem_cons_self), List.map_cons]

/-- Nothing is left after the last answer. -/
theorem queue_at_of_le (entry : α → ℕ → ε) (h : total parts requests ≤ r) :
    queue_at parts entry requests r = [] := by
  induction requests generalizing r with
  | nil => rfl
  | cons b rest ih =>
      rw [total_cons] at h
      rw [queue_at, if_neg (by omega)]
      exact ih (by omega)

/-- **A request** is put behind the others. -/
theorem queue_at_append (ha : 0 < parts a) (h : r ≤ total parts requests) :
    queue_at parts entry (requests ++ [a]) r = queue_at parts entry requests r ++ [entry a 0] := by
  induction requests generalizing r with
  | nil =>
      obtain rfl : r = 0 := Nat.le_zero.mp h
      show queue_at parts entry [a] 0 = [entry a 0]
      rw [queue_at, if_pos ha]
      rfl
  | cons b rest ih =>
      rw [total_cons] at h
      rw [List.cons_append, queue_at, queue_at]
      split_ifs with hr
      · simp
      · exact ih (by omega)

/-- **An answer** changes the first entry, or takes it off the queue. -/
theorem queue_at_succ (entry : α → ℕ → ε) (hpos : ∀ a ∈ requests, 0 < parts a)
    (h : place parts requests r = some (a, q)) : ∃ rest,
    queue_at parts entry requests r = entry a q :: rest
      ∧ queue_at parts entry requests (r + 1)
        = if q + 1 = parts a then rest else entry a (q + 1) :: rest := by
  induction requests generalizing r with
  | nil => exact absurd h (by simp [place])
  | cons b rest ih =>
      obtain ⟨hb, hrest⟩ := List.forall_mem_cons.mp hpos
      rw [place] at h
      split_ifs at h with hr
      · obtain ⟨rfl, rfl⟩ := Prod.mk.inj (Option.some.inj h)
        refine ⟨_, by rw [queue_at, if_pos hr], ?_⟩
        rw [queue_at]
        by_cases hlast : r + 1 = parts b
        · rw [if_neg (by omega), if_pos hlast, hlast, Nat.sub_self, queue_at_zero hrest]
        · rw [if_pos (by omega), if_neg hlast]
      · obtain ⟨l, hnow, hnext⟩ := ih hrest h
        refine ⟨l, by rw [queue_at, if_neg hr, hnow], ?_⟩
        rw [queue_at, if_neg (by omega), ← hnext]
        congr 1
        omega

end

end Progress
