/-
`fifo_v3` of the common cells, without fall-through and without flush.

A memory, two pointers and a count. `elems` reads the contents off in order; a cycle
takes the head out and appends the new element (`elems_step`). Callers see the FIFO as
that list.

The pointers wrap by a comparison in 32 bits, or, where `DEPTH` is a power of two, by
their own width.
-/
import Mathlib.Data.List.Range
import Mathlib.Data.Nat.Log
import Mathlib.Data.Nat.ModEq
import Mathlib.Logic.Function.Basic
import Mathlib.Tactic.Common
import Pspin.Counter

set_option autoImplicit false

namespace Pspin.FifoV3

variable {α : Type*} (DEPTH : ℕ)

/-- `ADDR_DEPTH`, the width of the pointers. -/
def ADDR_DEPTH : ℕ := if 1 < DEPTH then Nat.clog 2 DEPTH else 1

/-- The pointers, the count and the memory. -/
structure State (α : Type*) where
  read_pointer_q : ℕ
  write_pointer_q : ℕ
  status_cnt_q : ℕ
  mem_q : ℕ → α

/-- The input ports in one cycle. -/
structure Input (α : Type*) where
  data_i : α
  push_i : Bool
  pop_i : Bool

/-- After reset the memory holds the zero of its type. -/
def reset (zero : α) : State α := ⟨0, 0, 0, fun _ => zero⟩

/-- The comparison is as wide as the counter. -/
def full_o (s : State α) : Bool := s.status_cnt_q == DEPTH % 2 ^ (ADDR_DEPTH DEPTH + 1)

/-- Nothing is in the FIFO. -/
def empty_o (s : State α) : Bool := s.status_cnt_q == 0

/-- The element at the read pointer, whether or not there is one. -/
def data_o (s : State α) : α := s.mem_q s.read_pointer_q

/-- The count without its top bit: a full FIFO may show 0. -/
def usage_o (s : State α) : ℕ := s.status_cnt_q % 2 ^ ADDR_DEPTH DEPTH

/-- A pointer moves on. -/
def next_pointer (ptr : ℕ) : ℕ :=
  if ptr = (DEPTH % 2 ^ ADDR_DEPTH DEPTH + 2 ^ 32 - 1) % 2 ^ 32 then 0
  else (ptr + 1) % 2 ^ ADDR_DEPTH DEPTH

/-- A push counts only when there is room. -/
def pushing (s : State α) (i : Input α) : Bool := i.push_i && !full_o DEPTH s

def popping (s : State α) (i : Input α) : Bool := i.pop_i && !empty_o s

def step (s : State α) (i : Input α) : State α where
  read_pointer_q := if popping s i then next_pointer DEPTH s.read_pointer_q else s.read_pointer_q
  write_pointer_q :=
    if pushing DEPTH s i then next_pointer DEPTH s.write_pointer_q else s.write_pointer_q
  status_cnt_q :=
    if pushing DEPTH s i && popping s i then s.status_cnt_q
    else if popping s i then Counter.dec (ADDR_DEPTH DEPTH + 1) s.status_cnt_q
    else if pushing DEPTH s i then Counter.inc (ADDR_DEPTH DEPTH + 1) s.status_cnt_q
    else s.status_cnt_q
  mem_q := if pushing DEPTH s i then Function.update s.mem_q s.write_pointer_q i.data_i else s.mem_q

/-- The contents, the head first. -/
def elems (s : State α) : List α :=
  (List.range s.status_cnt_q).map fun k => s.mem_q ((s.read_pointer_q + k) % DEPTH)

/-! ## Pointers -/

variable {DEPTH}

theorem le_two_pow (hD : 0 < DEPTH) : DEPTH ≤ 2 ^ ADDR_DEPTH DEPTH := by
  unfold ADDR_DEPTH
  split_ifs with h
  · exact Nat.le_pow_clog (by decide) DEPTH
  · omega

/-- A pointer runs over `[0, DEPTH)` and wraps. -/
theorem next_pointer_eq {ptr : ℕ} (h : ptr < DEPTH) (hD : DEPTH < 2 ^ 32) :
    next_pointer DEPTH ptr = (ptr + 1) % DEPTH := by
  have hpow : DEPTH ≤ 2 ^ ADDR_DEPTH DEPTH := le_two_pow (by omega)
  unfold next_pointer
  rcases Nat.lt_or_ge DEPTH (2 ^ ADDR_DEPTH DEPTH) with hlt | hge
  · have hlast : (DEPTH % 2 ^ ADDR_DEPTH DEPTH + 2 ^ 32 - 1) % 2 ^ 32 = DEPTH - 1 := by
      rw [Nat.mod_eq_of_lt hlt]
      omega
    rw [hlast]
    split_ifs with hp
    · rw [hp, Nat.sub_add_cancel (by omega), Nat.mod_self]
    · rw [Nat.mod_eq_of_lt (by omega), Nat.mod_eq_of_lt (by omega)]
  · -- a power of two: the comparison never holds, the width wraps
    have heq : DEPTH = 2 ^ ADDR_DEPTH DEPTH := by omega
    rw [if_neg, ← heq]
    rw [← heq, Nat.mod_self]
    omega

/-! ## The list view -/

/-- The pointers are as far apart as the count says. -/
structure Inv (DEPTH : ℕ) (s : State α) : Prop where
  read_lt : s.read_pointer_q < DEPTH
  write_eq : s.write_pointer_q = (s.read_pointer_q + s.status_cnt_q) % DEPTH
  cnt_le : s.status_cnt_q ≤ DEPTH
  depth_lt : DEPTH < 2 ^ 32

variable {s : State α} {i : Input α}

/-- The fields after a cycle: the read pointer. -/
theorem step_read : (step DEPTH s i).read_pointer_q
    = if popping s i then next_pointer DEPTH s.read_pointer_q else s.read_pointer_q := rfl

theorem step_write : (step DEPTH s i).write_pointer_q
    = if pushing DEPTH s i then next_pointer DEPTH s.write_pointer_q else s.write_pointer_q := rfl

theorem step_mem : (step DEPTH s i).mem_q
    = if pushing DEPTH s i then Function.update s.mem_q s.write_pointer_q i.data_i
      else s.mem_q := rfl

theorem inv_reset (zero : α) (h0 : 0 < DEPTH) (hD : DEPTH < 2 ^ 32) : Inv DEPTH (reset zero) :=
  ⟨h0, (Nat.zero_mod DEPTH).symm, Nat.zero_le _, hD⟩

@[simp] theorem length_elems (s : State α) : (elems DEPTH s).length = s.status_cnt_q := by
  rw [elems, List.length_map, List.length_range]

theorem empty_o_iff : empty_o s = true ↔ elems DEPTH s = [] := by
  rw [empty_o, beq_iff_eq, ← List.length_eq_zero_iff, length_elems]

/-- A caller that does not push into a full FIFO pushes whenever it says so. -/
theorem pushing_eq (h : i.push_i = true → full_o DEPTH s = false) : pushing DEPTH s i = i.push_i := by
  by_cases hp : i.push_i = true
  · rw [pushing, h hp, hp]
    rfl
  · rw [pushing, Bool.eq_false_of_not_eq_true hp, Bool.false_and]

/-- The same for a caller that does not pop an empty FIFO. -/
theorem popping_eq (h : i.pop_i = true → empty_o s = false) : popping s i = i.pop_i := by
  by_cases hp : i.pop_i = true
  · rw [popping, h hp, hp]
    rfl
  · rw [popping, Bool.eq_false_of_not_eq_true hp, Bool.false_and]

namespace Inv

theorem full_o_iff (h : Inv DEPTH s) : full_o DEPTH s = true ↔ (elems DEPTH s).length = DEPTH := by
  have hpos : 0 < DEPTH := Nat.zero_lt_of_lt h.read_lt
  have hpow := le_two_pow hpos
  have hlt : DEPTH < 2 ^ (ADDR_DEPTH DEPTH + 1) := by
    rw [Nat.pow_succ]
    omega
  rw [full_o, beq_iff_eq, Nat.mod_eq_of_lt hlt, length_elems]

/-- The data output shows the head. -/
theorem data_o_eq (h : Inv DEPTH s) {x : α} (hx : (elems DEPTH s).head? = some x) :
    data_o s = x := by
  unfold elems at hx
  rw [List.head?_map] at hx
  obtain ⟨k, hk, rfl⟩ := Option.map_eq_some_iff.mp hx
  have hk0 : k = 0 := by
    rw [List.head?_range] at hk
    split_ifs at hk
    exact (Option.some.inj hk).symm
  rw [hk0, Nat.add_zero, Nat.mod_eq_of_lt h.read_lt, data_o]

theorem not_empty (hp : popping s i = true) : 0 < s.status_cnt_q := by
  rw [popping, Bool.and_eq_true, Bool.not_eq_true', empty_o, beq_eq_false_iff_ne] at hp
  exact Nat.pos_of_ne_zero hp.2

theorem not_full (h : Inv DEPTH s) (hp : pushing DEPTH s i = true) : s.status_cnt_q < DEPTH := by
  rw [pushing, Bool.and_eq_true, Bool.not_eq_true', Bool.eq_false_iff, Ne, h.full_o_iff,
    length_elems] at hp
  have := h.cnt_le
  omega

/-- The count follows the pushes and pops. -/
theorem cnt_step (h : Inv DEPTH s) (i : Input α) :
    (step DEPTH s i).status_cnt_q + (if popping s i then 1 else 0)
      = s.status_cnt_q + if pushing DEPTH s i then 1 else 0 := by
  have hpos : 0 < DEPTH := Nat.zero_lt_of_lt h.read_lt
  have hpow := le_two_pow hpos
  have hle := h.cnt_le
  have hpop := not_empty (s := s) (i := i)
  have hpush := h.not_full (i := i)
  -- the counter has a bit more than the depth needs, so it does not wrap
  have hw : DEPTH < 2 ^ (ADDR_DEPTH DEPTH + 1) := by
    rw [Nat.pow_succ]
    omega
  unfold step
  generalize popping s i = pop at hpop ⊢
  generalize pushing DEPTH s i = push at hpush ⊢
  -- pop and push, one of them, or none
  cases pop
  · cases push
    · rfl
    · exact Counter.inc_eq (lt_of_le_of_lt (hpush rfl) hw)
  · have hcnt := hpop rfl
    cases push
    · simp only [Bool.false_and, Bool.false_eq_true, if_false, if_true]
      rw [Counter.dec_eq hcnt (by omega)]
      omega
    · rfl

/-- Every cycle keeps the invariant, whatever comes. -/
theorem step (h : Inv DEPTH s) (i : Input α) : Inv DEPTH (step DEPTH s i) := by
  have hpos : 0 < DEPTH := Nat.zero_lt_of_lt h.read_lt
  have hcnt := h.cnt_step i
  have hwlt : s.write_pointer_q < DEPTH := h.write_eq ▸ Nat.mod_lt _ hpos
  have hread : (FifoV3.step DEPTH s i).read_pointer_q
      = (s.read_pointer_q + if popping s i then 1 else 0) % DEPTH := by
    rw [step_read]
    split_ifs
    · exact next_pointer_eq h.read_lt h.depth_lt
    · exact (Nat.mod_eq_of_lt h.read_lt).symm
  have hwrite : (FifoV3.step DEPTH s i).write_pointer_q
      = (s.write_pointer_q + if pushing DEPTH s i then 1 else 0) % DEPTH := by
    rw [step_write]
    split_ifs
    · exact next_pointer_eq hwlt h.depth_lt
    · exact (Nat.mod_eq_of_lt hwlt).symm
  refine ⟨?_, ?_, ?_, h.depth_lt⟩
  · rw [hread]
    exact Nat.mod_lt _ hpos
  · -- both pointers move on the same circle
    rw [hread, hwrite, h.write_eq, Nat.mod_add_mod, Nat.mod_add_mod]
    congr 1
    omega
  · have hle := h.cnt_le
    have hpush := h.not_full (i := i)
    split_ifs at hcnt with _ hp hp
    · have := hpush hp
      omega
    · omega
    · have := hpush hp
      omega
    · omega

/-- **A cycle of the FIFO.** The head goes, the new element comes last. -/
theorem elems_step (h : Inv DEPTH s) (i : Input α) : elems DEPTH (FifoV3.step DEPTH s i)
    = (if popping s i then (elems DEPTH s).tail else elems DEPTH s)
      ++ if pushing DEPTH s i then [i.data_i] else [] := by
  have hpos : 0 < DEPTH := Nat.zero_lt_of_lt h.read_lt
  have hcnt := h.cnt_step i
  have hpop := not_empty (s := s) (i := i)
  have hpush := h.not_full (i := i)
  -- first the memory and the write side, seen from the old read pointer
  have hmem : ∀ k < s.status_cnt_q, (FifoV3.step DEPTH s i).mem_q ((s.read_pointer_q + k) % DEPTH)
      = s.mem_q ((s.read_pointer_q + k) % DEPTH) := by
    intro k hk
    rw [step_mem]
    split_ifs with hp
    · rw [Function.update_of_ne]
      rw [h.write_eq]
      intro heq
      have hfull := hpush hp
      have := Nat.ModEq.add_left_cancel' s.read_pointer_q heq
      rw [Nat.ModEq, Nat.mod_eq_of_lt (by omega), Nat.mod_eq_of_lt hfull] at this
      omega
    · rfl
  have hnew : pushing DEPTH s i = true → (FifoV3.step DEPTH s i).mem_q
      ((s.read_pointer_q + s.status_cnt_q) % DEPTH) = i.data_i := by
    intro hp
    rw [step_mem, if_pos hp, h.write_eq, Function.update_self]
  have hold : (List.range s.status_cnt_q).map
        (fun k => (FifoV3.step DEPTH s i).mem_q ((s.read_pointer_q + k) % DEPTH))
      = elems DEPTH s := by
    apply List.map_congr_left
    intro k hk
    exact hmem k (List.mem_range.mp hk)
  have hlong : (List.range (s.status_cnt_q + if pushing DEPTH s i then 1 else 0)).map
        (fun k => (FifoV3.step DEPTH s i).mem_q ((s.read_pointer_q + k) % DEPTH))
      = elems DEPTH s ++ if pushing DEPTH s i then [i.data_i] else [] := by
    split_ifs with hp
    · rw [List.range_succ, List.map_append, hold, List.map_singleton, hnew hp]
    · rw [Nat.add_zero, hold, List.append_nil]
  by_cases hp : popping s i = true
  · have hread : (FifoV3.step DEPTH s i).read_pointer_q = (s.read_pointer_q + 1) % DEPTH := by
      rw [step_read, if_pos hp]
      exact next_pointer_eq h.read_lt h.depth_lt
    have hne : elems DEPTH s ≠ [] := by
      rw [← List.length_pos_iff, length_elems]
      exact hpop hp
    rw [if_pos hp] at hcnt
    rw [if_pos hp, ← List.tail_append_of_ne_nil hne, ← hlong, ← hcnt, List.range_succ_eq_map,
      List.map_cons, List.tail_cons, List.map_map, elems, hread]
    apply List.map_congr_left
    intro k _
    rw [Function.comp_apply, Nat.mod_add_mod]
    congr 2
    omega
  · have hread : (FifoV3.step DEPTH s i).read_pointer_q = s.read_pointer_q := by
      rw [step_read, if_neg hp]
    rw [if_neg hp, Nat.add_zero] at hcnt
    rw [if_neg hp, ← hlong, ← hcnt, elems, hread]

/-- The cycle for a caller that looks at `full_o` and `empty_o` first. -/
theorem elems_step_of (h : Inv DEPTH s) (hpush : i.push_i = true → full_o DEPTH s = false)
    (hpop : i.pop_i = true → empty_o s = false) : elems DEPTH (FifoV3.step DEPTH s i)
      = (if i.pop_i then (elems DEPTH s).tail else elems DEPTH s)
        ++ if i.push_i then [i.data_i] else [] := by
  rw [h.elems_step, pushing_eq hpush, popping_eq hpop]

/-- The head of a FIFO that is not empty. -/
theorem elems_eq_cons (h : Inv DEPTH s) (he : empty_o s = false) :
    elems DEPTH s = data_o s :: (elems DEPTH s).tail := by
  have hne : elems DEPTH s ≠ [] := by
    rw [Bool.eq_false_iff, Ne, empty_o_iff] at he
    exact he
  obtain ⟨x, rest, hcons⟩ := List.exists_cons_of_ne_nil hne
  have hdata : data_o s = x := by
    apply h.data_o_eq
    rw [hcons, List.head?_cons]
  rw [hcons, hdata, List.tail_cons]

/-- The same cycle as a queue: what leaves, before what stays. -/
theorem queue_step (h : Inv DEPTH s) (hpush : i.push_i = true → full_o DEPTH s = false)
    (hpop : i.pop_i = true → empty_o s = false) :
    (if i.pop_i then [data_o s] else []) ++ elems DEPTH (FifoV3.step DEPTH s i)
      = elems DEPTH s ++ if i.push_i then [i.data_i] else [] := by
  rw [h.elems_step_of hpush hpop, ← List.append_assoc]
  congr 1
  by_cases hp : i.pop_i = true
  · rw [if_pos hp, if_pos hp]
    exact (h.elems_eq_cons (hpop hp)).symm
  · rw [if_neg hp, if_neg hp]
    rfl

/-- A FIFO between requests and what is done about them. What was done is `done`, and the
elements are the requests that wait. -/
theorem served_step {β γ : Type*} {f : β → γ} {g : α → γ} {asked : List β} {done : List γ} {b : β}
    (h : Inv DEPTH s) (hq : done ++ (elems DEPTH s).map g = asked.map f)
    (hpush : i.push_i = true → full_o DEPTH s = false) (hpop : i.pop_i = true → empty_o s = false)
    (hdata : i.push_i = true → g i.data_i = f b) :
    (done ++ if i.pop_i then [g (data_o s)] else []) ++ (elems DEPTH (FifoV3.step DEPTH s i)).map g
      = (asked ++ if i.push_i then [b] else []).map f := by
  have hleft : (if i.pop_i then [g (data_o s)] else [])
      = (if i.pop_i then [data_o s] else []).map g := by
    split_ifs <;> rfl
  have hnew : (if i.push_i then [b] else []).map f = (if i.push_i then [i.data_i] else []).map g := by
    split_ifs with hp
    · rw [List.map_singleton, List.map_singleton, hdata hp]
    · rfl
  rw [List.append_assoc, hleft, ← List.map_append, h.queue_step hpush hpop, List.map_append,
    ← List.append_assoc, hq, List.map_append, hnew]

end Inv

end Pspin.FifoV3
