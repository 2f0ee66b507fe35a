/-
`spill_register` of the common cells, which cuts both directions of a handshake.

Two registers: an element comes in through A and moves on to B when the other side does
not take it at once. `elems` is what the two hold, the older one first. A cycle takes the
element that is offered and appends the one that comes in (`elems_step`), so the register
is a queue of two places.
-/
import Mathlib.Data.Bool.Basic
import Mathlib.Tactic.Common

set_option autoImplicit false

namespace Pspin.SpillRegister

variable {α : Type*}

/-- Two registers: `a` takes what comes in, `b` what cannot leave at once. -/
structure State (α : Type*) where
  a_data_q : α
  a_full_q : Bool
  b_data_q : α
  b_full_q : Bool

/-- The input ports in one cycle. -/
structure Input (α : Type*) where
  valid_i : Bool
  data_i : α
  ready_i : Bool

/-- After reset both are empty. -/
def reset (zero : α) : State α := ⟨zero, false, zero, false⟩

def ready_o (s : State α) : Bool := !s.a_full_q || !s.b_full_q

def valid_o (s : State α) : Bool := s.a_full_q || s.b_full_q

/-- The register is emptied before the slice: B goes first. -/
def data_o (s : State α) : α := if s.b_full_q then s.b_data_q else s.a_data_q

def a_fill (s : State α) (i : Input α) : Bool := i.valid_i && ready_o s

def a_drain (s : State α) : Bool := s.a_full_q && !s.b_full_q

/-- `b` takes what the output does not. -/
def b_fill (s : State α) (i : Input α) : Bool := a_drain s && !i.ready_i

def b_drain (s : State α) (i : Input α) : Bool := s.b_full_q && i.ready_i

def step (s : State α) (i : Input α) : State α where
  a_data_q := if a_fill s i then i.data_i else s.a_data_q
  a_full_q := if a_fill s i || a_drain s then a_fill s i else s.a_full_q
  b_data_q := if b_fill s i then s.a_data_q else s.b_data_q
  b_full_q := if b_fill s i || b_drain s i then b_fill s i else s.b_full_q

/-- The contents, the oldest first. -/
def elems (s : State α) : List α :=
  (if s.b_full_q then [s.b_data_q] else []) ++ if s.a_full_q then [s.a_data_q] else []

/-! ## The queue -/

variable {s : State α} {i : Input α}

/-- What comes in. -/
def accepts (s : State α) (i : Input α) : List α := if i.valid_i && ready_o s then [i.data_i] else []

/-- What leaves. -/
def offers (s : State α) (i : Input α) : List α := if valid_o s && i.ready_i then [data_o s] else []

@[simp] theorem elems_reset (zero : α) : elems (reset zero) = [] := rfl

/-- An element is offered when there is one. -/
theorem valid_o_iff : valid_o s = true ↔ elems s ≠ [] := by
  unfold valid_o elems
  cases s.a_full_q <;> cases s.b_full_q <;> simp

/-- What is offered is the oldest element. -/
theorem head_elems (h : valid_o s = true) : (elems s).head? = some (data_o s) := by
  unfold elems data_o
  by_cases hb : s.b_full_q = true
  · rw [if_pos hb, if_pos hb]
    rfl
  · rw [valid_o, Bool.eq_false_of_not_eq_true hb, Bool.or_false] at h
    rw [if_neg hb, if_neg hb, if_pos h]
    rfl

/-- **A cycle of the queue.** -/
theorem elems_step (s : State α) (i : Input α) :
    offers s i ++ elems (step s i) = elems s ++ accepts s i := by
  unfold offers accepts elems step a_fill b_fill b_drain a_drain ready_o valid_o data_o
  -- which registers are full, and whether both sides shake hands
  cases s.a_full_q <;> cases s.b_full_q <;> cases i.valid_i <;> cases i.ready_i <;> rfl

/-- Where the other side is always ready, nothing is ever refused. -/
theorem ready_o_of_not_b (h : s.b_full_q = false) : ready_o s = true := by
  rw [ready_o, h]
  exact Bool.or_true _

/-- And everything that came in leaves in the next cycle. -/
theorem offers_all (hb : s.b_full_q = false) (hr : i.ready_i = true) : offers s i = elems s := by
  unfold offers elems valid_o data_o
  rw [hb, hr]
  cases s.a_full_q <;> rfl

/-- Behind an output that is always ready `b` is never used. -/
theorem b_full_step (hb : s.b_full_q = false) (hr : i.ready_i = true) :
    (step s i).b_full_q = false := by
  show (if b_fill s i || b_drain s i then b_fill s i else s.b_full_q) = false
  rw [b_fill, b_drain, hr, hb, Bool.not_true, Bool.and_false]
  rfl

end Pspin.SpillRegister
