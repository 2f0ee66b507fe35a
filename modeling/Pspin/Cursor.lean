/-
Jobs that are done in order, each in several parts.

A cursor says which jobs are done, which are to do, and how many parts of the first of these
are done. A job `a` has the parts `0`, ..., `last a`. Where the jobs are lists of their own,
cut into pieces by `start`, what is left of them all loses one piece with each part.
-/
import Mathlib.Algebra.BigOperators.Group.List.Basic
import Mathlib.Algebra.Order.Ring.Nat
import Mathlib.Tactic.Common

set_option autoImplicit false

/-- A list of things that are carried out one after the other, each in steps: those that are done,
those to come, and the steps that the first of these has had. -/
structure Cursor (α : Type*) where
  done : List α
  todo : List α
  part : ℕ

namespace Cursor

variable {α β : Type*}

def init : Cursor α := ⟨[], [], 0⟩

def all (k : Cursor α) : List α := k.done ++ k.todo

/-- Further jobs. -/
def push (k : Cursor α) (as : List α) : Cursor α := { k with todo := k.todo ++ as }

section Parts

variable (last : α → ℕ)

/-- One more part. -/
def next (k : Cursor α) : Cursor α :=
  match k.todo with
  | [] => k
  | a :: rest =>
    if k.part = last a then ⟨k.done ++ [a], rest, 0⟩ else { k with part := k.part + 1 }

/-- The first one has steps left, and if there is none nothing is begun. -/
structure Ok (k : Cursor α) : Prop where
  le : ∀ a ∈ k.todo.head?, k.part ≤ last a
  nil : k.todo = [] → k.part = 0

/-- The parts that are done. -/
def count (k : Cursor α) : ℕ := (k.done.map fun a => last a + 1).sum + k.part

end Parts

section Rest

variable (f : α → List β) (start : α → ℕ → ℕ)

/-- The elements that are left. -/
def rest (k : Cursor α) : List β :=
  match k.todo with
  | [] => []
  | a :: as => (f a).drop (start a k.part) ++ as.flatMap f

/-- The elements of the next part. -/
def piece (k : Cursor α) : List β :=
  match k.todo with
  | [] => []
  | a :: _ => ((f a).drop (start a k.part)).take (start a (k.part + 1) - start a k.part)

end Rest

/-- The pieces of a job, from the first one to the last one. -/
structure Cuts (last : α → ℕ) (f : α → List β) (start : α → ℕ → ℕ) : Prop where
  zero : ∀ a, start a 0 = 0
  mono : ∀ a j, start a j ≤ start a (j + 1)
  total : ∀ a, start a (last a + 1) = (f a).length

variable {last : α → ℕ} {f : α → List β} {start : α → ℕ → ℕ} {k : Cursor α} {a : α} {rest' as : List α}

theorem init_ok (last : α → ℕ) : (init : Cursor α).Ok last :=
  ⟨fun _ h => absurd h (by simp [init]), fun _ => rfl⟩

theorem Ok.push (h : k.Ok last) (as : List α) : (k.push as).Ok last := by
  refine ⟨fun a ha => ?_, fun hnil => h.nil (List.append_eq_nil_iff.mp hnil).1⟩
  cases htodo : k.todo with
  | nil =>
      change k.part ≤ last a
      rw [h.nil htodo]
      exact Nat.zero_le _
  | cons b rest =>
      refine h.le a ?_
      rw [Cursor.push, htodo] at ha
      rw [htodo]
      exact ha

theorem next_of_lt (htodo : k.todo = a :: rest') (hlt : k.part ≠ last a) :
    k.next last = { k with part := k.part + 1 } := by
  rw [next, htodo]
  exact if_neg hlt

theorem next_of_last (htodo : k.todo = a :: rest') (hlast : k.part = last a) :
    k.next last = ⟨k.done ++ [a], rest', 0⟩ := by
  rw [next, htodo]
  exact if_pos hlast

theorem Ok.next (h : k.Ok last) : (k.next last).Ok last := by
  cases htodo : k.todo with
  | nil =>
      rw [Cursor.next, htodo]
      exact h
  | cons a rest' =>
      have hle := h.le a (by rw [htodo]; rfl)
      by_cases hlast : k.part = last a
      · rw [next_of_last htodo hlast]
        exact ⟨fun _ _ => Nat.zero_le _, fun _ => rfl⟩
      · rw [next_of_lt htodo hlast]
        refine ⟨fun b hb => ?_, fun hnil => absurd (htodo.symm.trans hnil) (by simp)⟩
        have hab : a = b := by simpa [htodo] using hb
        rw [← hab]
        exact Nat.lt_of_le_of_ne hle hlast

/-- Only joining changes what there is to do. -/
theorem all_push (k : Cursor α) (as : List α) : (k.push as).all = k.all ++ as :=
  (List.append_assoc _ _ _).symm

@[simp] theorem all_next (k : Cursor α) : (k.next last).all = k.all := by
  cases htodo : k.todo with
  | nil => rw [next, htodo]
  | cons a rest' =>
      by_cases hlast : k.part = last a
      · rw [next_of_last htodo hlast, all, all, htodo, List.append_assoc]
        rfl
      · rw [next_of_lt htodo hlast]
        rfl

@[simp] theorem count_push (k : Cursor α) (as : List α) : (k.push as).count last = k.count last := rfl

theorem count_next (htodo : k.todo = a :: rest') : (k.next last).count last = k.count last + 1 := by
  by_cases hlast : k.part = last a
  · rw [next_of_last htodo hlast, count, count, List.map_append, List.sum_append, hlast]
    simp
    omega
  · rw [next_of_lt htodo hlast]
    rfl

/-- No more parts are done than there are. -/
theorem Ok.count_le (h : k.Ok last) : k.count last ≤ (k.all.map fun a => last a + 1).sum := by
  rw [count, all, List.map_append, List.sum_append]
  refine Nat.add_le_add_left ?_ _
  cases htodo : k.todo with
  | nil => exact (h.nil htodo).le
  | cons a rest' =>
      rw [List.map_cons, List.sum_cons]
      exact Nat.le_add_right_of_le (Nat.le_succ_of_le (h.le a (by rw [htodo]; rfl)))

/-- What a new job adds. -/
theorem rest_push (h : k.Ok last) (hc : Cuts last f start) (as : List α) :
    (k.push as).rest f start = k.rest f start ++ as.flatMap f := by
  cases htodo : k.todo with
  | nil =>
      have hpart := h.nil htodo
      rw [rest, rest, push, htodo, List.nil_append, hpart]
      cases as with
      | nil => rfl
      | cons a as =>
          dsimp only
          rw [hc.zero, List.drop_zero]
          rfl
  | cons a rest' =>
      rw [rest, rest, push, htodo, List.cons_append]
      dsimp only
      rw [List.flatMap_append, List.append_assoc]

/-- **A part takes its piece off what is left.** -/
theorem rest_next (hc : Cuts last f start) (htodo : k.todo = a :: rest') :
    k.rest f start = k.piece f start ++ (k.next last).rest f start := by
  have hpiece : (f a).drop (start a k.part) =
      k.piece f start ++ (f a).drop (start a (k.part + 1)) := by
    have hmono := hc.mono a k.part
    rw [piece, htodo]
    dsimp only
    rw [show (f a).drop (start a (k.part + 1)) =
      ((f a).drop (start a k.part)).drop (start a (k.part + 1) - start a k.part) by
        rw [List.drop_drop, Nat.add_sub_cancel' hmono], List.take_append_drop]
  by_cases hlast : k.part = last a
  · have hend : (f a).drop (start a (k.part + 1)) = [] := by
      rw [hlast, hc.total, List.drop_length]
    rw [hend, List.append_nil] at hpiece
    have hrest : (⟨k.done ++ [a], rest', 0⟩ : Cursor α).rest f start = rest'.flatMap f := by
      cases rest' with
      | nil => rfl
      | cons b bs =>
          rw [rest]
          dsimp only
          rw [hc.zero, List.drop_zero]
          rfl
    rw [next_of_last htodo hlast, hrest, rest, htodo]
    dsimp only
    rw [hpiece]
  · rw [next_of_lt htodo hlast, rest, htodo]
    dsimp only
    rw [hpiece, List.append_assoc, rest]

@[simp] theorem rest_init : (init : Cursor α).rest f start = [] := rfl

end Cursor
