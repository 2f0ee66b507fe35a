/-
A stream of bytes, each with its address, dealt out to `W` lanes.

A byte goes to the lane that its address has modulo `W`. Bytes whose lanes differ can be put
on their lanes at once, and taken off at once: if none of their lanes is empty, the first
bytes of these lanes are the first bytes of the stream.
-/
import Mathlib.Algebra.Order.Ring.Nat
import Mathlib.Data.List.Nodup
import Mathlib.Data.List.Range
import Mathlib.Data.Nat.ModEq
import Mathlib.Tactic.Common

set_option autoImplicit false

namespace ByteLanes

variable {D : Type*} {W : ℕ}

/-- What is on lane `l`, in the order of the stream. -/
def lane (W : ℕ) (q : List (ℕ × D)) (l : ℕ) : List D :=
  (q.filter fun e => e.1 % W = l).map Prod.snd

/-- No two of the addresses share a lane. -/
def Apart (W : ℕ) (addrs : List ℕ) : Prop := (addrs.map (· % W)).Nodup

variable {q q' front rest rest' : List (ℕ × D)} {addrs : List ℕ} {a b l n : ℕ} {v : D}

@[simp] theorem lane_nil (W l : ℕ) : lane W ([] : List (ℕ × D)) l = [] := rfl

theorem lane_append (q q' : List (ℕ × D)) (l : ℕ) : lane W (q ++ q') l = lane W q l ++ lane W q' l := by
  rw [lane, List.filter_append, List.map_append]
  rfl

theorem lane_cons_of_eq (h : a % W = l) : lane W ((a, v) :: q) l = v :: lane W q l := by
  rw [lane, List.filter_cons_of_pos (by simpa using h), List.map_cons]
  rfl

theorem lane_cons_of_ne (h : a % W ≠ l) : lane W ((a, v) :: q) l = lane W q l := by
  rw [lane, List.filter_cons_of_neg (by simpa using h)]
  rfl

theorem lane_eq_nil_iff : lane W q l = [] ↔ ∀ e ∈ q, e.1 % W ≠ l := by
  rw [lane, List.map_eq_nil_iff, List.filter_eq_nil_iff]
  simp

/-- Fewer than `W` addresses in a row are apart. -/
theorem apart_range' (h : n ≤ W) : Apart W (List.range' a n) := by
  refine List.Nodup.map_on (fun x hx y hy hxy => ?_) List.nodup_range'
  obtain ⟨hx, hx'⟩ := List.mem_range'_1.mp hx
  obtain ⟨hy, hy'⟩ := List.mem_range'_1.mp hy
  rcases Nat.le_total x y with hle | hle
  · have hdvd := (Nat.modEq_iff_dvd' hle).mp hxy
    have := Nat.eq_zero_of_dvd_of_lt hdvd (by omega)
    omega
  · have hdvd := (Nat.modEq_iff_dvd' hle).mp (Eq.symm hxy)
    have := Nat.eq_zero_of_dvd_of_lt hdvd (by omega)
    omega

/-- One byte for each of its lanes. -/
theorem lane_of_mem (h : Apart W (q.map Prod.fst)) (he : (a, v) ∈ q) (hl : a % W = l) :
    lane W q l = [v] := by
  induction q with
  | nil => exact absurd he List.not_mem_nil
  | cons e q ih =>
      obtain ⟨b, u⟩ := e
      rw [Apart, List.map_cons, List.map_cons, List.nodup_cons] at h
      rcases List.mem_cons.mp he with heq | he
      · rw [Prod.mk.injEq] at heq
        obtain ⟨rfl, rfl⟩ := heq
        rw [lane_cons_of_eq hl, lane_eq_nil_iff.mpr]
        intro e hmem heq
        exact h.1 (List.mem_map.mpr ⟨e.1, List.mem_map_of_mem hmem, heq.trans hl.symm⟩)
      · rw [lane_cons_of_ne, ih h.2 he]
        intro heq
        exact h.1 (List.mem_map.mpr ⟨a, List.mem_map.mpr ⟨(a, v), he, rfl⟩, hl.trans heq.symm⟩)

theorem length_lane_le (h : Apart W (q.map Prod.fst)) (l : ℕ) : (lane W q l).length ≤ 1 := by
  by_cases hmem : ∃ e ∈ q, e.1 % W = l
  · obtain ⟨⟨a, v⟩, he, hl⟩ := hmem
    rw [lane_of_mem h he hl]
    exact le_rfl
  · rw [lane_eq_nil_iff.mpr fun e he hl => hmem ⟨e, he, hl⟩]
    exact Nat.zero_le _

/-- **If the lanes of the next addresses are not empty, the stream has these bytes.** -/
theorem front_of_lanes {next : List ℕ} (h : q.map Prod.fst ++ addrs = next)
    (hn : n ≤ next.length) (hapart : Apart W (next.take n))
    (hlanes : ∀ a ∈ next.take n, lane W q (a % W) ≠ []) : (q.take n).map Prod.fst = next.take n := by
  have hlen : n ≤ q.length := by
    by_contra hlt
    have hq : q.length < next.length := by omega
    -- the first address behind the stream has its lane to itself
    have hmem : next[q.length] ∈ next.take n := by
      rw [List.mem_take_iff_getElem]
      exact ⟨q.length, by omega, rfl⟩
    obtain ⟨e, he, hl⟩ : ∃ e ∈ q, e.1 % W = next[q.length] % W := by
      by_contra hno
      exact hlanes _ hmem (lane_eq_nil_iff.mpr fun e he hl => hno ⟨e, he, hl⟩)
    obtain ⟨i, hi, rfl⟩ := List.mem_iff_getElem.mp he
    have hat : next[i]? = some q[i].1 := by
      rw [← h, List.getElem?_append_left (by simpa using hi), List.getElem?_map,
        List.getElem?_eq_getElem hi]
      rfl
    refine List.pairwise_iff_getElem.mp hapart i q.length (by simp; omega) (by simp; omega) hi ?_
    rw [List.getElem_map, List.getElem_map, List.getElem_take, List.getElem_take, ← hl,
      (List.getElem?_eq_some_iff.mp hat).2]
  rw [← h, List.map_take, List.take_append_of_le_length (by simpa using hlen)]

end ByteLanes
