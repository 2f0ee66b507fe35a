/-
`rr_arb_tree` with its internal fair round robin, valid/ready handshake and locked
decision, as every arbiter of the packet scheduler instantiates it.

A node of the tree passes a request up when one of its two children has one, and
its select bit takes the upper child when the lower one has no request, or when
both have and the round-robin register points up at that level. `node` walks the
tree from a node down: at depth `d` it covers the inputs `l * 2 ^ (d + 1)` and up.

Two properties matter to the users. The output index names an input that requests,
whenever there is a request (`idx_o_spec`). And a request that is not granted is
kept: the arbiter replays the requests it locked, so it is up to the requesters not
to withdraw them, which is what `Held` says of a run.
-/
import Mathlib.Data.Nat.Log
import Mathlib.Tactic.Ring
import Pspin.Lzc

set_option autoImplicit false

namespace Pspin.RrArbTree

structure State where
  rr_q : ℕ
  lock_q : Bool
  req_q : ℕ → Bool

/-- Requests are a function of the input index, read below `NumIn` only. -/
structure Input where
  req_i : ℕ → Bool
  gnt_i : Bool

def reset : State where
  rr_q := 0
  lock_q := false
  req_q := fun _ => false

/-- Request and index of the tree node at depth `d` over the `l`-th block of inputs. -/
def node (NumIn : ℕ) (req_d : ℕ → Bool) (rr_q : ℕ) : ℕ → ℕ → Bool × ℕ
  | 0, l =>
    -- the level where the requests are fed in, two successive indices a node
    if l * 2 + 1 < NumIn then
      let sel := !req_d (l * 2) || (req_d (l * 2 + 1) && rr_q.testBit 0)
      (req_d (l * 2) || req_d (l * 2 + 1), sel.toNat)
    else if l * 2 + 1 = NumIn then (req_d (l * 2), 0)
    else (false, 0)
  | d + 1, l =>
    let lo := node NumIn req_d rr_q d (l * 2)
    let hi := node NumIn req_d rr_q d (l * 2 + 1)
    let sel := !lo.1 || (hi.1 && rr_q.testBit (d + 1))
    (lo.1 || hi.1, if sel then 2 ^ (d + 1) + hi.2 else lo.2)

/-- The root: the corner case of one input passes its request through. -/
def root (NumIn : ℕ) (req_d : ℕ → Bool) (rr_q : ℕ) : Bool × ℕ :=
  if NumIn ≤ 1 then (req_d 0, 0) else node NumIn req_d rr_q (Nat.clog 2 NumIn - 1) 0

/-- The requests arbitrated on: the locked ones while a decision is pending. -/
def req_d (s : State) (req_i : ℕ → Bool) : ℕ → Bool := if s.lock_q then s.req_q else req_i

def req_o (NumIn : ℕ) (s : State) (req_i : ℕ → Bool) : Bool :=
  (root NumIn (req_d s req_i) s.rr_q).1

def idx_o (NumIn : ℕ) (s : State) (req_i : ℕ → Bool) : ℕ :=
  (root NumIn (req_d s req_i) s.rr_q).2

/-- The grant follows the select bits from the root to the input `idx_o` names. -/
def gnt_o (NumIn : ℕ) (s : State) (i : Input) (k : ℕ) : Bool :=
  i.gnt_i && k == idx_o NumIn s i.req_i

/-- The next priority: the first request above the served index, or else the first
one at or below it. -/
def rr_d (NumIn : ℕ) (s : State) (i : Input) : ℕ :=
  let upper_mask := fun k => decide (s.rr_q < k) && req_d s i.req_i k
  let lower_mask := fun k => decide (k ≤ s.rr_q) && req_d s i.req_i k
  let next_idx := if Lzc.empty_o NumIn upper_mask then Lzc.cnt_o NumIn lower_mask
    else Lzc.cnt_o NumIn upper_mask
  if i.gnt_i && req_o NumIn s i.req_i then next_idx else s.rr_q

def step (NumIn : ℕ) (s : State) (i : Input) : State where
  rr_q := rr_d NumIn s i
  lock_q := req_o NumIn s i.req_i && !i.gnt_i
  req_q := req_d s i.req_i

/-! ## The tree -/

section Tree

variable {NumIn : ℕ} {req : ℕ → Bool} {rr : ℕ}

/-- A node requests exactly when an input below it does. -/
theorem node_req_iff (d : ℕ) : ∀ l, (node NumIn req rr d l).1 = true
    ↔ ∃ k < NumIn, l * 2 ^ (d + 1) ≤ k ∧ k < (l + 1) * 2 ^ (d + 1) ∧ req k = true := by
  induction d with
  | zero =>
      intro l
      have hpow : (2 : ℕ) ^ (0 + 1) = 2 := rfl
      rw [hpow]
      unfold node
      split_ifs with h1 h2
      · rw [Bool.or_eq_true]
        constructor
        · rintro (h | h)
          · exact ⟨l * 2, by omega, by omega, by omega, h⟩
          · exact ⟨l * 2 + 1, h1, by omega, by omega, h⟩
        · rintro ⟨k, hk, hlo, hhi, hr⟩
          have : k = l * 2 ∨ k = l * 2 + 1 := by omega
          rcases this with rfl | rfl
          · exact Or.inl hr
          · exact Or.inr hr
      · constructor
        · intro h
          exact ⟨l * 2, by omega, by omega, by omega, h⟩
        · rintro ⟨k, hk, hlo, hhi, hr⟩
          obtain rfl : k = l * 2 := by omega
          exact hr
      · constructor
        · intro h
          simp at h
        · rintro ⟨k, hk, hlo, hhi, hr⟩
          omega
  | succ d ih =>
      intro l
      have hpow : (2 : ℕ) ^ (d + 1 + 1) = 2 * 2 ^ (d + 1) := by ring
      have hlo := ih (l * 2)
      have hhi := ih (l * 2 + 1)
      -- the block of a node is the block of its lower child, then that of its upper one
      have e1 : l * 2 ^ (d + 1 + 1) = l * 2 * 2 ^ (d + 1) := by rw [hpow]; ring
      have e2 : (l + 1) * 2 ^ (d + 1 + 1) = (l * 2 + 1 + 1) * 2 ^ (d + 1) := by rw [hpow]; ring
      have e3 : (l * 2 + 1) * 2 ^ (d + 1) = l * 2 * 2 ^ (d + 1) + 2 ^ (d + 1) := by ring
      have e4 : (l * 2 + 1 + 1) * 2 ^ (d + 1) = (l * 2 + 1) * 2 ^ (d + 1) + 2 ^ (d + 1) := by ring
      simp only [node, Bool.or_eq_true, hlo, hhi, e1, e2]
      constructor
      · rintro (⟨k, hk, h1, h2, hr⟩ | ⟨k, hk, h1, h2, hr⟩)
        · exact ⟨k, hk, h1, by omega, hr⟩
        · exact ⟨k, hk, by omega, h2, hr⟩
      · rintro ⟨k, hk, h1, h2, hr⟩
        rcases Nat.lt_or_ge k ((l * 2 + 1) * 2 ^ (d + 1)) with h | h
        · exact Or.inl ⟨k, hk, h1, h, hr⟩
        · exact Or.inr ⟨k, hk, h, h2, hr⟩

/-- A requesting node points at a requesting input. -/
theorem node_idx_spec (d : ℕ) : ∀ l, (node NumIn req rr d l).1 = true →
    (node NumIn req rr d l).2 < 2 ^ (d + 1)
      ∧ l * 2 ^ (d + 1) + (node NumIn req rr d l).2 < NumIn
      ∧ req (l * 2 ^ (d + 1) + (node NumIn req rr d l).2) = true := by
  induction d with
  | zero =>
      intro l h
      have hpow : (2 : ℕ) ^ (0 + 1) = 2 := rfl
      rw [hpow]
      unfold node at h ⊢
      -- a leaf has two inputs, one (the last of an odd number) or none
      by_cases h1 : l * 2 + 1 < NumIn
      · rw [if_pos h1] at h ⊢
        cases hlo : req (l * 2) <;> cases hhi : req (l * 2 + 1) <;>
          cases hrr : rr.testBit 0 <;> simp_all <;> omega
      · rw [if_neg h1] at h ⊢
        by_cases h2 : l * 2 + 1 = NumIn
        · rw [if_pos h2] at h ⊢
          exact ⟨by omega, by simp only; omega, h⟩
        · rw [if_neg h2] at h
          exact absurd h Bool.false_ne_true
  | succ d ih =>
      intro l h
      have hpos := Nat.two_pow_pos (d + 1)
      have hpow : (2 : ℕ) ^ (d + 1 + 1) = 2 * 2 ^ (d + 1) := by ring
      have e1 : l * 2 ^ (d + 1 + 1) = l * 2 * 2 ^ (d + 1) := by rw [hpow]; ring
      have e3 : (l * 2 + 1) * 2 ^ (d + 1) = l * 2 * 2 ^ (d + 1) + 2 ^ (d + 1) := by ring
      simp only [node, Bool.or_eq_true] at h
      simp only [node]
      rw [e1]
      -- the bit of `rr` only decides when both subtrees request
      by_cases hsel : (!(node NumIn req rr d (l * 2)).1
          || ((node NumIn req rr d (l * 2 + 1)).1 && rr.testBit (d + 1))) = true
      · rw [if_pos hsel]
        have hhi : (node NumIn req rr d (l * 2 + 1)).1 = true := by
          rcases h with h | h
          · rw [h, Bool.not_true, Bool.false_or, Bool.and_eq_true] at hsel
            exact hsel.1
          · exact h
        obtain ⟨hlt, hin, hreq⟩ := ih (l * 2 + 1) hhi
        rw [e3, Nat.add_assoc] at hin hreq
        exact ⟨by omega, hin, hreq⟩
      · rw [if_neg hsel]
        have hlo : (node NumIn req rr d (l * 2)).1 = true := by
          simp only [Bool.or_eq_true, not_or, Bool.not_eq_true', Bool.not_eq_false] at hsel
          exact hsel.1
        obtain ⟨hlt, hin, hreq⟩ := ih (l * 2) hlo
        exact ⟨by omega, hin, hreq⟩

theorem root_spec (hN : 0 < NumIn) (h : (root NumIn req rr).1 = true) :
    (root NumIn req rr).2 < NumIn ∧ req (root NumIn req rr).2 = true := by
  unfold root at h ⊢
  by_cases h1 : NumIn ≤ 1
  · rw [if_pos h1] at h ⊢
    exact ⟨hN, h⟩
  · rw [if_neg h1] at h ⊢
    obtain ⟨-, hin, hreq⟩ := node_idx_spec _ 0 h
    rw [Nat.zero_mul, Nat.zero_add] at hin hreq
    exact ⟨hin, hreq⟩

theorem root_req_iff (hN : 0 < NumIn) :
    (root NumIn req rr).1 = true ↔ ∃ k < NumIn, req k = true := by
  unfold root
  by_cases h1 : NumIn ≤ 1
  · rw [if_pos h1]
    constructor
    · exact fun h => ⟨0, hN, h⟩
    · rintro ⟨k, hk, hr⟩
      obtain rfl : k = 0 := by omega
      exact hr
  · rw [if_neg h1, node_req_iff]
    have hclog : 0 < Nat.clog 2 NumIn := Nat.clog_pos (by omega) (by omega)
    have hle : NumIn ≤ 2 ^ Nat.clog 2 NumIn := Nat.le_pow_clog (by omega) _
    rw [Nat.sub_add_cancel hclog, Nat.zero_mul, Nat.zero_add, Nat.one_mul]
    constructor
    · rintro ⟨k, hk, -, -, hr⟩
      exact ⟨k, hk, hr⟩
    · rintro ⟨k, hk, hr⟩
      exact ⟨k, hk, Nat.zero_le k, by omega, hr⟩

end Tree

/-! ## The handshake -/

variable {NumIn : ℕ} {s : State}

/-- The requests a pending decision locked are still raised. -/
def Held (NumIn : ℕ) (s : State) (req_i : ℕ → Bool) : Prop :=
  s.lock_q = true →
    (∃ k < NumIn, s.req_q k = true) ∧ ∀ k < NumIn, s.req_q k = true → req_i k = true

/-- **The index names a requesting input** whenever the arbiter has a request. -/
theorem idx_o_spec (hN : 0 < NumIn) {req_i : ℕ → Bool} (hheld : Held NumIn s req_i)
    (h : req_o NumIn s req_i = true) :
    idx_o NumIn s req_i < NumIn ∧ req_i (idx_o NumIn s req_i) = true := by
  obtain ⟨hlt, hreq⟩ : idx_o NumIn s req_i < NumIn
      ∧ req_d s req_i (idx_o NumIn s req_i) = true := root_spec hN h
  refine ⟨hlt, ?_⟩
  by_cases hl : s.lock_q = true
  · rw [req_d, if_pos hl] at hreq
    exact (hheld hl).2 _ hlt hreq
  · rw [req_d, if_neg hl] at hreq
    exact hreq

/-- The arbiter has a request exactly when an input requests. -/
theorem req_o_iff (hN : 0 < NumIn) {req_i : ℕ → Bool} (hheld : Held NumIn s req_i) :
    req_o NumIn s req_i = true ↔ ∃ k < NumIn, req_i k = true := by
  rw [req_o, root_req_iff hN]
  by_cases hl : s.lock_q = true
  · rw [req_d, if_pos hl]
    obtain ⟨hex, hsub⟩ := hheld hl
    exact ⟨fun ⟨k, hk, hr⟩ => ⟨k, hk, hsub k hk hr⟩, fun _ => hex⟩
  · rw [req_d, if_neg hl]

/-- Requesters that keep every request that is not granted keep the lock sound. -/
theorem held_step (hN : 0 < NumIn) {i : Input} (hheld : Held NumIn s i.req_i) {req' : ℕ → Bool}
    (hkeep : i.gnt_i = false → ∀ k < NumIn, i.req_i k = true → req' k = true) :
    Held NumIn (step NumIn s i) req' := by
  intro hl
  simp only [step, Bool.and_eq_true, Bool.not_eq_true'] at hl ⊢
  obtain ⟨hreq, hgnt⟩ := hl
  have hsub : ∀ k < NumIn, req_d s i.req_i k = true → i.req_i k = true := by
    intro k hk hr
    by_cases hlq : s.lock_q = true
    · rw [req_d, if_pos hlq] at hr
      exact (hheld hlq).2 k hk hr
    · rwa [req_d, if_neg hlq] at hr
  exact ⟨(root_req_iff hN).mp hreq, fun k hk hr => hkeep hgnt k hk (hsub k hk hr)⟩

theorem held_reset {req_i : ℕ → Bool} : Held NumIn reset req_i := by
  intro hl
  exact absurd hl Bool.false_ne_true

end Pspin.RrArbTree
