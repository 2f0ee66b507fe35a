/-
Sums with an end-around carry.

Words are the numbers up to `m`, which is all ones. A sum that no longer fits is folded: what
is above the word is added to what is in it, until nothing is above. `fold m n` is the word
that is left. It is `n` modulo `m`, with both zeros kept apart: only 0 folds to 0, and every
other multiple of `m` folds to `m`. A checksum is the complement of a folded sum, and a sum that
holds its own complement folds to `m`.
-/
import Mathlib.Algebra.BigOperators.Group.List.Basic
import Mathlib.Data.Nat.ModEq

set_option autoImplicit false

namespace OnesComplement

variable {m : ℕ}

theorem carry_lt {n : ℕ} (h : 0 < m ∧ m < n) : n % (m + 1) + n / (m + 1) < n := by
  have hdiv := Nat.div_add_mod n (m + 1)
  have hpos : 0 < n / (m + 1) := Nat.div_pos h.2 (Nat.succ_pos m)
  have hcarry : n / (m + 1) < (m + 1) * (n / (m + 1)) := by
    rw [Nat.succ_mul]
    exact Nat.lt_add_of_pos_left (Nat.mul_pos h.1 hpos)
  omega

/-- Add what is above the word to what is in it, until nothing is above. -/
def fold (m n : ℕ) : ℕ :=
  if h : 0 < m ∧ m < n then fold m (n % (m + 1) + n / (m + 1)) else n
termination_by n
decreasing_by exact carry_lt h

/-- One addition of words, with its carry. -/
def add (m a b : ℕ) : ℕ := if m < a + b then a + b - m else a + b

/-! ## Folding -/

theorem fold_of_le {n : ℕ} (h : n ≤ m) : fold m n = n := by
  rw [fold, dif_neg (by omega)]

/-- A carry has the same weight above the word and in it. -/
theorem carry_modEq (m n : ℕ) : n % (m + 1) + n / (m + 1) ≡ n [MOD m] := by
  have hcarry : n / (m + 1) ≡ m * (n / (m + 1)) + n / (m + 1) [MOD m] := by
    simp [Nat.ModEq, Nat.add_mod]
  calc n % (m + 1) + n / (m + 1)
      ≡ n % (m + 1) + (m * (n / (m + 1)) + n / (m + 1)) [MOD m] := hcarry.add_left _
    _ = n := by rw [← Nat.succ_mul, Nat.mod_add_div]

theorem fold_modEq (m n : ℕ) : fold m n ≡ n [MOD m] := by
  induction n using Nat.strong_induction_on with
  | _ n ih =>
      rw [fold]
      split_ifs with h
      · exact (ih _ (carry_lt h)).trans (carry_modEq m n)
      · exact Nat.ModEq.refl n

theorem fold_le (hm : 0 < m) (n : ℕ) : fold m n ≤ m := by
  induction n using Nat.strong_induction_on with
  | _ n ih =>
      rw [fold]
      split_ifs with h
      · exact ih _ (carry_lt h)
      · omega

theorem fold_pos_iff (m n : ℕ) : 0 < fold m n ↔ 0 < n := by
  induction n using Nat.strong_induction_on with
  | _ n ih =>
      rw [fold]
      split_ifs with h
      · rw [ih _ (carry_lt h)]
        have hdiv := Nat.div_add_mod n (m + 1)
        have hpos : 0 < n / (m + 1) := Nat.div_pos h.2 (Nat.succ_pos m)
        omega
      · exact Iff.rfl

/-- **What folding is.** A word with the residue of `n`, and zero only for zero. -/
theorem eq_fold {n x : ℕ} (hm : 0 < m) (hle : x ≤ m) (hpos : 0 < x ↔ 0 < n) (hmod : x ≡ n [MOD m]) :
    x = fold m n := by
  have hmod' : x ≡ fold m n [MOD m] := hmod.trans (fold_modEq m n).symm
  have hle' := fold_le hm n
  have hpos' := fold_pos_iff m n
  -- two words with one residue are equal, or the two zeros
  have hdvd := (Nat.modEq_iff_dvd.mp hmod')
  obtain ⟨k, hk⟩ := hdvd
  have hrange : -1 < k ∧ k < 1 ∨ k = 1 ∨ k = -1 := by
    have hupper : (m : ℤ) * k ≤ m * 1 := by omega
    have hlower : (m : ℤ) * (-1) ≤ m * k := by omega
    have hm' : (0 : ℤ) < m := by exact_mod_cast hm
    have hk := Int.le_of_mul_le_mul_left hupper hm'
    have hk' := Int.le_of_mul_le_mul_left hlower hm'
    omega
  rcases hrange with hzero | rfl | rfl
  · obtain rfl : k = 0 := by omega
    omega
  · omega
  · omega

/-- All ones in front changes nothing but the zero. -/
theorem fold_ones_add {n : ℕ} (hm : 0 < m) (hn : 0 < n) : fold m (m + n) = fold m n := by
  refine (eq_fold hm (fold_le hm n) ?_ ?_).symm
  · rw [fold_pos_iff]
    omega
  · exact (fold_modEq m n).trans (by simp [Nat.ModEq])

/-- A sum that holds its own complement is all ones, unless it is zero. -/
theorem fold_add_complement {n : ℕ} (hm : 0 < m) (hn : 0 < n) :
    fold m (n + (m - fold m n)) = m := by
  symm
  apply eq_fold hm (le_refl m)
  · omega
  · have hle := fold_le hm n
    calc m = fold m n + (m - fold m n) := (Nat.add_sub_cancel' hle).symm
      _ ≡ n + (m - fold m n) [MOD m] := (fold_modEq m n).add_right _

/-! ## Adding word by word -/

theorem add_eq_fold {a b : ℕ} (hm : 0 < m) (ha : a ≤ m) (hb : b ≤ m) :
    add m a b = fold m (a + b) := by
  unfold add
  split_ifs with h
  · apply eq_fold hm
    · omega
    · omega
    · calc a + b - m ≡ a + b - m + m [MOD m] := by simp [Nat.ModEq]
        _ = a + b := Nat.sub_add_cancel (le_of_lt h)
  · exact eq_fold hm (Nat.le_of_not_lt h) Iff.rfl (Nat.ModEq.refl _)

theorem add_fold {a b : ℕ} (hm : 0 < m) (hb : b ≤ m) : add m (fold m a) b = fold m (a + b) := by
  rw [add_eq_fold hm (fold_le hm a) hb]
  apply eq_fold hm (fold_le hm _)
  · have ha := fold_pos_iff m a
    rw [fold_pos_iff]
    omega
  · exact (fold_modEq m _).trans ((fold_modEq m a).add_right b)

/-- **The running sum** of words is the folded sum. -/
theorem foldl_add {words : List ℕ} (hm : 0 < m) (hwords : ∀ w ∈ words, w ≤ m) (a : ℕ) :
    words.foldl (add m) (fold m a) = fold m (a + words.sum) := by
  induction words generalizing a with
  | nil => rfl
  | cons w words ih =>
      rw [List.forall_mem_cons] at hwords
      rw [List.foldl_cons, add_fold hm hwords.1, ih hwords.2, List.sum_cons, Nat.add_assoc]

end OnesComplement
