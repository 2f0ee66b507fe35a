/-
Words packed into one vector.

`packed words` holds word `k` in bits `w * k` to `w * k + w - 1`, the first word lowest. A
field that lies within one word is a slice of that word, and a field of two whole words is
the one appended to the other.
-/
import Mathlib.Data.Nat.Bitwise
import Mathlib.Algebra.Order.Ring.Nat

set_option autoImplicit false

namespace WordPacking

variable {w n : ℕ}

theorem word_lt {k : ℕ} (hk : k < w * n) : k / w < n :=
  Nat.div_lt_of_lt_mul hk

def packed (words : Fin n → BitVec w) : BitVec (w * n) :=
  BitVec.ofNat _ (Nat.ofBits fun k => (words ⟨k.val / w, word_lt k.isLt⟩).getLsbD (k.val % w))

/-- Bit `j` of word `k`. -/
theorem getLsbD_packed (words : Fin n → BitVec w) (k : Fin n) {j : ℕ} (hj : j < w) :
    (packed words).getLsbD (w * k + j) = (words k).getLsbD j := by
  have hlast : w * (k.val + 1) ≤ w * n := Nat.mul_le_mul_left w k.isLt
  have hin : w * k.val + j < w * n := by
    rw [Nat.mul_succ] at hlast
    omega
  have hword : (w * k.val + j) / w = k.val := by
    rw [Nat.mul_add_div (by omega), Nat.div_eq_of_lt hj, Nat.add_zero]
  have hbit : (w * k.val + j) % w = j := by
    rw [Nat.mul_add_mod, Nat.mod_eq_of_lt hj]
  rw [packed, BitVec.getLsbD_ofNat, decide_eq_true hin, Bool.true_and, Nat.testBit_ofBits_lt _ _ hin]
  congr 1
  exact congrArg words (Fin.ext hword)

/-- A field within a word. -/
theorem extract_in_word (words : Fin n → BitVec w) (k : Fin n) {j len : ℕ} (h : j + len ≤ w) :
    (packed words).extractLsb' (w * k + j) len = (words k).extractLsb' j len := by
  apply BitVec.eq_of_getLsbD_eq
  intro i hi
  rw [BitVec.getLsbD_extractLsb', BitVec.getLsbD_extractLsb', Nat.add_assoc,
    getLsbD_packed words k (by omega)]

/-- A whole word. -/
theorem extract_word (words : Fin n → BitVec w) (k : Fin n) :
    (packed words).extractLsb' (w * k) w = words k := by
  have hword := extract_in_word words k (Nat.zero_add w).le
  rw [Nat.add_zero] at hword
  rw [hword, BitVec.extractLsb'_eq_self]

/-- A field of two words. -/
theorem extract_two_words (words : Fin n → BitVec w) (k k' : Fin n) (hk : k'.val = k.val + 1) :
    (packed words).extractLsb' (w * k) (w + w) = words k' ++ words k := by
  apply BitVec.eq_of_getLsbD_eq
  intro i hi
  rw [BitVec.getLsbD_extractLsb', BitVec.getLsbD_append, decide_eq_true hi, Bool.true_and]
  by_cases hlow : i < w
  · rw [getLsbD_packed words k hlow, if_pos hlow]
  · have hnext : w * k.val + i = w * k'.val + (i - w) := by
      rw [hk, Nat.mul_succ]
      omega
    rw [hnext, getLsbD_packed words k' (by omega), if_neg hlow]

end WordPacking
