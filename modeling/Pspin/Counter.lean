/-
Wrapping counters of a fixed width.

A register of `w` bits that counts up and down by one wraps at `2 ^ w`. `inc` and
`dec` are what the hardware adder computes, and the two lemmas per operation say
when that is the count meant: below the top for `inc`, above zero for `dec`.
-/
import Mathlib.Data.Nat.Log
import Mathlib.Tactic.Ring

set_option autoImplicit false

namespace Counter

/-- One more, in `w` bits. -/
def inc (w x : ℕ) : ℕ := (x + 1) % 2 ^ w

/-- One less, in `w` bits. -/
def dec (w x : ℕ) : ℕ := (x + 2 ^ w - 1) % 2 ^ w

theorem inc_eq {w x : ℕ} (h : x + 1 < 2 ^ w) : inc w x = x + 1 := Nat.mod_eq_of_lt h

theorem dec_eq {w x : ℕ} (h0 : 0 < x) (h : x < 2 ^ w) : dec w x = x - 1 := by
  have hsub : x + 2 ^ w - 1 = x - 1 + 2 ^ w := by omega
  rw [dec, hsub, Nat.add_mod_right, Nat.mod_eq_of_lt (by omega)]

theorem inc_lt (w x : ℕ) : inc w x < 2 ^ w := Nat.mod_lt _ (Nat.two_pow_pos w)

theorem dec_lt (w x : ℕ) : dec w x < 2 ^ w := Nat.mod_lt _ (Nat.two_pow_pos w)

/-- Down and up again is no change, also across the wrap. -/
theorem inc_dec {w x : ℕ} (h : x < 2 ^ w) : inc w (dec w x) = x := by
  rcases Nat.eq_zero_or_pos x with rfl | hpos
  · have hpos := Nat.two_pow_pos w
    rw [dec, Nat.zero_add, Nat.mod_eq_of_lt (by omega), inc, Nat.sub_add_cancel hpos, Nat.mod_self]
  · rw [dec_eq hpos h, inc_eq (by omega), Nat.sub_add_cancel hpos]

end Counter
