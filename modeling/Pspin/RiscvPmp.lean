/-
`riscv_pmp`: the memory protection unit of a core.

An entry is an address and a configuration byte: lock, two unused bits, the mode, and the
permissions to execute, write and read. A mode is off, a range that starts where the entry
before ends, a single word, or a naturally aligned window (NAPOT). The size of a window is
coded in the address itself, by the ones it ends in.

Accesses are compared by word address, bits 31:2. A NAPOT entry takes the same bits of its
own address, so an address that ends in a zero and `k` ones opens a window of `2 ^ (k + 1)`
bytes.
-/
import Mathlib.Algebra.Order.Ring.Nat
import Mathlib.Tactic.Common

set_option autoImplicit false

namespace Pspin.RiscvPmp

/-- The privilege levels of the core. -/
inductive PrivLvl_t
  | PRIV_LVL_M | PRIV_LVL_H | PRIV_LVL_S | PRIV_LVL_U
deriving DecidableEq, Repr

/-- The inputs `pmp_addr_i` and `pmp_cfg_i`. -/
structure Config (N_PMP_ENTRIES : ℕ) where
  pmp_addr : Fin N_PMP_ENTRIES → BitVec 32
  pmp_cfg : Fin N_PMP_ENTRIES → BitVec 8

/-! ## Rules -/

/-- The bits of an entry: reading. -/
def R_rule (cfg : BitVec 8) : Bool := cfg.getLsbD 0

def W_rule (cfg : BitVec 8) : Bool := cfg.getLsbD 1

def X_rule (cfg : BitVec 8) : Bool := cfg.getLsbD 2

def MODE_rule (cfg : BitVec 8) : BitVec 2 := cfg.extractLsb' 3 2

/-- The pattern `RULE_k`: a zero, then `k` ones. -/
def RULE (k : ℕ) (a : BitVec 32) : Bool := a.toNat % 2 ^ (k + 1) == 2 ^ k - 1

/-- The rule an address falls under, the first that fits. -/
def napot_rule (a : BitVec 32) : Option ℕ := (List.range 32).find? (RULE · a)

/-- What is compared for an entry. -/
structure rule_t where
  EN_rule : Bool
  start_addr : BitVec 32
  stop_addr : BitVec 32
  mask_addr : BitVec 32

variable {N : ℕ}

/-- The entry before, for ranges that begin there. -/
theorem before_lt (i : Fin N) : i.val - 1 < N := lt_of_le_of_lt (Nat.sub_le _ _) i.isLt

/-- `ADDR_EXP`: an entry as a range, or as a mask and the bits under it. -/
def addr_exp (c : Config N) (i : Fin N) : rule_t :=
  match (MODE_rule (c.pmp_cfg i)).toNat with
  | 0 => ⟨false, 0, 0, BitVec.allOnes 32⟩
  -- TOR: the range starts at the address of the entry before
  | 1 => ⟨true, if i.val = 0 then 0 else c.pmp_addr ⟨i.val - 1, before_lt i⟩, c.pmp_addr i,
      BitVec.allOnes 32⟩
  -- NA4
  | 2 => ⟨true, c.pmp_addr i, c.pmp_addr i, BitVec.allOnes 32⟩
  -- NAPOT: the mask drops the bits up to the zero; an address of ones only falls under no rule
  | _ => (napot_rule (c.pmp_addr i)).elim ⟨false, 0, 0, BitVec.allOnes 32⟩ fun k =>
      ⟨true, c.pmp_addr i &&& BitVec.allOnes 32 <<< (k + 1), c.pmp_addr i,
        BitVec.allOnes 32 <<< (k + 1)⟩

/-! ## Checks -/

/-- Bits 31:2. -/
def word (a : BitVec 32) : BitVec 30 := a.extractLsb' 2 30

/-- The comparison of an address with an entry, the same for loads, stores and fetches. -/
def hit (c : Config N) (i : Fin N) (a : BitVec 32) : Bool :=
  match (MODE_rule (c.pmp_cfg i)).toNat with
  | 0 => false
  | 1 => decide ((addr_exp c i).start_addr.toNat ≤ (word a).toNat)
      && decide ((word a).toNat < (addr_exp c i).stop_addr.toNat)
  | 2 => word a == (addr_exp c i).start_addr.setWidth 30
  | _ => word a &&& word (addr_exp c i).mask_addr == word (addr_exp c i).start_addr

/-- The entry allows the access. -/
def data_match_region (c : Config N) (data_we_i : Bool) (data_addr_i : BitVec 32) (j : Fin N) :
    Bool :=
  if (addr_exp c j).EN_rule && (!data_we_i && R_rule (c.pmp_cfg j)
      || data_we_i && W_rule (c.pmp_cfg j))
  then hit c j data_addr_i
  else false

def instr_match_region (c : Config N) (instr_addr_i : BitVec 32) (k : Fin N) : Bool :=
  if (addr_exp c k).EN_rule && X_rule (c.pmp_cfg k) then hit c k instr_addr_i else false

/-- An access in machine mode is not checked; any other needs an entry that matches. -/
def allowed (pmp_privil_mode_i : PrivLvl_t) (match_region : Fin N → Bool) : Bool :=
  pmp_privil_mode_i == .PRIV_LVL_M || decide (∃ j, match_region j = true)

/-- A request passes, or it is kept from the memory and answered with an error. -/
def req_o (allowed req_i : Bool) : Bool := if allowed then req_i else false

/-- An access that is not allowed is an error. -/
def err_int (allowed req_i : Bool) : Bool := if allowed then false else req_i

/-- One entry lets the core read and write the byte. -/
def ReadWrite (c : Config N) (a : BitVec 32) : Prop :=
  ∃ j, data_match_region c false a j = true ∧ data_match_region c true a j = true

/-- One entry lets the core fetch the byte. -/
def Execute (c : Config N) (a : BitVec 32) : Prop := ∃ k, instr_match_region c a k = true

/-- Loads and stores that an entry permits pass at every privilege level. -/
theorem ReadWrite.passes {c : Config N} {a : BitVec 32} (h : ReadWrite c a)
    (pmp_privil_mode_i : PrivLvl_t) (data_we_i data_req_i : Bool) :
    req_o (allowed pmp_privil_mode_i (data_match_region c data_we_i a)) data_req_i = data_req_i
      ∧ err_int (allowed pmp_privil_mode_i (data_match_region c data_we_i a)) data_req_i
        = false := by
  have hmatch : ∃ j, data_match_region c data_we_i a j = true := by
    obtain ⟨j, hread, hwrite⟩ := h
    cases data_we_i
    · exact ⟨j, hread⟩
    · exact ⟨j, hwrite⟩
  simp [req_o, err_int, allowed, hmatch]

/-- A fetch that some entry allows goes through without an error, at any level. -/
theorem Execute.passes {c : Config N} {a : BitVec 32} (h : Execute c a)
    (pmp_privil_mode_i : PrivLvl_t) (instr_req_i : Bool) :
    req_o (allowed pmp_privil_mode_i (instr_match_region c a)) instr_req_i = instr_req_i
      ∧ err_int (allowed pmp_privil_mode_i (instr_match_region c a)) instr_req_i = false := by
  have hmatch : ∃ k, instr_match_region c a k = true := h
  simp [req_o, err_int, allowed, hmatch]

/-! ## Windows -/

section Window

variable {c : Config N} {i : Fin N} {k : ℕ} {p : BitVec 32}

/-- The address of a naturally aligned entry ends in a 0 and ones. -/
theorem RULE_testBit (h : RULE k p = true) {j : ℕ} (hj : j ≤ k) :
    p.toNat.testBit j = decide (j < k) := by
  have heq : p.toNat % 2 ^ (k + 1) = 2 ^ k - 1 := by simpa [RULE] using h
  have hbit := congrArg (Nat.testBit · j) heq
  simp only [Nat.testBit_mod_two_pow, Nat.testBit_two_pow_sub_one] at hbit
  rwa [decide_eq_true (Nat.lt_succ_of_le hj), Bool.true_and] at hbit

/-- An address falls under one rule at most. -/
theorem RULE_unique {j : ℕ} (hj : RULE j p = true) (hk : RULE k p = true) : j = k := by
  rcases Nat.lt_trichotomy j k with h | h | h
  · have hbit := (RULE_testBit hj le_rfl).symm.trans (RULE_testBit hk h.le)
    simp [h] at hbit
  · exact h
  · have hbit := (RULE_testBit hk le_rfl).symm.trans (RULE_testBit hj h.le)
    simp [h] at hbit

theorem napot_rule_of_RULE (hk : RULE k p = true) (hlt : k < 32) : napot_rule p = some k := by
  cases hf : napot_rule p with
  | none =>
    have hnone := List.find?_eq_none.mp hf k (List.mem_range.mpr hlt)
    exact absurd hk hnone
  | some j =>
    rw [napot_rule] at hf
    have hj : RULE j p = true := by simpa using List.find?_some hf
    rw [RULE_unique hj hk]

theorem addr_exp_napot (hmode : MODE_rule (c.pmp_cfg i) = 3) (hk : RULE k (c.pmp_addr i) = true)
    (hlt : k < 32) :
    addr_exp c i = ⟨true, c.pmp_addr i &&& BitVec.allOnes 32 <<< (k + 1), c.pmp_addr i,
      BitVec.allOnes 32 <<< (k + 1)⟩ := by
  have hrule := napot_rule_of_RULE hk hlt
  simp [addr_exp, hmode, hrule]

/-- Under a mask that drops `n` bits, the word address keeps the rest. -/
theorem word_mask_toNat (a : BitVec 32) {n : ℕ} (hn : 2 ≤ n) :
    (word (a &&& BitVec.allOnes 32 <<< n)).toNat = a.toNat / 2 ^ n * 2 ^ (n - 2) := by
  have hshift : a &&& BitVec.allOnes 32 <<< n = a >>> n <<< n := BitVec.shiftLeft_ushiftRight.symm
  have hle : a.toNat / 2 ^ n * 2 ^ n ≤ a.toNat := Nat.div_mul_le_self _ _
  have hlt : a.toNat / 2 ^ n * 2 ^ n < 2 ^ 32 := lt_of_le_of_lt hle a.isLt
  have hpow : 2 ^ n = 2 ^ (n - 2) * 4 := by
    rw [show 4 = 2 ^ 2 by rfl, ← Nat.pow_add, Nat.sub_add_cancel hn]
  have hval : (a >>> n <<< n).toNat = a.toNat / 2 ^ n * 2 ^ n := by
    rw [BitVec.toNat_shiftLeft, BitVec.toNat_ushiftRight, Nat.shiftRight_eq_div_pow,
      Nat.shiftLeft_eq, Nat.mod_eq_of_lt hlt]
  have hdiv : a.toNat / 2 ^ n * 2 ^ n / 4 = a.toNat / 2 ^ n * 2 ^ (n - 2) := by
    conv_lhs => rw [hpow, ← Nat.mul_assoc, Nat.mul_div_cancel _ (by omega)]
    rw [← hpow]
  rw [word, hshift, BitVec.extractLsb'_toNat, hval, Nat.shiftRight_eq_div_pow,
    show 2 ^ 2 = 4 by rfl, hdiv, Nat.mod_eq_of_lt]
  rw [← hdiv]
  omega

/-- Entry `i` opens the bytes whose address is `w` above the low `n` bits. -/
structure Opens (c : Config N) (i : Fin N) (n w : ℕ) : Prop where
  mode : MODE_rule (c.pmp_cfg i) = 3
  rule : RULE (n - 1) (c.pmp_addr i) = true
  bits : 2 ≤ n ∧ n ≤ 32
  base : (c.pmp_addr i).toNat / 2 ^ n = w

variable {n w : ℕ}

/-- **The window of a NAPOT entry.** An address that ends in a zero and `n - 1` ones is hit by
the bytes that agree with it above these bits. -/
theorem Opens.hit_iff (h : Opens c i n w) (a : BitVec 32) :
    hit c i a = true ↔ a.toNat / 2 ^ n = w := by
  obtain ⟨h2, h32⟩ := h.bits
  have hn : n - 1 + 1 = n := by omega
  have hand : ∀ b m : BitVec 32, word b &&& word m = word (b &&& m) := by
    intro b m
    exact BitVec.extractLsb'_and.symm
  have hhit : hit c i a = (word (a &&& BitVec.allOnes 32 <<< n)
      == word (c.pmp_addr i &&& BitVec.allOnes 32 <<< n)) := by
    rw [hit, h.mode, addr_exp_napot h.mode h.rule (by omega), hn, ← hand a]
    rfl
  have hpow : 0 < 2 ^ (n - 2) := Nat.pow_pos (by decide)
  rw [hhit, beq_iff_eq, ← BitVec.toNat_inj, word_mask_toNat a h2, word_mask_toNat _ h2, h.base]
  exact ⟨fun heq => Nat.eq_of_mul_eq_mul_right hpow heq, fun heq => by rw [heq]⟩

/-- The accesses that such an entry allows. -/
theorem Opens.data_match_iff (h : Opens c i n w) (we : Bool) (a : BitVec 32) :
    data_match_region c we a i = true ↔
      (if we then W_rule (c.pmp_cfg i) else R_rule (c.pmp_cfg i)) = true
        ∧ a.toNat / 2 ^ n = w := by
  have hlt : n - 1 < 32 := by have := h.bits; omega
  rw [← h.hit_iff a, data_match_region, addr_exp_napot h.mode h.rule hlt]
  cases we <;> simp

theorem Opens.instr_match_iff (h : Opens c i n w) (a : BitVec 32) :
    instr_match_region c a i = true ↔ X_rule (c.pmp_cfg i) = true ∧ a.toNat / 2 ^ n = w := by
  have hlt : n - 1 < 32 := by have := h.bits; omega
  rw [← h.hit_iff a, instr_match_region, addr_exp_napot h.mode h.rule hlt]
  simp

/-- An entry that is off matches nothing. -/
theorem not_match_of_off (hmode : MODE_rule (c.pmp_cfg i) = 0) (we : Bool) (a : BitVec 32) :
    data_match_region c we a i = false ∧ instr_match_region c a i = false := by
  have hoff : (addr_exp c i).EN_rule = false := by
    rw [addr_exp, hmode]
    rfl
  constructor
  · simp [data_match_region, hoff]
  · simp [instr_match_region, hoff]

end Window

end Pspin.RiscvPmp
