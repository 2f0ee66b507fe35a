/-
The memory protection of an HPU: what `task_frontend` lets its core touch.

The front-end computes sixteen PMP entries from its task and keeps them in registers, so
they follow the task by one cycle; the first load of a handler is answered in that cycle.
Five entries are windows at fixed places. The window of the stack is the 16 MiB around the
cluster's L1 and so holds the L1 of every cluster. The others are the naturally aligned
block of 4 KiB, or of 1 MiB for the handler memory, around an address of the task.

The address map of `pspin.sv` says which of these windows meet which memory: the 1 MiB block
is the whole handler memory, but in the packet buffer a task has its 4 KiB and nothing else.
-/
import Mathlib.Tactic.IntervalCases
import Pspin.RiscvPmp
import Pspin.Sync
import Pspin.TaskFrontend

set_option autoImplicit false

namespace Pspin.HpuPmp

open RiscvPmp

/-- Entries of a core's table. -/
abbrev N_PMP_ENTRIES : ℕ := 16

/-! ## Address map -/

/-- Bytes of the handlers' memory in L2. -/
def MEM_HND_SIZE : ℕ := 1 * 1024 * 1024
def MEM_PKT_SIZE : ℕ := 512 * 1024

/-- Where a cluster's window begins. -/
def cl_start_addr (i : ℕ) : ℕ := L1_CLUSTER_BASE + i * L1_CLUSTER_MEM_SIZE
def cl_end_addr (i : ℕ) : ℕ := L1_CLUSTER_BASE + (i + 1) * L1_CLUSTER_MEM_SIZE
/-- The memory of the handlers. -/
def l2_hnd_start_addr : ℕ := 0x1C000000
def l2_hnd_end_addr : ℕ := l2_hnd_start_addr + MEM_HND_SIZE
def l2_pkt_start_addr : ℕ := l2_hnd_end_addr
def l2_pkt_end_addr : ℕ := l2_pkt_start_addr + MEM_PKT_SIZE
/-- The memory of the programs. -/
def l2_prog_start_addr : ℕ := 0x1D000000
def l2_prog_end_addr : ℕ := l2_prog_start_addr + 0x8000

/-! ## The entries of a task -/

/-- The base address of the cluster, as the driver computes it. -/
def l1_base_addr (cluster_id_i : BitVec 6) : BitVec 32 :=
  BitVec.ofNat 32 (L1_CLUSTER_BASE + cluster_id_i.toNat * L1_CLUSTER_MEM_SIZE)

/-- The upper `m` bits of an address over the constant `lo`. -/
def upper (m : ℕ) {n : ℕ} (a : BitVec 32) (lo : BitVec n) : BitVec 32 :=
  (a.extractLsb' n m ++ lo).setWidth 32

/-- The modes and rights of the entries, which are the same for all tasks. -/
def pmp_cfg_d (i : Fin N_PMP_ENTRIES) : BitVec 8 :=
  match i.val with
  | 0 => 0b0_00_11_1_0_1   -- runtime code
  | 1 => 0b0_00_11_0_1_1   -- stack
  | 2 => 0b0_00_11_0_1_1   -- peripherals
  | 3 => 0b0_00_11_0_1_1   -- packet memory (L1)
  | 4 => 0b0_00_11_0_1_1   -- packet memory (L2)
  | 5 => 0b0_00_11_1_0_1   -- handler code
  | 6 => 0b0_00_11_0_1_1   -- handler memory
  | 7 => 0b0_00_11_0_1_0   -- stdout virtual device
  | 8 => 0b0_00_11_0_1_1   -- beginning of L2 handler memory
  | k => if k < 9 + NUM_CLUSTERS then 0b0_00_11_0_1_1 else 0

/-- The windows of the entries. They are naturally aligned powers of two: the run of ones at the
end gives the size, and the bits above the place. -/
def pmp_addr_d (cluster_id_i : BitVec 6) (t : hpu_handler_task_t) (i : Fin N_PMP_ENTRIES) :
    BitVec 32 :=
  match i.val with
  | 0 => 0x1d07FFFF
  | 1 => upper 8 (l1_base_addr cluster_id_i) 0x7FFFFF#24
  | 2 => 0x1b7FFFFF
  | 3 => upper 20 t.pkt_ptr 0x7FF#12
  | 4 => upper 20 t.handler_task.pkt_addr 0x7FF#12
  | 5 => upper 20 t.handler_task.handler_fun 0x7FF#12
  | 6 => upper 12 t.handler_task.handler_mem_addr 0x7FFFF#20
  | 7 => 0x1a107fff
  | 8 => 0x1c007fff
  | k => if k < 9 + NUM_CLUSTERS
      then upper 20 (TaskFrontend.l1_scratchpad_addr t (k - 9)) 0x7FF#12 else 0

/-- The whole table of a task. -/
def pmp_d (cluster_id_i : BitVec 6) (t : hpu_handler_task_t) : Config N_PMP_ENTRIES :=
  ⟨pmp_addr_d cluster_id_i t, pmp_cfg_d⟩

/-! ## The registers -/

/-- The task frontend and the registers of the table. -/
structure State where
  i_task_frontend : TaskFrontend.State
  pmp_q : Config N_PMP_ENTRIES

/-- After reset no entry opens anything. -/
def reset : State := ⟨TaskFrontend.reset, ⟨fun _ => 0, fun _ => 0⟩⟩

/-- A clock edge: the table follows the task with a cycle's delay. -/
def step (cluster_id_i : BitVec 6) (s : State) (i : TaskFrontend.Input) : State where
  i_task_frontend := TaskFrontend.step s.i_task_frontend i
  pmp_q := pmp_d cluster_id_i s.i_task_frontend.current_task_q

/-- What the core checks its accesses against: the configuration of the front-end has
priority over the one in its own registers, and `pmp_conf_override_o` is always high. -/
def core_config (pmp_conf_override_i : Bool) (pmp_i pmp_cs : Config N_PMP_ENTRIES) :
    Config N_PMP_ENTRIES :=
  if pmp_conf_override_i then pmp_i else pmp_cs

/-- What the core checks against. -/
def pmp_o (s : State) (pmp_cs : Config N_PMP_ENTRIES) : Config N_PMP_ENTRIES :=
  core_config true s.pmp_q pmp_cs

/-! ## The windows -/

/-- An address with its low bits replaced. -/
theorem upper_toNat {m n : ℕ} (hmn : m + n = 32) (a : BitVec 32) (lo : BitVec n) :
    (upper m a lo).toNat = a.toNat / 2 ^ n * 2 ^ n + lo.toNat := by
  have hm : a.toNat / 2 ^ n < 2 ^ m := by
    apply Nat.div_lt_of_lt_mul
    rw [← Nat.pow_add, Nat.add_comm, hmn]
    exact a.isLt
  have happ : (a.extractLsb' n m ++ lo).toNat = a.toNat / 2 ^ n * 2 ^ n + lo.toNat := by
    rw [BitVec.toNat_append, BitVec.extractLsb'_toNat, Nat.shiftRight_eq_div_pow,
      Nat.mod_eq_of_lt hm, ← Nat.shiftLeft_add_eq_or_of_lt lo.isLt, Nat.shiftLeft_eq]
  have hlt : (a.extractLsb' n m ++ lo).toNat < 2 ^ 32 :=
    lt_of_lt_of_eq (a.extractLsb' n m ++ lo).isLt (by rw [hmn])
  rw [upper, BitVec.toNat_setWidth, Nat.mod_eq_of_lt hlt, happ]

/-- The block of `2 ^ n` bytes around an address of the task. -/
theorem opens_upper {N n : ℕ} {c : Config N} {i : Fin N} (m : ℕ) (a : BitVec 32)
    (lo : BitVec n) (haddr : c.pmp_addr i = upper m a lo) (hmode : MODE_rule (c.pmp_cfg i) = 3)
    (hlo : lo.toNat = 2 ^ (n - 1) - 1) (hmn : m + n = 32) (hn : 2 ≤ n) :
    Opens c i n (a.toNat / 2 ^ n) := by
  have hbits : n - 1 + 1 = n := by omega
  refine ⟨hmode, ?_, ⟨hn, by omega⟩, ?_⟩
  · rw [RULE, beq_iff_eq, haddr, upper_toNat hmn, hbits, Nat.mul_comm, Nat.mul_add_mod,
      Nat.mod_eq_of_lt lo.isLt, hlo]
  · rw [haddr, upper_toNat hmn, Nat.mul_comm, Nat.mul_add_div (Nat.pow_pos (by decide)),
      Nat.div_eq_of_lt lo.isLt, Nat.add_zero]

/-- The window that a naturally aligned entry opens. -/
theorem opens_const {N n w : ℕ} {c : Config N} {i : Fin N} (p : BitVec 32)
    (haddr : c.pmp_addr i = p) (hmode : MODE_rule (c.pmp_cfg i) = 3)
    (hrule : RULE (n - 1) p = true) (hbits : 2 ≤ n ∧ n ≤ 32) (hbase : p.toNat / 2 ^ n = w) :
    Opens c i n w := by
  subst haddr
  exact ⟨hmode, hrule, hbits, hbase⟩

/-- The window of an entry: the low bits it leaves open, and the number above them. -/
def window (cluster_id_i : BitVec 6) (t : hpu_handler_task_t) (i : Fin N_PMP_ENTRIES) :
    Option (ℕ × ℕ) :=
  match i.val with
  | 0 => some (20, 0x1d0)
  | 1 => some (24, (l1_base_addr cluster_id_i).toNat / 2 ^ 24)
  | 2 => some (24, 0x1b)
  | 3 => some (12, t.pkt_ptr.toNat / 2 ^ 12)
  | 4 => some (12, t.handler_task.pkt_addr.toNat / 2 ^ 12)
  | 5 => some (12, t.handler_task.handler_fun.toNat / 2 ^ 12)
  | 6 => some (20, t.handler_task.handler_mem_addr.toNat / 2 ^ 20)
  | 7 => some (16, 0x1a10)
  | 8 => some (16, 0x1c00)
  | k => if k < 9 + NUM_CLUSTERS
      then some (12, (TaskFrontend.l1_scratchpad_addr t (k - 9)).toNat / 2 ^ 12) else none

variable (cluster_id_i : BitVec 6) (t : hpu_handler_task_t)

/-- What an entry is, given its window. -/
def Fits (c : Config N_PMP_ENTRIES) (i : Fin N_PMP_ENTRIES) : Option (ℕ × ℕ) → Prop
  | some (n, w) => Opens c i n w
  | none => MODE_rule (c.pmp_cfg i) = 0

/-- The entries in use are naturally aligned powers of two, the others are off. -/
theorem mode_pmp_cfg : ∀ i : Fin N_PMP_ENTRIES,
    MODE_rule (pmp_cfg_d i) = if i.val < 9 + NUM_CLUSTERS then 3 else 0 := by
  decide

/-- **The entries are these windows.** -/
theorem fits_window (i : Fin N_PMP_ENTRIES) :
    Fits (pmp_d cluster_id_i t) i (window cluster_id_i t i) := by
  have hmode := mode_pmp_cfg i
  have hlo12 : (0x7FF#12).toNat = 2 ^ (12 - 1) - 1 := by decide
  obtain ⟨i, hi⟩ := i
  interval_cases i
  · exact opens_const 0x1d07FFFF rfl hmode (by decide) (by decide) (by decide)
  · exact opens_upper 8 _ 0x7FFFFF#24 rfl hmode (by decide) (by decide) (by decide)
  · exact opens_const 0x1b7FFFFF rfl hmode (by decide) (by decide) (by decide)
  · exact opens_upper 20 _ 0x7FF#12 rfl hmode hlo12 (by decide) (by decide)
  · exact opens_upper 20 _ 0x7FF#12 rfl hmode hlo12 (by decide) (by decide)
  · exact opens_upper 20 _ 0x7FF#12 rfl hmode hlo12 (by decide) (by decide)
  · exact opens_upper 12 _ 0x7FFFF#20 rfl hmode (by decide) (by decide) (by decide)
  · exact opens_const 0x1a107fff rfl hmode (by decide) (by decide) (by decide)
  · exact opens_const 0x1c007fff rfl hmode (by decide) (by decide) (by decide)
  · exact opens_upper 20 _ 0x7FF#12 rfl hmode hlo12 (by decide) (by decide)
  · exact opens_upper 20 _ 0x7FF#12 rfl hmode hlo12 (by decide) (by decide)
  -- the entries past the scratchpads are off
  all_goals exact hmode

variable {cluster_id_i t}

/-- Two ways to say that an address lies in a window. -/
theorem at_window_iff {p : ℕ × ℕ} {a : ℕ} :
    a / 2 ^ p.1 = p.2 ↔ ∃ n, some p = some (n, a / 2 ^ n) := by
  constructor
  · intro h
    exact ⟨p.1, by rw [h]⟩
  · rintro ⟨n, h⟩
    rw [Option.some.inj h]

/-- The bytes an entry lets the core load, or store. -/
theorem data_match_iff (we : Bool) (a : BitVec 32) (i : Fin N_PMP_ENTRIES) :
    data_match_region (pmp_d cluster_id_i t) we a i = true ↔
      (if we then W_rule (pmp_cfg_d i) else R_rule (pmp_cfg_d i)) = true
        ∧ ∃ n, window cluster_id_i t i = some (n, a.toNat / 2 ^ n) := by
  have hfits := fits_window cluster_id_i t i
  cases hw : window cluster_id_i t i with
  | none =>
    rw [hw] at hfits
    simp [(not_match_of_off hfits we a).1]
  | some p =>
    rw [hw] at hfits
    rw [Opens.data_match_iff hfits we a, at_window_iff]
    rfl

/-- The bytes an entry lets the core fetch. -/
theorem instr_match_iff (a : BitVec 32) (i : Fin N_PMP_ENTRIES) :
    instr_match_region (pmp_d cluster_id_i t) a i = true ↔ X_rule (pmp_cfg_d i) = true
      ∧ ∃ n, window cluster_id_i t i = some (n, a.toNat / 2 ^ n) := by
  have hfits := fits_window cluster_id_i t i
  cases hw : window cluster_id_i t i with
  | none =>
    rw [hw] at hfits
    simp [(not_match_of_off hfits false a).2]
  | some p =>
    rw [hw] at hfits
    rw [Opens.instr_match_iff hfits a, at_window_iff]
    rfl

/-- The entries that let a handler read and write. -/
theorem read_write_entries : ∀ i : Fin N_PMP_ENTRIES,
    R_rule (pmp_cfg_d i) = true ∧ W_rule (pmp_cfg_d i) = true →
      i = 1 ∨ i = 2 ∨ i = 3 ∨ i = 4 ∨ i = 6 ∨ i = 8 ∨ i = 9 ∨ i = 10 := by
  decide

/-- **What the core may read and write.** The memory around the cluster, the peripherals, the
start of the L2, and the blocks around its packet, its handler memory and its scratchpads. -/
theorem read_write_iff (a : BitVec 32) : ReadWrite (pmp_d cluster_id_i t) a ↔
    a.toNat / 2 ^ 24 = (l1_base_addr cluster_id_i).toNat / 2 ^ 24
      ∨ a.toNat / 2 ^ 24 = 0x1b
      ∨ a.toNat / 2 ^ 12 = t.pkt_ptr.toNat / 2 ^ 12
      ∨ a.toNat / 2 ^ 12 = t.handler_task.pkt_addr.toNat / 2 ^ 12
      ∨ a.toNat / 2 ^ 20 = t.handler_task.handler_mem_addr.toNat / 2 ^ 20
      ∨ a.toNat / 2 ^ 16 = 0x1c00
      ∨ a.toNat / 2 ^ 12 = (TaskFrontend.l1_scratchpad_addr t 0).toNat / 2 ^ 12
      ∨ a.toNat / 2 ^ 12 = (TaskFrontend.l1_scratchpad_addr t 1).toNat / 2 ^ 12 := by
  have hiff : ReadWrite (pmp_d cluster_id_i t) a ↔
      ∃ i, (R_rule (pmp_cfg_d i) = true ∧ W_rule (pmp_cfg_d i) = true)
        ∧ ∃ n, window cluster_id_i t i = some (n, a.toNat / 2 ^ n) := by
    simp only [ReadWrite, data_match_iff]
    grind
  rw [hiff]
  constructor
  · rintro ⟨i, hperm, hwin⟩
    rcases read_write_entries i hperm with rfl | rfl | rfl | rfl | rfl | rfl | rfl | rfl
    · exact .inl (at_window_iff.mpr hwin)
    · exact .inr (.inl (at_window_iff.mpr hwin))
    · exact .inr (.inr (.inl (at_window_iff.mpr hwin)))
    · exact .inr (.inr (.inr (.inl (at_window_iff.mpr hwin))))
    · exact .inr (.inr (.inr (.inr (.inl (at_window_iff.mpr hwin)))))
    · exact .inr (.inr (.inr (.inr (.inr (.inl (at_window_iff.mpr hwin))))))
    · exact .inr (.inr (.inr (.inr (.inr (.inr (.inl (at_window_iff.mpr hwin)))))))
    · exact .inr (.inr (.inr (.inr (.inr (.inr (.inr (at_window_iff.mpr hwin)))))))
  · rintro (h | h | h | h | h | h | h | h)
    · exact ⟨1, by decide, at_window_iff.mp h⟩
    · exact ⟨2, by decide, at_window_iff.mp h⟩
    · exact ⟨3, by decide, at_window_iff.mp h⟩
    · exact ⟨4, by decide, at_window_iff.mp h⟩
    · exact ⟨6, by decide, at_window_iff.mp h⟩
    · exact ⟨8, by decide, at_window_iff.mp h⟩
    · exact ⟨9, by decide, at_window_iff.mp h⟩
    · exact ⟨10, by decide, at_window_iff.mp h⟩

theorem execute_entries : ∀ i : Fin N_PMP_ENTRIES,
    X_rule (pmp_cfg_d i) = true → i = 0 ∨ i = 5 := by
  decide

/-- **What the core may fetch.** The program memory, and the block around its handler. -/
theorem execute_iff (a : BitVec 32) : Execute (pmp_d cluster_id_i t) a ↔
    a.toNat / 2 ^ 20 = 0x1d0
      ∨ a.toNat / 2 ^ 12 = t.handler_task.handler_fun.toNat / 2 ^ 12 := by
  simp only [Execute, instr_match_iff]
  constructor
  · rintro ⟨i, hperm, hwin⟩
    rcases execute_entries i hperm with rfl | rfl
    · exact .inl (at_window_iff.mpr hwin)
    · exact .inr (at_window_iff.mpr hwin)
  · rintro (h | h)
    · exact ⟨0, by decide, at_window_iff.mp h⟩
    · exact ⟨5, by decide, at_window_iff.mp h⟩

/-! ## The memory of a task -/

/-- The byte `b` is in `[addr, addr + size)`. -/
def InRegion {u v : ℕ} (addr : BitVec u) (size : BitVec v) (b : BitVec 32) : Prop :=
  addr.toNat ≤ b.toNat ∧ b.toNat < addr.toNat + size.toNat

/-- Address and size lie in a memory. -/
def LiesIn {u v : ℕ} (start_addr end_addr : ℕ) (addr : BitVec u) (size : BitVec v) : Prop :=
  start_addr ≤ addr.toNat ∧ addr.toNat < end_addr ∧ addr.toNat + size.toNat ≤ end_addr

instance {u v : ℕ} (start_addr end_addr : ℕ) (addr : BitVec u) (size : BitVec v) :
    Decidable (LiesIn start_addr end_addr addr size) := instDecidableAnd

/-- A region in a memory lies in the block of that memory. -/
theorem LiesIn.block {u v lo hi n w : ℕ} {addr : BitVec u} {size : BitVec v}
    (hin : LiesIn lo hi addr size) (hlo : w * 2 ^ n ≤ lo) (hhi : hi ≤ (w + 1) * 2 ^ n) :
    addr.toNat / 2 ^ n = w :=
  Nat.div_eq_of_lt_le (le_trans hlo hin.1) (lt_of_lt_of_le hin.2.1 hhi)

/-- A memory inside one block has all its regions there. -/
theorem LiesIn.block_of {u v lo hi n w : ℕ} {addr : BitVec u} {size : BitVec v} {b : BitVec 32}
    (hin : LiesIn lo hi addr size) (hlo : w * 2 ^ n ≤ lo) (hhi : hi ≤ (w + 1) * 2 ^ n)
    (hb : InRegion addr size b) : b.toNat / 2 ^ n = w := by
  apply Nat.div_eq_of_lt_le
  · exact le_trans hlo (le_trans hin.1 hb.1)
  · exact lt_of_lt_of_le hb.2 (le_trans hin.2.2 hhi)

/-- **A region in one block.** The bytes of a region are all in the block of the first when the
region ends before the block does. -/
theorem one_block_iff {u v n : ℕ} {addr : BitVec u} {size : BitVec v}
    (hmem : addr.toNat + size.toNat < 2 ^ 32) :
    (∀ b, InRegion addr size b → b.toNat / 2 ^ n = addr.toNat / 2 ^ n)
      ↔ addr.toNat % 2 ^ n + size.toNat ≤ 2 ^ n := by
  have hpow : 0 < 2 ^ n := Nat.pow_pos (by decide)
  have hsplit := Nat.div_add_mod addr.toNat (2 ^ n)
  have hmod := Nat.mod_lt addr.toNat hpow
  constructor
  · intro hall
    by_contra hcross
    -- the first byte of the next block
    have hnext : addr.toNat + (2 ^ n - addr.toNat % 2 ^ n) < 2 ^ 32 := by omega
    have hval := BitVec.toNat_ofNat (addr.toNat + (2 ^ n - addr.toNat % 2 ^ n)) 32
    rw [Nat.mod_eq_of_lt hnext] at hval
    have hblock := hall (BitVec.ofNat 32 (addr.toNat + (2 ^ n - addr.toNat % 2 ^ n)))
      ⟨by omega, by omega⟩
    have hend : addr.toNat + (2 ^ n - addr.toNat % 2 ^ n)
        = 2 ^ n * (addr.toNat / 2 ^ n + 1) := by
      rw [Nat.mul_add, Nat.mul_one]
      omega
    rw [hval, hend, Nat.mul_div_cancel_left _ hpow] at hblock
    omega
  · intro hfit b hb
    apply Nat.div_eq_of_lt_le
    · exact le_trans (Nat.div_mul_le_self _ _) hb.1
    · have h2 := hb.2
      rw [Nat.add_mul, Nat.mul_comm, Nat.one_mul]
      omega

/-- What the driver may rely on: the task's packet and its memory lie where packets and handlers'
memories do. -/
structure InMemories (cluster_id_i : BitVec 6) (t : hpu_handler_task_t) : Prop where
  pkt_l1 : LiesIn (cl_start_addr cluster_id_i.toNat) (cl_end_addr cluster_id_i.toNat)
    t.pkt_ptr t.handler_task.pkt_size
  pkt_l2 : LiesIn l2_pkt_start_addr l2_pkt_end_addr t.handler_task.pkt_addr
    t.handler_task.pkt_size
  handler_mem : LiesIn l2_hnd_start_addr l2_hnd_end_addr t.handler_task.handler_mem_addr
    t.handler_task.handler_mem_size
  scratchpad : ∀ k : Fin NUM_CLUSTERS, LiesIn (cl_start_addr k) (cl_end_addr k)
    (TaskFrontend.l1_scratchpad_addr t k) (t.handler_task.scratchpad_size k)
  handler_fun : LiesIn l2_prog_start_addr l2_prog_end_addr t.handler_task.handler_fun
    t.handler_task.handler_fun_size

/-- A handler may touch all of its memory. -/
structure Covered (c : Config N_PMP_ENTRIES) (t : hpu_handler_task_t) : Prop where
  pkt_l1 : ∀ b, InRegion t.pkt_ptr t.handler_task.pkt_size b → ReadWrite c b
  pkt_l2 : ∀ b, InRegion t.handler_task.pkt_addr t.handler_task.pkt_size b → ReadWrite c b
  handler_mem : ∀ b,
    InRegion t.handler_task.handler_mem_addr t.handler_task.handler_mem_size b → ReadWrite c b
  scratchpad : ∀ (k : Fin NUM_CLUSTERS) (b : BitVec 32),
    InRegion (TaskFrontend.l1_scratchpad_addr t k) (t.handler_task.scratchpad_size k) b →
      ReadWrite c b
  handler_fun : ∀ b, InRegion t.handler_task.handler_fun t.handler_task.handler_fun_size b →
    Execute c b

section Coverage

variable (hc : cluster_id_i.toNat < NUM_CLUSTERS)

include hc

/-- All clusters share the upper bits of their addresses. -/
theorem l1_base_block : (l1_base_addr cluster_id_i).toNat / 2 ^ 24 = 0x10 := by
  have hlt : cluster_id_i.toNat < 2 := hc
  have hval : (l1_base_addr cluster_id_i).toNat
      = (0x10000000 + cluster_id_i.toNat * 0x00400000) % 2 ^ 32 := BitVec.toNat_ofNat _ _
  omega

omit hc in
theorem cl_block {k : ℕ} (hk : k < NUM_CLUSTERS) :
    0x10 * 2 ^ 24 ≤ cl_start_addr k ∧ cl_end_addr k ≤ (0x10 + 1) * 2 ^ 24 := by
  have hk2 : k < 2 := hk
  simp only [cl_start_addr, cl_end_addr, L1_CLUSTER_BASE, L1_CLUSTER_MEM_SIZE]
  omega

/-- The L1 of every cluster is in the window of the stack. -/
theorem l1_read_write {u v k : ℕ} (hk : k < NUM_CLUSTERS) {addr : BitVec u} {size : BitVec v}
    {b : BitVec 32} (hin : LiesIn (cl_start_addr k) (cl_end_addr k) addr size)
    (hb : InRegion addr size b) : ReadWrite (pmp_d cluster_id_i t) b := by
  have hblock := hin.block_of (cl_block hk).1 (cl_block hk).2 hb
  rw [read_write_iff, l1_base_block hc]
  exact .inl hblock

/-- In the packet buffer only the 4 KiB around the packet's address are open. -/
theorem pkt_read_write_iff (hin : InMemories cluster_id_i t) {b : BitVec 32}
    (hb : InRegion t.handler_task.pkt_addr t.handler_task.pkt_size b) :
    ReadWrite (pmp_d cluster_id_i t) b
      ↔ b.toNat / 2 ^ 12 = t.handler_task.pkt_addr.toNat / 2 ^ 12 := by
  have hpkt : b.toNat / 2 ^ 20 = 0x1C1 := hin.pkt_l2.block_of (by decide) (by decide) hb
  -- the other windows that depend on the task are in other memories
  have hptr : t.pkt_ptr.toNat / 2 ^ 24 = 0x10 := hin.pkt_l1.block (cl_block hc).1 (cl_block hc).2
  have hhnd : t.handler_task.handler_mem_addr.toNat / 2 ^ 20 = 0x1C0 :=
    hin.handler_mem.block (by decide) (by decide)
  have hs0 : (TaskFrontend.l1_scratchpad_addr t 0).toNat / 2 ^ 24 = 0x10 :=
    (hin.scratchpad ⟨0, by decide⟩).block (by decide) (by decide)
  have hs1 : (TaskFrontend.l1_scratchpad_addr t 1).toNat / 2 ^ 24 = 0x10 :=
    (hin.scratchpad ⟨1, by decide⟩).block (by decide) (by decide)
  rw [read_write_iff, l1_base_block hc]
  constructor
  · rintro (h | h | h | h | h | h | h | h)
    case inr.inr.inr.inl => exact h
    all_goals omega
  · intro h
    simp only [h, true_or, or_true]

/-- **Coverage of the L2 packet.** A packet is covered when it ends in the 4 KiB block in which
it starts. -/
theorem pkt_l2_covered_iff (hin : InMemories cluster_id_i t) :
    (∀ b, InRegion t.handler_task.pkt_addr t.handler_task.pkt_size b →
      ReadWrite (pmp_d cluster_id_i t) b)
    ↔ t.handler_task.pkt_addr.toNat % 2 ^ 12 + t.handler_task.pkt_size.toNat ≤ 2 ^ 12 := by
  have hend : l2_pkt_end_addr < 2 ^ 32 := by decide
  rw [← one_block_iff (lt_of_le_of_lt hin.pkt_l2.2.2 hend)]
  exact forall₂_congr fun b hb => pkt_read_write_iff hc hin hb

/-- **Coverage of a task.** Only the L2 packet can be cut off. -/
theorem covered_pmp_d_iff (hin : InMemories cluster_id_i t) :
    Covered (pmp_d cluster_id_i t) t
      ↔ t.handler_task.pkt_addr.toNat % 2 ^ 12 + t.handler_task.pkt_size.toNat ≤ 2 ^ 12 := by
  rw [← pkt_l2_covered_iff hc hin]
  constructor
  · intro h
    exact h.pkt_l2
  · intro hpkt
    refine ⟨fun b hb => l1_read_write hc hc hin.pkt_l1 hb, hpkt, fun b hb => ?_,
      fun k b hb => l1_read_write hc k.isLt (hin.scratchpad k) hb, fun b hb => ?_⟩
    · -- the handler memory is one block of 1 MiB
      have hb' := hin.handler_mem.block_of (by decide : 0x1C0 * 2 ^ 20 ≤ _) (by decide) hb
      have ha := hin.handler_mem.block (by decide : 0x1C0 * 2 ^ 20 ≤ _) (by decide)
      rw [read_write_iff]
      exact .inr (.inr (.inr (.inr (.inl (hb'.trans ha.symm)))))
    · rw [execute_iff]
      exact .inl (hin.handler_fun.block_of (by decide) (by decide) hb)

end Coverage

/-! ## Runs -/

/-- A state of a run in which the HPU has been running the task for a cycle. -/
def Serving (cluster_id_i : BitVec 6) (t : hpu_handler_task_t) (s : State) : Prop :=
  ∃ (is : List TaskFrontend.Input) (i : TaskFrontend.Input),
    (Sync.run (step cluster_id_i) reset is).i_task_frontend.state_q = .Running
      ∧ (Sync.run (step cluster_id_i) reset is).i_task_frontend.current_task_q = t
      ∧ s = step cluster_id_i (Sync.run (step cluster_id_i) reset is) i

/-- The registers have followed the task. -/
theorem Serving.pmp_eq {s : State} (h : Serving cluster_id_i t s)
    (pmp_cs : Config N_PMP_ENTRIES) : pmp_o s pmp_cs = pmp_d cluster_id_i t := by
  obtain ⟨is, i, -, htask, rfl⟩ := h
  simp only [pmp_o, core_config, step, htask, if_true]

/-- A task that is handed over is served from the second cycle on. -/
theorem serving_of_accept (is : List TaskFrontend.Input) {i : TaskFrontend.Input}
    (hidle : (Sync.run (step cluster_id_i) reset is).i_task_frontend.state_q = .Idle)
    (hvalid : i.hpu_task_valid_i = true) (hfun : i.hpu_task_i.handler_task.handler_fun ≠ 0)
    (j : TaskFrontend.Input) :
    Serving cluster_id_i i.hpu_task_i
      (step cluster_id_i (step cluster_id_i (Sync.run (step cluster_id_i) reset is) i) j) := by
  have hrun : Sync.run (step cluster_id_i) reset (is ++ [i])
      = step cluster_id_i (Sync.run (step cluster_id_i) reset is) i := by
    simp [Sync.run]
  refine ⟨is ++ [i], j, ?_, ?_, by rw [hrun]⟩
  · rw [hrun]
    simpa [step, TaskFrontend.step, TaskFrontend.state_d, hidle, hvalid] using hfun
  · rw [hrun]
    simp [step, TaskFrontend.step, TaskFrontend.current_task_d, hidle, hvalid]

/-- **What the PMP of a core leaves to its task.** While the HPU runs a task whose memory lies
where the address map has it, all of it is open to the handler, with the exception of what
the L2 packet has beyond the 4 KiB block it starts in. -/
theorem covered_iff {s : State} (h : Serving cluster_id_i t s)
    (hc : cluster_id_i.toNat < NUM_CLUSTERS) (hin : InMemories cluster_id_i t)
    (pmp_cs : Config N_PMP_ENTRIES) :
    Covered (pmp_o s pmp_cs) t
      ↔ t.handler_task.pkt_addr.toNat % 4096 + t.handler_task.pkt_size.toNat ≤ 4096 := by
  rw [h.pmp_eq pmp_cs]
  exact covered_pmp_d_iff hc hin

/-! A packet of 1000 bytes that ends before the first 4 KiB of the buffer do, and one of 1536
bytes from the same address, which does not. -/

/-- A task with a packet of this size. -/
def demo_task (pkt_size : mem_size_t) : hpu_handler_task_t where
  handler_task :=
    { msgid := 0, handler_fun := 0x1d000400, handler_fun_size := 256
      handler_mem_addr := 0x1c0c0000, handler_mem_size := 0x40000
      host_mem_addr := 0, host_mem_size := 0
      pkt_addr := 0x1c100c00, pkt_size := pkt_size, trigger_feedback := true
      scratchpad_addr := fun _ => 0, scratchpad_size := fun _ => 4096 }
  pkt_ptr := 0x10004400

/-- A cycle in which a task is offered, or not. -/
def demo_cycle (task : Option hpu_handler_task_t) : TaskFrontend.Input where
  hpu_task_valid_i := task.isSome
  hpu_task_i := task.getD TaskFrontend.zero_task
  hpu_feedback_ready_i := true
  req_i := true
  add_i := 0
  can_send_feedback_i := true

/-- The core reports, a task comes in, and its first load is answered. -/
def demo_state (t : hpu_handler_task_t) : State :=
  step 0 (step 0 (Sync.run (step 0) reset [demo_cycle none]) (demo_cycle (some t)))
    (demo_cycle none)

theorem serving_demo (pkt_size : mem_size_t) :
    Serving 0 (demo_task pkt_size) (demo_state (demo_task pkt_size)) :=
  have hfun : (demo_task pkt_size).handler_task.handler_fun ≠ 0 := by
    show (0x1d000400 : mem_addr_t) ≠ 0
    decide
  serving_of_accept [demo_cycle none] (i := demo_cycle (some (demo_task pkt_size))) rfl rfl hfun _

theorem covered_iff_demo : Serving 0 (demo_task 1000) (demo_state (demo_task 1000))
    ∧ InMemories 0 (demo_task 1000)
    ∧ (Covered (pmp_o (demo_state (demo_task 1000)) reset.pmp_q) (demo_task 1000)
        ↔ 3072 + 1000 ≤ 4096)
    ∧ (∀ b, InRegion 0x1c100c00#32 1000#32 b → ∀ data_we_i, req_o (allowed .PRIV_LVL_U
        (data_match_region (pmp_o (demo_state (demo_task 1000)) reset.pmp_q) data_we_i b)) true)
    ∧ ∀ b, InRegion 0x1d000400#32 256#32 b → req_o (allowed .PRIV_LVL_U
        (instr_match_region (pmp_o (demo_state (demo_task 1000)) reset.pmp_q) b)) true := by
  have hin : InMemories 0 (demo_task 1000) :=
    ⟨by decide, by decide, by decide, by decide, by decide⟩
  have hiff := covered_iff (serving_demo 1000) (by decide) hin reset.pmp_q
  have hcov := hiff.mpr (by decide)
  -- the handler's accesses to its packet pass, and so does fetching its code
  refine ⟨serving_demo 1000, hin, hiff, fun b hb data_we_i => ?_, fun b hb => ?_⟩
  · exact ((hcov.pkt_l2 b hb).passes .PRIV_LVL_U data_we_i true).1
  · exact ((hcov.handler_fun b hb).passes .PRIV_LVL_U true).1

/-- The first byte past the block is in the packet and is not open. -/
theorem straddling_packet : Serving 0 (demo_task 1536) (demo_state (demo_task 1536))
    ∧ InMemories 0 (demo_task 1536)
    ∧ InRegion 0x1c100c00#32 1536#32 0x1c101000
    ∧ ¬ ReadWrite (pmp_o (demo_state (demo_task 1536)) reset.pmp_q) 0x1c101000
    ∧ ¬ Covered (pmp_o (demo_state (demo_task 1536)) reset.pmp_q) (demo_task 1536) := by
  have hserving := serving_demo 1536
  have hin : InMemories 0 (demo_task 1536) :=
    ⟨by decide, by decide, by decide, by decide, by decide⟩
  have hregion : InRegion 0x1c100c00#32 1536#32 0x1c101000 := ⟨by decide, by decide⟩
  have hclosed : ¬ ReadWrite (pmp_o (demo_state (demo_task 1536)) reset.pmp_q) 0x1c101000 := by
    rw [hserving.pmp_eq, pkt_read_write_iff (by decide) hin hregion]
    decide
  exact ⟨hserving, hin, hregion, hclosed, fun hcov => hclosed (hcov.pkt_l2 _ hregion)⟩

end Pspin.HpuPmp
