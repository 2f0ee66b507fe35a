/-
`AXIDriver`: beats, and how a transfer is split into bursts.

A burst has at most 256 beats and does not cross a page of 4 KiB. Its first beat begins
at the address of the transfer; the others are full lines. A transfer that fits into one
line is a single beat of the least size that covers its bytes.

Addresses are `AW` bits wide. The fields of an Ax beat that are always zero are left out.
-/
import Mathlib.Algebra.Order.Ring.Nat
import Mathlib.Data.Nat.Log
import Mathlib.Tactic.Common

set_option autoImplicit false

namespace Pspin.AxiDriver

/-- Bytes of a line, the data bus. -/
def AXI_SW : ℕ := 64

/-- The code of AXI for incrementing bursts. -/
def AXI_BURST_INCR : BitVec 8 := 1

structure axi_ax_beat_t (AW : ℕ) where
  ax_addr : BitVec AW
  /-- Beats of the burst, less one. -/
  ax_len : BitVec 8
  /-- Logarithm of the bytes in a beat. -/
  ax_size : BitVec 8
  ax_burst : BitVec 8
deriving DecidableEq

structure axi_w_beat_t where
  w_data : Fin AXI_SW → BitVec 8
  w_strb : BitVec AXI_SW
  w_last : Bool

/-- A burst and the bytes that it carries. -/
structure beat_and_size_t (AW : ℕ) where
  beat : axi_ax_beat_t AW
  n_bytes : ℕ
deriving DecidableEq

variable {AW : ℕ}

/-! ## Beats

Byte lanes are `uint32_t`. -/

def axi_num_bytes (size : BitVec 8) : ℕ := 2 ^ size.toNat

/-- The address of a beat's first lane. -/
def axi_aligned_address (addr : BitVec AW) (size : BitVec 8) : BitVec AW :=
  BitVec.ofNat AW (addr.toNat / axi_num_bytes size * axi_num_bytes size)

/-- The address of the line. -/
def line_address (addr : BitVec AW) : BitVec AW := BitVec.ofNat AW (addr.toNat / AXI_SW * AXI_SW)

/-- Where beat `i_beat` begins: the first one at the address itself, the others at their lanes. -/
def beat_addr (ax : axi_ax_beat_t AW) (i_beat : ℕ) : BitVec AW :=
  if i_beat = 0 then ax.ax_addr
  else axi_aligned_address ax.ax_addr ax.ax_size
    + BitVec.ofNat AW (i_beat * axi_num_bytes ax.ax_size)

/-- The first lane of the beat. -/
def beat_lower_byte (ax : axi_ax_beat_t AW) (i_beat : ℕ) : BitVec 32 :=
  (beat_addr ax i_beat - line_address (beat_addr ax i_beat)).setWidth 32

def beat_upper_byte (ax : axi_ax_beat_t AW) (i_beat n_bytes : ℕ) : BitVec 32 :=
  let size := axi_num_bytes ax.ax_size
  if i_beat = 0 then
    (axi_aligned_address ax.ax_addr ax.ax_size + BitVec.ofNat AW size
      - line_address ax.ax_addr).setWidth 32
  else if i_beat = ax.ax_len.toNat then
    BitVec.ofNat 32 n_bytes - (BitVec.ofNat 32 AXI_SW - beat_lower_byte ax 0)
      - (BitVec.ofNat 32 ax.ax_len.toNat - 1) * BitVec.ofNat 32 AXI_SW
  else beat_lower_byte ax i_beat + BitVec.ofNat 32 size

def page_num (addr : BitVec AW) : ℕ := addr.toNat >>> 12

/-! ## Bursts -/

/-- The last byte of a transfer. -/
def last_addr (addr : BitVec AW) (n_bytes : ℕ) : BitVec AW := addr + BitVec.ofNat AW n_bytes - 1

/-- The search for the size in `create_ax_beats`, bounded by the sizes there are and without
its assertion: the size is incremented until the beat covers the bytes. `search_size` of
`AxiSplit` is the loop as the source has it. -/
def fit_size (addr : BitVec AW) (n_bytes : ℕ) : ℕ → BitVec 8 → BitVec 8
  | 0, size => size
  | n + 1, size =>
    let ax : axi_ax_beat_t AW := ⟨addr, 0, size, AXI_BURST_INCR⟩
    if (beat_upper_byte ax 0 n_bytes - beat_lower_byte ax 0).toNat < n_bytes then
      fit_size addr n_bytes n (size + 1)
    else size

/-- The size of the beats: the whole bus, unless all bytes lie in one line. `search_ax_size` of
`AxiSplit` is the same with the assertion. -/
def ax_size_of (addr : BitVec AW) (n_bytes : ℕ) : BitVec 8 :=
  let line := BitVec.ofNat 8 (Nat.log 2 AXI_SW)
  if AXI_SW < n_bytes ∨ addr >>> line ≠ last_addr addr n_bytes >>> line then line
  else fit_size addr n_bytes (Nat.log 2 AXI_SW) (BitVec.ofNat 8 (Nat.log 2 n_bytes))

/-- The burst at `addr`, where the transfer does not leave the page. -/
def burst_at (addr : BitVec AW) (n_bytes : ℕ) : beat_and_size_t AW :=
  let bytes_in_first_beat := min n_bytes (AXI_SW - addr.toNat % AXI_SW)
  let rest := n_bytes - bytes_in_first_beat
  let n_beats := 1 + (rest + AXI_SW - 1) / AXI_SW
  let bytes_in_last_beat := rest - AXI_SW * (n_beats - 2)
  -- at most 256 beats, all but the first full
  let (n_beats, bytes_in_last_beat) :=
    if 256 < n_beats then (256, AXI_SW) else (n_beats, bytes_in_last_beat)
  let bytes_in_burst := bytes_in_first_beat
    + if 1 < n_beats then (n_beats - 2) * AXI_SW + bytes_in_last_beat else 0
  { beat := ⟨addr, BitVec.ofNat 8 (n_beats - 1), ax_size_of addr n_bytes, AXI_BURST_INCR⟩
    n_bytes := bytes_in_burst }

/-- The bytes up to the end of the page. -/
def bytes_in_page (addr : BitVec AW) : ℕ := 4096 - addr.toNat % 4096

/-- The loop of `create_ax_beats`, with its recursive call for the bytes of the first page.
Every round and every call has fewer bytes, so their number bounds the rounds. This is the
total function that `AxiMaster` calls; `create_checked` of `AxiSplit` is the source's loop
step by step, with its assertion, and `create_ax_beats_split` says that the two agree. -/
def create_rounds : ℕ → BitVec AW → ℕ → List (beat_and_size_t AW)
  | 0, _, _ => []
  | r + 1, addr, n_bytes =>
    if n_bytes = 0 then []
    else if page_num addr ≠ page_num (last_addr addr n_bytes) then
      let bytes_in_burst := bytes_in_page addr
      create_rounds r addr bytes_in_burst
        ++ create_rounds r (addr + BitVec.ofNat AW bytes_in_burst) (n_bytes - bytes_in_burst)
    else
      let bs := burst_at addr n_bytes
      bs :: create_rounds r (addr + BitVec.ofNat AW bs.n_bytes) (n_bytes - bs.n_bytes)

/-- `create_ax_beats`: as many rounds as bytes are enough. -/
def create_ax_beats (addr : BitVec AW) (n_bytes : ℕ) : List (beat_and_size_t AW) :=
  create_rounds n_bytes addr n_bytes

/-! ## A transfer has bursts -/

section Rounds

variable {addr : BitVec AW} {n_bytes : ℕ}

theorem last_addr_succ (addr : BitVec AW) (n : ℕ) :
    last_addr addr (n + 1) = addr + BitVec.ofNat AW n := by
  rw [last_addr, BitVec.ofNat_add, ← BitVec.add_assoc]
  exact BitVec.add_sub_cancel _ _

/-- Bytes before the end of the page stay in it. -/
theorem page_num_add {n : ℕ} (h : addr.toNat % 4096 + n < 4096) :
    page_num (addr + BitVec.ofNat AW n) = page_num addr := by
  have haddr : addr.toNat < 2 ^ AW := addr.isLt
  rw [page_num, page_num, Nat.shiftRight_eq_div_pow, Nat.shiftRight_eq_div_pow, BitVec.toNat_add,
    BitVec.toNat_ofNat]
  show _ / 4096 = _ / 4096
  by_cases hAW : AW ≤ 12
  · -- one page is all there is
    have hone : 2 ^ AW ≤ 4096 := Nat.pow_le_pow_right (by decide) hAW
    have hsum : (addr.toNat + n % 2 ^ AW) % 2 ^ AW < 2 ^ AW := Nat.mod_lt _ (Nat.two_pow_pos AW)
    rw [Nat.div_eq_of_lt (by omega), Nat.div_eq_of_lt (by omega)]
  · -- the end of the page is in the address space
    obtain ⟨m, rfl⟩ := Nat.exists_eq_add_of_lt (Nat.lt_of_not_le hAW)
    have hpages : 2 ^ (12 + m + 1) = 4096 * 2 ^ (m + 1) := Nat.pow_add 2 12 (m + 1)
    rw [hpages] at haddr ⊢
    have hfit : addr.toNat + n < 4096 * 2 ^ (m + 1) := by
      have hpage : addr.toNat / 4096 < 2 ^ (m + 1) := Nat.div_lt_of_lt_mul haddr
      omega
    rw [Nat.mod_eq_of_lt (by omega : n < _), Nat.mod_eq_of_lt hfit]
    omega

/-- A transfer that leaves the page has bytes after its end. -/
theorem bytes_in_page_lt (hpos : 0 < n_bytes)
    (h : page_num addr ≠ page_num (last_addr addr n_bytes)) : bytes_in_page addr < n_bytes := by
  by_contra hle
  obtain ⟨n, rfl⟩ := Nat.exists_eq_add_of_lt hpos
  rw [Nat.zero_add] at hle h
  apply h
  rw [last_addr_succ]
  refine (page_num_add ?_).symm
  unfold bytes_in_page at hle
  omega

theorem bytes_in_page_pos : 0 < bytes_in_page addr := by
  unfold bytes_in_page
  omega

/-- A burst takes at least one of the bytes, and no more than there are. -/
theorem burst_bytes (addr : BitVec AW) (hpos : 0 < n_bytes) :
    0 < (burst_at addr n_bytes).n_bytes ∧ (burst_at addr n_bytes).n_bytes ≤ n_bytes := by
  unfold burst_at AXI_SW
  simp only
  have hline : addr.toNat % 64 < 64 := Nat.mod_lt _ (by decide)
  split_ifs <;> omega

/-- There are no more bursts than bytes. -/
theorem length_create_rounds_le : ∀ {r : ℕ} {addr : BitVec AW} {n_bytes : ℕ},
    (create_rounds r addr n_bytes).length ≤ n_bytes := by
  intro r
  induction r with
  | zero =>
    intro addr n_bytes
    exact Nat.zero_le _
  | succ r ih =>
    intro addr n_bytes
    rw [create_rounds]
    split_ifs with hzero hpage
    · exact Nat.zero_le _
    · -- the bytes of the page and the bytes after it
      have hlt := bytes_in_page_lt (by omega) hpage
      have hin : (create_rounds r addr (bytes_in_page addr)).length ≤ bytes_in_page addr := ih
      have hout : (create_rounds r (addr + BitVec.ofNat AW (bytes_in_page addr))
        (n_bytes - bytes_in_page addr)).length ≤ n_bytes - bytes_in_page addr := ih
      rw [List.length_append]
      omega
    · -- a burst of at least one byte
      have hbytes := burst_bytes addr (Nat.pos_of_ne_zero hzero)
      have hrest : (create_rounds r (addr + BitVec.ofNat AW (burst_at addr n_bytes).n_bytes)
        (n_bytes - (burst_at addr n_bytes).n_bytes)).length
          ≤ n_bytes - (burst_at addr n_bytes).n_bytes := ih
      rw [List.length_cons]
      omega

theorem create_rounds_ne_nil : ∀ {r : ℕ} {addr : BitVec AW} {n_bytes : ℕ}, 0 < n_bytes →
    n_bytes ≤ r → create_rounds r addr n_bytes ≠ [] := by
  intro r
  induction r with
  | zero =>
    intro addr n_bytes hpos hle
    omega
  | succ r ih =>
    intro addr n_bytes hpos hle
    rw [create_rounds, if_neg (by omega)]
    split_ifs with hpage
    · have hlt := bytes_in_page_lt hpos hpage
      exact List.append_ne_nil_of_left_ne_nil (ih bytes_in_page_pos (by omega)) _
    · exact List.cons_ne_nil _ _

/-- **At least one burst.** -/
theorem create_ax_beats_ne_nil (hpos : 0 < n_bytes) : create_ax_beats addr n_bytes ≠ [] :=
  create_rounds_ne_nil hpos (le_refl _)

/-- There are no more bursts than bytes. -/
theorem length_create_ax_beats_le : (create_ax_beats addr n_bytes).length ≤ n_bytes :=
  length_create_rounds_le

/-- The beats of a burst. -/
def n_beats (ax : axi_ax_beat_t AW) : ℕ := ax.ax_len.toNat + 1

/-- The beats of each burst of a transfer. -/
def burst_beats (addr : BitVec AW) (n_bytes : ℕ) : List ℕ :=
  (create_ax_beats addr n_bytes).map fun bs => n_beats bs.beat

/-- The lines of a burst hold its bytes. -/
theorem burst_bytes_le (addr : BitVec AW) (n_bytes : ℕ) :
    (burst_at addr n_bytes).n_bytes ≤ AXI_SW * n_beats (burst_at addr n_bytes).beat := by
  unfold n_beats burst_at AXI_SW
  simp only
  have hline : addr.toNat % 64 < 64 := Nat.mod_lt _ (by decide)
  split_ifs <;> simp only [BitVec.toNat_ofNat] <;> omega

theorem create_rounds_bytes_le : ∀ {r : ℕ} {addr : BitVec AW} {n_bytes : ℕ}, n_bytes ≤ r →
    n_bytes ≤ AXI_SW * ((create_rounds r addr n_bytes).map fun bs => n_beats bs.beat).sum := by
  intro r
  induction r with
  | zero =>
    intro addr n_bytes hle
    omega
  | succ r ih =>
    intro addr n_bytes hle
    rw [create_rounds]
    split_ifs with hzero hpage
    · omega
    · -- the bytes of the page and the bytes after it
      have hlt := bytes_in_page_lt (by omega) hpage
      have hpos : 0 < bytes_in_page addr := bytes_in_page_pos
      have hin : bytes_in_page addr
          ≤ AXI_SW * ((create_rounds r addr (bytes_in_page addr)).map
            fun bs => n_beats bs.beat).sum :=
        ih (by omega)
      have hout : n_bytes - bytes_in_page addr ≤ AXI_SW * ((create_rounds r
          (addr + BitVec.ofNat AW (bytes_in_page addr)) (n_bytes - bytes_in_page addr)).map
            fun bs => n_beats bs.beat).sum :=
        ih (by omega)
      rw [List.map_append, List.sum_append, Nat.mul_add]
      omega
    · -- the bytes of the burst and the bytes after it
      have hbytes := burst_bytes addr (Nat.pos_of_ne_zero hzero)
      have hlines := burst_bytes_le addr n_bytes
      have hrest : n_bytes - (burst_at addr n_bytes).n_bytes ≤ AXI_SW * ((create_rounds r
          (addr + BitVec.ofNat AW (burst_at addr n_bytes).n_bytes)
          (n_bytes - (burst_at addr n_bytes).n_bytes)).map fun bs => n_beats bs.beat).sum :=
        ih (by omega)
      rw [List.map_cons, List.sum_cons, Nat.mul_add]
      omega

/-- **Enough beats.** The lines of all bursts hold the bytes of the transfer. -/
theorem bytes_le_burst_beats : n_bytes ≤ AXI_SW * (burst_beats addr n_bytes).sum :=
  create_rounds_bytes_le (le_refl _)

/-- A transfer that is not empty has bursts, and each has beats. -/
theorem burst_beats_pos (hpos : 0 < n_bytes) :
    burst_beats addr n_bytes ≠ [] ∧ ∀ n ∈ burst_beats addr n_bytes, 0 < n := by
  refine ⟨fun hnil => create_ax_beats_ne_nil hpos (List.map_eq_nil_iff.mp hnil), fun n hn => ?_⟩
  obtain ⟨bs, -, rfl⟩ := List.mem_map.mp hn
  exact Nat.succ_pos _

end Rounds

end Pspin.AxiDriver
