/-
The command descriptors of `pspin_cfg_pkg`, and what the interfaces read of them.

The descriptor of a command is a union: nineteen words, or one of three packed structs. The
fields of a packed struct are listed from the most significant bit down, so the last field
of each begins at bit 0 of word 0.
-/
import Pspin.Config
import Pspin.WordPacking

set_option autoImplicit false

namespace Pspin

abbrev nid_t := BitVec 32
abbrev fid_t := BitVec 32
abbrev user_ptr_t := BitVec 64

/-- NIC put or send. -/
structure nic_cmd_t where
  user_ptr : user_ptr_t
  length : mem_size_t
  src_addr : host_addr_t
  fid : fid_t
  nid : nid_t
deriving DecidableEq

/-- DMA between the host and PsPIN. -/
structure host_dma_cmd_t where
  user_ptr : user_ptr_t
  nic_to_host : Bool
  length : mem_size_t
  nic_addr : mem_addr_t
  host_addr : host_addr_t
deriving DecidableEq

/-- Immediate data to the host. -/
structure host_direct_cmd_t where
  imm_data : BitVec AXI_WIDE_DW
  imm_data_size : BitVec (Nat.clog 2 AXI_WIDE_DW)
  nic_to_host : Bool
  host_addr : host_addr_t
deriving DecidableEq

namespace pspin_cmd_descr_t

variable (d : pspin_cmd_descr_t)

/-- The nineteen words as one. -/
def bits : BitVec (32 * 19) := WordPacking.packed d.words

/-- The packed struct of the NIC's commands. -/
def nic_cmd : nic_cmd_t where
  nid := d.bits.extractLsb' 0 32
  fid := d.bits.extractLsb' 32 32
  src_addr := d.bits.extractLsb' 64 64
  length := d.bits.extractLsb' 128 32
  user_ptr := d.bits.extractLsb' 160 64

/-- The packed struct of the transfers. -/
def host_dma_cmd : host_dma_cmd_t where
  host_addr := d.bits.extractLsb' 0 64
  nic_addr := d.bits.extractLsb' 64 32
  length := d.bits.extractLsb' 96 32
  nic_to_host := d.bits.getLsbD 128
  user_ptr := d.bits.extractLsb' 129 64

/-- Between `imm_data_size` and `imm_data` 22 bits are unused. -/
def host_direct_cmd : host_direct_cmd_t where
  host_addr := d.bits.extractLsb' 0 64
  nic_to_host := d.bits.getLsbD 64
  imm_data_size := d.bits.extractLsb' 65 _
  imm_data := d.bits.extractLsb' 96 _

end pspin_cmd_descr_t

/-! ## The NIC -/

/-- `nic_cmd_req_*_o`; the user pointer is not read by the NIC. -/
structure nic_cmd_req_t where
  nid : nid_t
  fid : fid_t
  src_addr : host_addr_t
  length : mem_size_t
deriving DecidableEq

/-- What the NIC gets of a command. -/
def nic_cmd_req (cmd : pspin_cmd_t) : nic_cmd_req_t where
  nid := cmd.descr.nic_cmd.nid
  fid := cmd.descr.nic_cmd.fid
  src_addr := cmd.descr.nic_cmd.src_addr
  length := cmd.descr.nic_cmd.length

/-! ## `soc_dma_wrap` -/

/-- Bit 64 of an address selects the host. -/
structure transf_descr_soc_t where
  num_bytes : mem_size_t
  dst_addr : BitVec 65
  src_addr : BitVec 65
deriving DecidableEq

/-- An address in the memory of the host. -/
def host_side (a : host_addr_t) : BitVec 65 := 1#1 ++ a

/-- An address in the memory of the NIC. -/
def nic_side (a : mem_addr_t) : BitVec 65 := 0#33 ++ a

/-- What the engine gets of a command. The two sides change places with the direction. -/
def xfer_descr (cmd : pspin_cmd_t) : transf_descr_soc_t :=
  let c := cmd.descr.host_dma_cmd
  { num_bytes := c.length
    dst_addr := if c.nic_to_host then host_side c.host_addr else nic_side c.nic_addr
    src_addr := if c.nic_to_host then nic_side c.nic_addr else host_side c.host_addr }

/-! ## `host_direct` -/

/-- Byte lanes of the wide port. -/
def AXI_STRB : ℕ := AXI_WIDE_DW / 8

/-- A write beat as `host_direct` buffers it. -/
structure w_descr_t where
  data : BitVec AXI_WIDE_DW
  strb : BitVec AXI_STRB
deriving DecidableEq

/-- The address is that of the host, with its offset in the line. -/
def fifo_ax_data_in (cmd : pspin_cmd_t) : host_addr_t := cmd.descr.host_direct_cmd.host_addr

/-- The shift amount is 32 bits wide. -/
def fifo_w_data_in (cmd : pspin_cmd_t) : w_descr_t where
  data := cmd.descr.host_direct_cmd.imm_data
  strb := BitVec.allOnes _ >>>
    (BitVec.ofNat 32 AXI_STRB - cmd.descr.host_direct_cmd.imm_data_size.setWidth 32).toNat

/-- The byte lanes that a beat writes, each with its byte. -/
def w_descr_t.lanes (d : w_descr_t) : List (ℕ × BitVec 8) :=
  ((List.range AXI_STRB).filter d.strb.getLsbD).map fun k => (k, d.data.extractLsb' (8 * k) 8)

/-! ## Fields and words -/

namespace pspin_cmd_descr_t

variable {d : pspin_cmd_descr_t}

/-- The fields by their words: the destination. -/
theorem nid_eq : d.nic_cmd.nid = d.words 0 :=
  WordPacking.extract_word d.words 0

theorem fid_eq : d.nic_cmd.fid = d.words 1 :=
  WordPacking.extract_word d.words 1

theorem src_addr_eq : d.nic_cmd.src_addr = d.words 3 ++ d.words 2 :=
  WordPacking.extract_two_words d.words 2 3 rfl

theorem nic_length_eq : d.nic_cmd.length = d.words 4 :=
  WordPacking.extract_word d.words 4

/-- The fields of a transfer: the host's address. -/
theorem dma_host_addr_eq : d.host_dma_cmd.host_addr = d.words 1 ++ d.words 0 :=
  WordPacking.extract_two_words d.words 0 1 rfl

theorem nic_addr_eq : d.host_dma_cmd.nic_addr = d.words 2 :=
  WordPacking.extract_word d.words 2

theorem dma_length_eq : d.host_dma_cmd.length = d.words 3 :=
  WordPacking.extract_word d.words 3

theorem dma_nic_to_host_eq : d.host_dma_cmd.nic_to_host = (d.words 4).getLsbD 0 :=
  WordPacking.getLsbD_packed d.words 4 (by decide : 0 < 32)

/-- The fields of a direct write: the host's address. -/
theorem direct_host_addr_eq : d.host_direct_cmd.host_addr = d.words 1 ++ d.words 0 :=
  WordPacking.extract_two_words d.words 0 1 rfl

theorem direct_nic_to_host_eq : d.host_direct_cmd.nic_to_host = (d.words 2).getLsbD 0 :=
  WordPacking.getLsbD_packed d.words 2 (by decide : 0 < 32)

/-- The size follows the direction in word 2. -/
theorem imm_data_size_eq : d.host_direct_cmd.imm_data_size = (d.words 2).extractLsb' 1 _ :=
  WordPacking.extract_in_word d.words 2 (by decide +kernel : 1 + Nat.clog 2 AXI_WIDE_DW ≤ 32)

/-- The first eight bytes of the immediate data. -/
theorem imm_data_low : d.host_direct_cmd.imm_data.extractLsb' 0 64 = d.words 4 ++ d.words 3 := by
  have htwo := WordPacking.extract_two_words d.words 3 4 rfl
  rw [← htwo]
  apply BitVec.eq_of_getLsbD_eq
  intro k hk
  have hin : k < AXI_WIDE_DW := lt_trans hk (by decide)
  rw [BitVec.getLsbD_extractLsb', BitVec.getLsbD_extractLsb', host_direct_cmd,
    BitVec.getLsbD_extractLsb', Nat.zero_add, decide_eq_true hin, Bool.true_and]
  rfl

end pspin_cmd_descr_t

/-! ## The bytes of a direct write -/

/-- The strobe has its `imm_data_size` low bits set. -/
theorem strb_eq {cmd : pspin_cmd_t} (hle : cmd.descr.host_direct_cmd.imm_data_size.toNat ≤ AXI_STRB)
    (k : ℕ) : (fifo_w_data_in cmd).strb.getLsbD k
      = decide (k < cmd.descr.host_direct_cmd.imm_data_size.toNat) := by
  set size := cmd.descr.host_direct_cmd.imm_data_size with hsize
  have hstrb : AXI_STRB < 2 ^ 32 := by decide
  have hshift : (BitVec.ofNat 32 AXI_STRB - size.setWidth 32).toNat = AXI_STRB - size.toNat := by
    have hwide : (size.setWidth 32).toNat = size.toNat := by
      rw [BitVec.toNat_setWidth, Nat.mod_eq_of_lt (by omega)]
    have hnat : (BitVec.ofNat 32 AXI_STRB).toNat = AXI_STRB := by
      rw [BitVec.toNat_ofNat, Nat.mod_eq_of_lt hstrb]
    rw [BitVec.toNat_sub_of_le, hnat, hwide]
    rw [BitVec.le_def, hnat, hwide]
    exact hle
  rw [fifo_w_data_in, ← hsize, hshift, BitVec.getLsbD_ushiftRight, BitVec.getLsbD_allOnes]
  apply decide_eq_decide.mpr
  omega

theorem filter_range_lt {n m : ℕ} (h : n ≤ m) :
    (List.range m).filter (fun k => decide (k < n)) = List.range n := by
  obtain ⟨r, rfl⟩ := Nat.exists_eq_add_of_le h
  rw [List.range_add, List.filter_append, List.filter_eq_self.mpr, List.filter_eq_nil_iff.mpr,
    List.append_nil]
  · intro k hk
    obtain ⟨j, -, rfl⟩ := List.mem_map.mp hk
    rw [decide_eq_true_eq]
    omega
  · intro k hk
    exact decide_eq_true (List.mem_range.mp hk)

/-- A size of at most a beat selects as many low lanes. -/
theorem lanes_eq {cmd : pspin_cmd_t} (hle : cmd.descr.host_direct_cmd.imm_data_size.toNat ≤ AXI_STRB) :
    (fifo_w_data_in cmd).lanes = (List.range cmd.descr.host_direct_cmd.imm_data_size.toNat).map
      fun k => (k, cmd.descr.host_direct_cmd.imm_data.extractLsb' (8 * k) 8) := by
  rw [w_descr_t.lanes, ← filter_range_lt hle]
  congr 1
  exact List.filter_congr fun k _ => strb_eq hle k

end Pspin
