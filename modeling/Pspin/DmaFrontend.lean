/-
`pulp_cluster_frontend`: the DMA engine of a cluster, as its cores see it.

Each core has a set of registers: source, destination and length of a transfer. A load
from `next_id` launches it; the load waits until the arbiter hands the descriptor to the
backend, and returns the id of the transfer. A load from `completed_id` returns the id of
the last transfer that is complete. Both ids come from `transfer_id_gen`, two counters that
start one apart. Another set is shared by the peripherals, and the packet scheduler has a
port of its own at the arbiter.

The ports are numbered: the sets of the cores from 0, the one of the peripherals, and last
the port of the packet scheduler.
-/
import Mathlib.Data.Bool.Basic
import Pspin.Config
import Pspin.RrArbTree

set_option autoImplicit false

namespace Pspin

/-! ## `transfer_id_gen` -/

namespace TransferIdGen

/-- The registers of `transfer_id_gen`. -/
structure State (ID_WIDTH : ℕ) where
  next_q : BitVec ID_WIDTH
  completed_q : BitVec ID_WIDTH

variable {ID_WIDTH : ℕ}

/-- The first transfer has id 1. -/
def reset : State ID_WIDTH := ⟨1, 0⟩

/-- The id of the next transfer. -/
def next_o (s : State ID_WIDTH) : BitVec ID_WIDTH := s.next_q

/-- The id of the last one that is done. -/
def completed_o (s : State ID_WIDTH) : BitVec ID_WIDTH := s.completed_q

def step (s : State ID_WIDTH) (issue_i retire_i : Bool) : State ID_WIDTH where
  next_q := if issue_i then s.next_q + 1 else s.next_q
  completed_q := if retire_i then s.completed_q + 1 else s.completed_q

end TransferIdGen

namespace DmaFrontend

/-- Register files: one for each core, and one for the cluster. -/
def NumRegs : ℕ := NUM_CORES + 1

/-! ## `pulp_cluster_frontend_regs` -/

structure Regs where
  /-- Source, destination and length. -/
  words : Fin 3 → BitVec 32
  conf_store_q : BitVec 3
  rdata_q : BitVec 32
  valid_q : Bool

def Regs.reset : Regs := ⟨fun _ => 0, 1, 0, false⟩

/-- An access of a core; `ctrl_type_i` is high for a load. -/
structure CtrlInput where
  ctrl_req_i : Bool
  ctrl_type_i : Bool
  ctrl_be_i : BitVec 4
  ctrl_add_i : BitVec 32
  ctrl_data_i : BitVec 32

/-- The byte offset of the access. -/
def reg_addr (c : CtrlInput) : ℕ := c.ctrl_add_i.toNat % 2 ^ 6

/-- The bytes that the access enables are replaced. -/
def write_bytes (old : BitVec 32) (c : CtrlInput) : BitVec 32 :=
  let byte (k : ℕ) : BitVec 8 :=
    if c.ctrl_be_i.getLsbD k then c.ctrl_data_i.extractLsb' (8 * k) 8 else old.extractLsb' (8 * k) 8
  byte 3 ++ byte 2 ++ byte 1 ++ byte 0

/-- What the registers answer in a cycle, and what they become. -/
structure Decode where
  ctrl_gnt_o : Bool
  rdata_d : BitVec 32
  valid_d : Bool
  be_valid_o : Bool
  words_d : Fin 3 → BitVec 32
  conf_store_d : BitVec 3

/-- The word at an address, if there is one. -/
def word_idx : ℕ → Option (Fin 3)
  | 0x00 => some 0
  | 0x08 => some 1
  | 0x10 => some 2
  | _ => none

/-- What an access does. A load of the id register launches the transfer, and is granted when the
backend takes it. -/
def decode (r : Regs) (c : CtrlInput) (next_id_i done_id_i : BitVec 32) (be_ready_i be_busy_i : Bool) :
    Decode :=
  let idle : Decode := ⟨c.ctrl_req_i, 0, c.ctrl_req_i, false, r.words, r.conf_store_q⟩
  if !c.ctrl_req_i then idle
  else match word_idx (reg_addr c) with
  | some w =>
    if c.ctrl_type_i then { idle with rdata_d := r.words w }
    else { idle with words_d := Function.update r.words w (write_bytes (r.words w) c) }
  | none =>
    if reg_addr c = 0x18 then
      -- next_id: a load waits for the arbiter, a store is granted at once
      if c.ctrl_type_i then
        { idle with
          ctrl_gnt_o := be_ready_i
          rdata_d := next_id_i
          valid_d := be_ready_i
          be_valid_o := true }
      else { idle with valid_d := be_ready_i }
    else if reg_addr c = 0x20 then
      -- completed_id
      if c.ctrl_type_i then { idle with rdata_d := done_id_i } else idle
    else if reg_addr c = 0x28 then
      -- the configuration in the last bits, and in bit 16 whether the backend is busy
      if c.ctrl_type_i then
        { idle with rdata_d := 0#15 ++ BitVec.ofBool be_busy_i ++ 0#13 ++ r.conf_store_q }
      else { idle with conf_store_d := c.ctrl_data_i.setWidth 3 }
    else idle

/-- The transfer that the registers describe. -/
def transf_descr_o (r : Regs) : transf_descr_32_t where
  num_bytes := r.words 2
  dst_addr := r.words 1
  src_addr := r.words 0
  decouple := r.conf_store_q.getLsbD 0
  deburst := r.conf_store_q.getLsbD 1
  serialize := r.conf_store_q.getLsbD 2

/-! ## `pulp_cluster_frontend` -/

structure State where
  regs : ℕ → Regs
  i_rr_arb_tree : RrArbTree.State
  i_transfer_id_gen : TransferIdGen.State 32

/-- The input ports in one cycle. -/
structure Input where
  ctrl : ℕ → CtrlInput
  dma_req_valid_i : Bool
  dma_req_i : transf_descr_32_t
  /-- The backend: ready for a transfer, done with one, and busy. -/
  be_ready_arb : Bool
  trans_complete : Bool
  busy : Bool

def reset : State where
  regs := fun _ => Regs.reset
  i_rr_arb_tree := RrArbTree.reset
  i_transfer_id_gen := TransferIdGen.reset

/-- The id that the next transfer gets. -/
def next_id (s : State) : BitVec 32 := TransferIdGen.next_o s.i_transfer_id_gen

/-- The id of the last transfer that is done. -/
def done_id (s : State) : BitVec 32 := TransferIdGen.completed_o s.i_transfer_id_gen

/-- Whether a set of registers asks for a transfer depends on the access alone. -/
def be_valid (c : CtrlInput) : Bool := c.ctrl_req_i && reg_addr c == 0x18 && c.ctrl_type_i

/-- Who asks for the backend: the register files, and the port of the scheduler behind them. -/
def arb_req (i : Input) (k : ℕ) : Bool :=
  if k < NumRegs then be_valid (i.ctrl k) else i.dma_req_valid_i

def arb_data (s : State) (i : Input) (k : ℕ) : transf_descr_32_t :=
  if k < NumRegs then transf_descr_o (s.regs k) else i.dma_req_i

/-- The ports of the arbiter. -/
def arb_input (i : Input) : RrArbTree.Input where
  req_i := arb_req i
  gnt_i := i.be_ready_arb

/-- The arbiter grants `k`. -/
def be_ready (s : State) (i : Input) (k : ℕ) : Bool :=
  RrArbTree.gnt_o (NumRegs + 1) s.i_rr_arb_tree (arb_input i) k

/-- A transfer is offered to the backend. -/
def be_valid_arb (s : State) (i : Input) : Bool :=
  RrArbTree.req_o (NumRegs + 1) s.i_rr_arb_tree (arb_req i)

def pe_idx_arb (s : State) (i : Input) : ℕ :=
  RrArbTree.idx_o (NumRegs + 1) s.i_rr_arb_tree (arb_req i)

def transf_descr_arb (s : State) (i : Input) : transf_descr_32_t := arb_data s i (pe_idx_arb s i)

/-- The transfer gets its id when the backend takes it. -/
def issue (s : State) (i : Input) : Bool :=
  -- a transfer of no bytes takes no id
  i.be_ready_arb && be_valid_arb s i && (transf_descr_arb s i).num_bytes != 0

/-- What the access of register file `k` does. -/
def regs_decode (s : State) (i : Input) (k : ℕ) : Decode :=
  decode (s.regs k) (i.ctrl k) (next_id s) (done_id s) (be_ready s i k) i.busy

def ctrl_gnt_o (s : State) (i : Input) (k : ℕ) : Bool := (regs_decode s i k).ctrl_gnt_o

def step (s : State) (i : Input) : State where
  regs := fun k =>
    let d := regs_decode s i k
    ⟨d.words_d, d.conf_store_d, d.rdata_d, d.valid_d⟩
  i_rr_arb_tree := RrArbTree.step (NumRegs + 1) s.i_rr_arb_tree (arb_input i)
  i_transfer_id_gen := TransferIdGen.step s.i_transfer_id_gen (issue s i) i.trans_complete

/-! ## A launching load -/

theorem be_valid_iff {c : CtrlInput} :
    be_valid c = true ↔ c.ctrl_req_i = true ∧ reg_addr c = 0x18 ∧ c.ctrl_type_i = true := by
  rw [be_valid, Bool.and_eq_true, Bool.and_eq_true, beq_iff_eq, and_assoc]

/-- It is granted with the backend, and reads the id that the transfer gets. -/
theorem decode_launch {c : CtrlInput} (h : be_valid c = true) (r : Regs) (next done : BitVec 32)
    (be_ready be_busy : Bool) : decode r c next done be_ready be_busy
      = ⟨be_ready, next, be_ready, true, r.words, r.conf_store_q⟩ := by
  obtain ⟨hreq, haddr, hload⟩ := be_valid_iff.mp h
  rw [decode, hreq, haddr, hload]
  rfl

end DmaFrontend

end Pspin
