/-
`host_direct`: commands with immediate data, as single beats on an AXI port to the host.

A command to the host is stored as an address, as the data and the strobe of a beat, and
as an id; any other command as an address and an id. The three AXI channels take from
their FIFOs independently. A response of the host takes the oldest id of its direction,
and a read response goes before a write response that arrives in the same cycle.

The parameters are the depths of the five FIFOs. Of the address channels the model keeps
what says which bytes a transaction is about; the data of a read, and those of a response
to the cluster, are not driven.
-/
import Mathlib.Algebra.Order.Ring.Nat
import Pspin.CmdDescr
import Pspin.FifoV3

set_option autoImplicit false

namespace Pspin.HostDirect

/-- The depth of a FIFO, an `int unsigned` that `fifo_v3` requires to be positive. -/
def Depth : Type := { n : ℕ // 0 < n ∧ n < 2 ^ 32 }

/-- Depths of the five FIFOs. The source takes them from `pspin_cfg_pkg`; each is at least 1. -/
structure Params where
  AW_FIFO_DEPTH : Depth
  AR_FIFO_DEPTH : Depth
  W_FIFO_DEPTH : Depth
  WRITES_FIFO_DEPTH : Depth
  READS_FIFO_DEPTH : Depth

/-- The defaults, which `pspin` uses. -/
def defaults : Params :=
  ⟨⟨16, by decide⟩, ⟨16, by decide⟩, ⟨16, by decide⟩, ⟨32, by decide⟩, ⟨32, by decide⟩⟩

/-- The registers of `host_direct` are those of its FIFOs. -/
structure State where
  i_aw_fifo : FifoV3.State host_addr_t
  i_ar_fifo : FifoV3.State host_addr_t
  i_w_fifo : FifoV3.State w_descr_t
  i_write_id_fifo : FifoV3.State pspin_cmd_id_t
  i_read_id_fifo : FifoV3.State pspin_cmd_id_t

/-- A command, and the host's side of the AXI port. -/
structure Input where
  cmd_req_valid_i : Bool
  cmd_req_i : pspin_cmd_t
  aw_ready : Bool
  w_ready : Bool
  ar_ready : Bool
  b_valid : Bool
  r_valid : Bool

def reset : State where
  i_aw_fifo := FifoV3.reset 0
  i_ar_fifo := FifoV3.reset 0
  i_w_fifo := FifoV3.reset ⟨0, 0⟩
  i_write_id_fifo := FifoV3.reset ⟨0, 0, 0⟩
  i_read_id_fifo := FifoV3.reset ⟨0, 0, 0⟩

variable (P : Params)

/-! ## Commands -/

/-- The direction bit of the command: set for a write to the host. -/
def nic_to_host (cmd : pspin_cmd_t) : Bool := cmd.descr.host_direct_cmd.nic_to_host

/-- The address FIFO of the writes has no room. -/
def fifo_aw_full (s : State) : Bool := FifoV3.full_o P.AW_FIFO_DEPTH.val s.i_aw_fifo

/-- The address FIFO of the reads has no room. -/
def fifo_ar_full (s : State) : Bool := FifoV3.full_o P.AR_FIFO_DEPTH.val s.i_ar_fifo

/-- The data FIFO of the writes has no room. -/
def fifo_w_full (s : State) : Bool := FifoV3.full_o P.W_FIFO_DEPTH.val s.i_w_fifo

/-- The FIFO that remembers the ids of the writes has no room. -/
def fifo_write_id_full (s : State) : Bool :=
  FifoV3.full_o P.WRITES_FIFO_DEPTH.val s.i_write_id_fifo

/-- The FIFO that remembers the ids of the reads has no room. -/
def fifo_read_id_full (s : State) : Bool := FifoV3.full_o P.READS_FIFO_DEPTH.val s.i_read_id_fifo

/-- A command is taken when every FIFO that gets a part of it has room, so that its parts never
separate. -/
def cmd_req_ready_o (s : State) (i : Input) : Bool :=
  -- all parts of a command are pushed in one cycle
  (nic_to_host i.cmd_req_i == true && !fifo_aw_full P s && !fifo_w_full P s
      && !fifo_write_id_full P s)
    || (nic_to_host i.cmd_req_i == false && !fifo_ar_full P s && !fifo_read_id_full P s)

/-- A write is taken: its address is pushed. -/
def fifo_aw_push (s : State) (i : Input) : Bool :=
  i.cmd_req_valid_i && cmd_req_ready_o P s i && nic_to_host i.cmd_req_i == true

def fifo_w_push (s : State) (i : Input) : Bool := fifo_aw_push P s i

/-- A read is taken: its address is pushed. -/
def fifo_ar_push (s : State) (i : Input) : Bool :=
  i.cmd_req_valid_i && cmd_req_ready_o P s i && nic_to_host i.cmd_req_i == false

/-- The id of a write is pushed with its address. -/
def fifo_write_id_push (s : State) (i : Input) : Bool := fifo_aw_push P s i

/-- The id of a read is pushed with its address. -/
def fifo_read_id_push (s : State) (i : Input) : Bool := fifo_ar_push P s i

/-! ## The AXI port -/

/-- All requests carry this id, so the port answers them in order. -/
def BaseHDId : BitVec 6 := 0x11

/-- The burst type of AXI for incrementing addresses. -/
def BURST_INCR : BitVec 2 := 0b01

/-- The fields of an address channel that the module drives. -/
structure ax_chan_t where
  id : BitVec 6
  addr : host_addr_t
  len : BitVec 8
  size : BitVec 3
  burst : BitVec 2
deriving DecidableEq

/-- The fields of the data channel that the module drives. -/
structure w_chan_t where
  data : BitVec AXI_WIDE_DW
  strb : BitVec AXI_STRB
  last : Bool
deriving DecidableEq

/-- A transaction of one beat of 64 bytes. -/
def ax_chan (addr : host_addr_t) : ax_chan_t where
  id := BaseHDId
  addr := addr
  len := 0
  size := 0b110
  burst := BURST_INCR

/-- A write is a single beat, which is the last. -/
def w_chan (d : w_descr_t) : w_chan_t := ⟨d.data, d.strb, true⟩

/-- The head of the FIFO is offered as long as there is one. -/
def aw_valid (s : State) : Bool := !FifoV3.empty_o s.i_aw_fifo

def ar_valid (s : State) : Bool := !FifoV3.empty_o s.i_ar_fifo

def w_valid (s : State) : Bool := !FifoV3.empty_o s.i_w_fifo

/-- The address on the write channel. -/
def aw (s : State) : ax_chan_t := ax_chan (FifoV3.data_o s.i_aw_fifo)

/-- The address on the read channel. -/
def ar (s : State) : ax_chan_t := ax_chan (FifoV3.data_o s.i_ar_fifo)

/-- The beat on the data channel. -/
def w (s : State) : w_chan_t := w_chan (FifoV3.data_o s.i_w_fifo)

/-! ## Responses -/

/-- A read response is always taken. -/
def r_ready (i : Input) : Bool := i.r_valid

/-- Not beside a read response. -/
def b_ready (i : Input) : Bool := !i.r_valid && i.b_valid

/-- Either response answers a command. -/
def cmd_resp_valid_o (i : Input) : Bool := i.r_valid || i.b_valid

/-- The id that is answered: the oldest of the direction of the response. -/
def cmd_resp_o (s : State) (i : Input) : pspin_cmd_id_t :=
  -- the read goes first; `b_ready` then holds the write back
  if i.r_valid then FifoV3.data_o s.i_read_id_fifo
  else if i.b_valid then FifoV3.data_o s.i_write_id_fifo
  else ⟨0, 0, 0⟩

/-! ## A clock edge -/

/-- The address FIFO is popped by the handshake of its channel. -/
def fifo_aw_pop (s : State) (i : Input) : Bool := i.aw_ready && aw_valid s

def fifo_ar_pop (s : State) (i : Input) : Bool := i.ar_ready && ar_valid s

def fifo_w_pop (s : State) (i : Input) : Bool := i.w_ready && w_valid s

/-- The id of a write leaves with its response. -/
def fifo_write_id_pop (i : Input) : Bool := b_ready i && i.b_valid

/-- The id of a read leaves with its response. -/
def fifo_read_id_pop (i : Input) : Bool := r_ready i && i.r_valid

def aw_fifo_input (s : State) (i : Input) : FifoV3.Input host_addr_t :=
  ⟨fifo_ax_data_in i.cmd_req_i, fifo_aw_push P s i, fifo_aw_pop s i⟩

def ar_fifo_input (s : State) (i : Input) : FifoV3.Input host_addr_t :=
  ⟨fifo_ax_data_in i.cmd_req_i, fifo_ar_push P s i, fifo_ar_pop s i⟩

def w_fifo_input (s : State) (i : Input) : FifoV3.Input w_descr_t :=
  ⟨fifo_w_data_in i.cmd_req_i, fifo_w_push P s i, fifo_w_pop s i⟩

def write_id_fifo_input (s : State) (i : Input) : FifoV3.Input pspin_cmd_id_t :=
  ⟨i.cmd_req_i.cmd_id, fifo_write_id_push P s i, fifo_write_id_pop i⟩

def read_id_fifo_input (s : State) (i : Input) : FifoV3.Input pspin_cmd_id_t :=
  ⟨i.cmd_req_i.cmd_id, fifo_read_id_push P s i, fifo_read_id_pop i⟩

/-- A clock edge: the five FIFOs, each with the push and the pop of this cycle. -/
def step (s : State) (i : Input) : State where
  i_aw_fifo := FifoV3.step P.AW_FIFO_DEPTH.val s.i_aw_fifo (aw_fifo_input P s i)
  i_ar_fifo := FifoV3.step P.AR_FIFO_DEPTH.val s.i_ar_fifo (ar_fifo_input P s i)
  i_w_fifo := FifoV3.step P.W_FIFO_DEPTH.val s.i_w_fifo (w_fifo_input P s i)
  i_write_id_fifo :=
    FifoV3.step P.WRITES_FIFO_DEPTH.val s.i_write_id_fifo (write_id_fifo_input P s i)
  i_read_id_fifo := FifoV3.step P.READS_FIFO_DEPTH.val s.i_read_id_fifo (read_id_fifo_input P s i)

/-! ## Pushes -/

variable {P} {s : State} {i : Input}

/-- A command to the host is accepted. -/
theorem aw_push_iff : fifo_aw_push P s i = true
    ↔ i.cmd_req_valid_i = true ∧ cmd_req_ready_o P s i = true ∧ nic_to_host i.cmd_req_i = true := by
  simp [fifo_aw_push, and_assoc]

theorem ar_push_iff : fifo_ar_push P s i = true
    ↔ i.cmd_req_valid_i = true ∧ cmd_req_ready_o P s i = true ∧ nic_to_host i.cmd_req_i = false := by
  simp [fifo_ar_push, and_assoc]

/-- What is pushed finds room in all FIFOs of its direction. -/
theorem aw_push_room (h : fifo_aw_push P s i = true) :
    fifo_aw_full P s = false ∧ fifo_w_full P s = false ∧ fifo_write_id_full P s = false := by
  obtain ⟨-, hready, hdir⟩ := aw_push_iff.mp h
  simpa [cmd_req_ready_o, hdir, and_assoc] using hready

theorem ar_push_room (h : fifo_ar_push P s i = true) :
    fifo_ar_full P s = false ∧ fifo_read_id_full P s = false := by
  obtain ⟨-, hready, hdir⟩ := ar_push_iff.mp h
  simpa [cmd_req_ready_o, hdir] using hready

/-- Only what is valid is popped. -/
theorem aw_pop_valid (h : fifo_aw_pop s i = true) : FifoV3.empty_o s.i_aw_fifo = false := by
  simpa [fifo_aw_pop, aw_valid] using And.right (Bool.and_eq_true_iff.mp h)

theorem ar_pop_valid (h : fifo_ar_pop s i = true) : FifoV3.empty_o s.i_ar_fifo = false := by
  simpa [fifo_ar_pop, ar_valid] using And.right (Bool.and_eq_true_iff.mp h)

/-- A pop of the data FIFO never meets an empty one. -/
theorem w_pop_valid (h : fifo_w_pop s i = true) : FifoV3.empty_o s.i_w_fifo = false := by
  simpa [fifo_w_pop, w_valid] using And.right (Bool.and_eq_true_iff.mp h)

/-- A read response is never held back. -/
theorem read_id_pop_eq : fifo_read_id_pop i = i.r_valid := Bool.and_self i.r_valid

/-- A write response is held back by a read response of the same cycle. -/
theorem write_id_pop_eq : fifo_write_id_pop i = (!i.r_valid && i.b_valid) := by
  rw [fifo_write_id_pop, b_ready, Bool.and_assoc, Bool.and_self]

end Pspin.HostDirect
