/-
`pspin_cfg_pkg`: the parameters and descriptor types of the packet scheduler.

Fields of a fixed width are bit vectors. `mpq_t` keeps its two counters as naturals,
`MPQ_CNT_W` bits wide, and every definition that counts says so.
-/
import Mathlib.Algebra.Order.Ring.Nat
import Mathlib.Data.Fintype.Pi
import Mathlib.Data.Nat.Log

set_option autoImplicit false

namespace Pspin

/-! ## Parameters -/

def C_SIZE_WIDTH : ℕ := 32
def C_MSGID_WIDTH : ℕ := 10
/-- Bits of an address inside PsPIN. -/
def C_ADDR_WIDTH : ℕ := 32
/-- Bits of an address of the host. -/
def C_HOST_ADDR_WIDTH : ℕ := 64
/-- The clusters of the configuration that is simulated. -/
def NUM_CLUSTERS : ℕ := 2
def NUM_CORES : ℕ := 8

/-- Message processing queues; a message has the one that its id names. -/
abbrev NUM_MPQ : ℕ := 16
/-- Cells of the linked lists that hold the packets of all queues. -/
def NUM_MPQ_CELLS : ℕ := 128
/-- Cells that are kept for each queue. -/
def NUM_MPQ_STATIC_CELLS : ℕ := 1

/-- Where the memory of cluster 0 begins. -/
def L1_CLUSTER_BASE : ℕ := 0x10000000
/-- The window of a cluster: the next one begins behind it. -/
def L1_CLUSTER_MEM_SIZE : ℕ := 0x00400000
/-- Where the runtime's data begin in a cluster. -/
def L1_RUNTIME_OFFSET : ℕ := 0x400
def L1_RUNTIME_SIZE : ℕ := 0x4000
/-- The packet buffer follows the runtime's data. -/
def L1_PKT_BUFF_OFFSET : ℕ := L1_RUNTIME_OFFSET + L1_RUNTIME_SIZE
def L1_PKT_BUFF_SIZE : ℕ := 0x10000

/-- Tasks that wait in a cluster. -/
def BUFFERED_HERS_PER_CLUSTER : ℕ := 12
def NUM_HERS_PER_CLUSTER : ℕ := BUFFERED_HERS_PER_CLUSTER + NUM_CORES

/-- The scratchpads follow the packet buffer. -/
def L1_SCRATCHPAD_OFFSET : ℕ := L1_PKT_BUFF_OFFSET + L1_PKT_BUFF_SIZE

/-- The commands a HPU keeps in flight. -/
abbrev NUM_HPU_CMDS : ℕ := 4

/-- Units that carry out commands. -/
abbrev NUM_CMD_INTERFACES : ℕ := 3

instance : NeZero NUM_MPQ := ⟨Nat.succ_ne_zero 15⟩
instance : NeZero NUM_HPU_CMDS := ⟨Nat.succ_ne_zero 3⟩
instance : NeZero NUM_CMD_INTERFACES := ⟨Nat.succ_ne_zero 2⟩

/-- Writes and reads of single words of the host. -/
def CMD_HOSTDIRECT_ID : Fin NUM_CMD_INTERFACES := 0
def CMD_NIC_OUTBOUND_ID : Fin NUM_CMD_INTERFACES := 1
/-- Transfers between PsPIN and the host. -/
def CMD_EDMA_ID : Fin NUM_CMD_INTERFACES := 2

/-! ## Types -/

abbrev mem_addr_t := BitVec C_ADDR_WIDTH
abbrev mem_size_t := BitVec C_SIZE_WIDTH
abbrev host_addr_t := BitVec C_HOST_ADDR_WIDTH
abbrev msgid_t := BitVec C_MSGID_WIDTH
abbrev pkt_ptr_t := BitVec 32

/-- What comes back of a packet when its handlers are done. -/
structure feedback_descr_t where
  pkt_addr : mem_addr_t
  pkt_size : mem_size_t
  msgid : msgid_t
  trigger_feedback : Bool
deriving DecidableEq

/-- The execution context of a message: its memories and its three handlers. -/
structure mpq_meta_t where
  handler_mem_addr : mem_addr_t
  handler_mem_size : mem_size_t
  host_mem_addr : host_addr_t
  host_mem_size : mem_size_t
  hh_addr : mem_addr_t
  hh_size : mem_size_t
  ph_addr : mem_addr_t
  ph_size : mem_size_t
  th_addr : mem_addr_t
  th_size : mem_size_t
  scratchpad_addr : Fin NUM_CLUSTERS → mem_addr_t
  scratchpad_size : Fin NUM_CLUSTERS → mem_size_t
deriving DecidableEq

/-- Handler execution request. -/
structure her_descr_t where
  msgid : msgid_t
  eom : Bool
  her_addr : mem_addr_t
  her_size : mem_size_t
  xfer_size : mem_size_t
  mpq_meta : mpq_meta_t
deriving DecidableEq

/-- A handler that is to run on a packet. -/
structure handler_task_t where
  msgid : msgid_t
  handler_fun : mem_addr_t
  handler_fun_size : mem_size_t
  handler_mem_addr : mem_addr_t
  handler_mem_size : mem_size_t
  host_mem_addr : host_addr_t
  host_mem_size : mem_size_t
  pkt_addr : mem_addr_t
  pkt_size : mem_size_t
  trigger_feedback : Bool
  scratchpad_addr : Fin NUM_CLUSTERS → mem_addr_t
  scratchpad_size : Fin NUM_CLUSTERS → mem_size_t
deriving DecidableEq

/-- Task descriptor from the cluster scheduler to the HPU driver. -/
structure hpu_handler_task_t where
  handler_task : handler_task_t
  pkt_ptr : pkt_ptr_t
deriving DecidableEq

/-- Feedback descriptor from the HPU driver to the cluster scheduler. -/
structure task_feedback_descr_t where
  feedback_descr : feedback_descr_t
  pkt_ptr : pkt_ptr_t
deriving DecidableEq

/-- DMA transfer descriptor. -/
structure transf_descr_32_t where
  num_bytes : BitVec 32
  dst_addr : BitVec 32
  src_addr : BitVec 32
  deburst : Bool
  decouple : Bool
  serialize : Bool
deriving DecidableEq

/-! ## Commands -/

/-- The words of a command descriptor, whatever its type. -/
structure pspin_cmd_descr_t where
  words : Fin 19 → BitVec 32
deriving DecidableEq

inductive pspin_cmd_type_t
  | HostMemCpy | NICSend | HostDirect
deriving DecidableEq, Repr

abbrev pspin_cmd_intf_id_t := Fin NUM_CMD_INTERFACES

/-- The id of a command within its HPU, two bits. -/
abbrev local_cmd_id_t := Fin NUM_HPU_CMDS

/-- Who gave the command: the cluster, the HPU, and which of its commands it is. -/
structure pspin_cmd_id_t where
  cluster_id : BitVec (Nat.clog 2 NUM_CLUSTERS)
  core_id : BitVec (Nat.clog 2 NUM_CORES)
  local_cmd_id : local_cmd_id_t
deriving DecidableEq

/-- A command as it travels to its unit. -/
structure pspin_cmd_t where
  intf_id : pspin_cmd_intf_id_t
  cmd_id : pspin_cmd_id_t
  cmd_type : pspin_cmd_type_t
  descr : pspin_cmd_descr_t
  generate_event : Bool
deriving DecidableEq

/-- Bits of the wide AXI port, 64 bytes. -/
def AXI_WIDE_DW : ℕ := 512

/-- The answer to a command. -/
structure pspin_cmd_resp_t where
  cmd_id : pspin_cmd_id_t
  imm_data : BitVec AXI_WIDE_DW
deriving DecidableEq

/-! ## Message queues -/

/-- The phases of a message. -/
inductive mpq_state_t
  | Free | Header | HeaderRunning | Payload | PayloadDraining | Completion | CompletionRunning
deriving DecidableEq, Repr

/-- Bits of the counters of `mpq_t`. -/
def MPQ_CNT_W : ℕ := Nat.clog 2 NUM_MPQ_CELLS + 1

/-- The registers of a queue: its phase, the packets it holds, the tasks that are out, and what it
has learnt of its message. -/
structure mpq_t where
  state : mpq_state_t
  length : ℕ
  in_flight : ℕ
  has_completion : Bool
  eom_seen : Bool
deriving DecidableEq, Repr

end Pspin
