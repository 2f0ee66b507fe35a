/-
`cluster_scheduler`: from the tasks of a cluster to its cores.

A task that is accepted gets its place in the L1 packet buffer, its packet is ordered
from the DMA engine, and it waits in a FIFO. The head of the FIFO goes to a free core
when its packet is there: `to_pop_q` counts the transfers that have completed and whose
tasks have not left. Feedbacks of the cores free the L1 space on their way out.

This file is the translation, for the parameters `pulp_cluster` instantiates it with.
Vectors over the cores are functions of the core index, read below `NUM_CORES`.
-/
import Pspin.ClusterRbShim
import Pspin.Config
import Pspin.FifoV3
import Pspin.RrArbTree

set_option autoImplicit false

namespace Pspin.ClusterScheduler

/-- Granularity of the packet buffer in L1, in bytes. -/
def PktBuffMemSlotSize : ℕ := 64
/-- Ring buffers that share the packet buffer. -/
def NumRB : ℕ := 4

/-- The parameters of `i_her_alloc`. -/
def buff_params : ClusterRbShim.Params where
  NumRB := NumRB
  rb :=
    { BuffMemLength := L1_PKT_BUFF_SIZE / NumRB
      MemSlotSize := PktBuffMemSlotSize
      slot_pos := by decide
      whole := by decide
      wraps := by decide }
  rb_pos := by decide

/-- Widths of `pkt_buf_size_t`, `pkt_buf_idx_t` and the credit counter. -/
def pkt_buf_size_w : ℕ := Nat.clog 2 L1_PKT_BUFF_SIZE + 1
/-- Bits of an offset in the packet buffer. -/
def pkt_buf_idx_w : ℕ := Nat.clog 2 L1_PKT_BUFF_SIZE
/-- Bits of the counter of finished transfers. -/
def to_pop_w : ℕ := Nat.clog 2 NUM_HERS_PER_CLUSTER + 1

/-- Whether a transfer waits for the DMA engine. -/
inductive state_t
  | Ready | WaitDMA
deriving DecidableEq, Repr

/-- The registers of `cluster_scheduler`: the tasks that wait for their packet, the allocator of
the packet buffer, the arbiter of the feedbacks and the count of transfers that are done. -/
structure State where
  i_dma_request_fifo : FifoV3.State hpu_handler_task_t
  i_her_alloc : ClusterRbShim.State buff_params
  i_hpu_feedback_rr_arb : RrArbTree.State
  to_pop_q : ℕ
  state_q : state_t
  dma_xfer_q : transf_descr_32_t

/-- The input ports in one cycle. -/
structure Input where
  task_valid_i : Bool
  task_descr_i : handler_task_t
  feedback_ready_i : Bool
  dma_xfer_ready_i : Bool
  dma_resp_i : Bool
  hpu_task_ready_i : ℕ → Bool
  hpu_feedback_valid_i : ℕ → Bool
  hpu_feedback_i : ℕ → task_feedback_descr_t
  hpu_active_i : ℕ → Bool

/-- A transfer after reset. -/
def zero_xfer : transf_descr_32_t := ⟨0, 0, 0, false, false, false⟩

/-- The reset values; `zero` is the all-zero task in the FIFO memory. -/
def reset (zero : hpu_handler_task_t) : State where
  i_dma_request_fifo := FifoV3.reset zero
  i_her_alloc := ClusterRbShim.reset buff_params
  i_hpu_feedback_rr_arb := RrArbTree.reset
  to_pop_q := 0
  state_q := .Ready
  dma_xfer_q := zero_xfer

/-! ## Feedbacks -/

/-- Some HPU has a feedback. -/
def feedback_valid_o (s : State) (i : Input) : Bool :=
  RrArbTree.req_o NUM_CORES s.i_hpu_feedback_rr_arb i.hpu_feedback_valid_i

/-- The feedback that the arbiter shows. -/
def hpu_feedback_arb_i (s : State) (i : Input) : task_feedback_descr_t :=
  i.hpu_feedback_i (RrArbTree.idx_o NUM_CORES s.i_hpu_feedback_rr_arb i.hpu_feedback_valid_i)

/-- All HPUs request, and the feedback is taken when the engine is ready. -/
def arb_input (i : Input) : RrArbTree.Input := ⟨i.hpu_feedback_valid_i, i.feedback_ready_i⟩

/-- Only the HPU that is shown is granted. -/
def hpu_feedback_ready_o (s : State) (i : Input) (k : ℕ) : Bool :=
  RrArbTree.gnt_o NUM_CORES s.i_hpu_feedback_rr_arb (arb_input i) k

/-- The part of the feedback that leaves the cluster. -/
def feedback_o (s : State) (i : Input) : feedback_descr_t := (hpu_feedback_arb_i s i).feedback_descr

/-- All HPUs of the cluster have started. -/
def cluster_active_o (i : Input) : Bool := (List.range NUM_CORES).all i.hpu_active_i

/-! ## Accepting tasks and starting transfers -/

/-- Where the packet buffer of the cluster begins. -/
def l1_pkt_base_addr (cluster_id_i : BitVec 6) : BitVec 32 :=
  BitVec.ofNat 32
    (L1_CLUSTER_BASE + cluster_id_i.toNat * L1_CLUSTER_MEM_SIZE + L1_PKT_BUFF_OFFSET)

/-- The largest packet that fits into one of the ring buffers. -/
def pkt_buff_free_space (s : State) : ℕ := ClusterRbShim.free_space_o s.i_her_alloc

/-- No further task can wait. -/
def dma_req_full (s : State) : Bool := FifoV3.full_o NUM_HERS_PER_CLUSTER s.i_dma_request_fifo

/-- A task is accepted when it can wait and its packet fits. -/
def task_ready_o (s : State) (i : Input) : Bool :=
  s.state_q == .Ready && !dma_req_full s
    && decide (i.task_descr_i.pkt_size.toNat ≤ pkt_buff_free_space s)

/-- A task is accepted in this cycle. -/
def task_new (s : State) (i : Input) : Bool := i.task_valid_i && task_ready_o s i

variable (cluster_id_i : BitVec 6)

/-- Where the packet of the feedback lies in the packet buffer: this is what is freed. -/
def feedback_pkt_idx (s : State) (i : Input) : ℕ :=
  ((hpu_feedback_arb_i s i).pkt_ptr - l1_pkt_base_addr cluster_id_i).toNat % 2 ^ pkt_buf_idx_w

/-- The ports of `i_her_alloc`. -/
def her_alloc_input (s : State) (i : Input) : ClusterRb.Input where
  alloc_valid_i := task_new s i
  alloc_size_i := i.task_descr_i.pkt_size.toNat % 2 ^ pkt_buf_size_w
  free_valid_i := feedback_valid_o s i && i.feedback_ready_i
  free_index_i := feedback_pkt_idx cluster_id_i s i
  free_size_i := (hpu_feedback_arb_i s i).feedback_descr.pkt_size.toNat % 2 ^ pkt_buf_size_w

/-- Where the new packet will lie. -/
def free_pkt_idx (s : State) (i : Input) : ℕ :=
  ClusterRbShim.alloc_index_o s.i_her_alloc (her_alloc_input cluster_id_i s i) % 2 ^ pkt_buf_idx_w

def l1_pkt_ptr (s : State) (i : Input) : BitVec 32 :=
  l1_pkt_base_addr cluster_id_i + BitVec.ofNat 32 (free_pkt_idx cluster_id_i s i)

/-- The task as the HPUs see it, with the address of its packet in L1. -/
def new_task (s : State) (i : Input) : hpu_handler_task_t where
  handler_task := i.task_descr_i
  pkt_ptr := l1_pkt_ptr cluster_id_i s i

/-- A packet without bytes needs no transfer. -/
def can_issue_dma (s : State) (i : Input) : Bool := task_new s i && i.task_descr_i.pkt_size != 0

/-- The transfer of a task. -/
def xfer_of (t : hpu_handler_task_t) : transf_descr_32_t where
  num_bytes := t.handler_task.pkt_size
  dst_addr := t.pkt_ptr
  src_addr := t.handler_task.pkt_addr
  deburst := false
  decouple := true
  serialize := false

/-- The transfer of the new packet. -/
def dma_xfer (s : State) (i : Input) : transf_descr_32_t := xfer_of (new_task cluster_id_i s i)

/-- Both the port and the register behind it. -/
def dma_xfer_o (s : State) (i : Input) : transf_descr_32_t :=
  if s.state_q == .Ready then dma_xfer cluster_id_i s i else s.dma_xfer_q

/-- A transfer is offered at once, and then until it is taken. -/
def dma_xfer_valid_o (s : State) (i : Input) : Bool :=
  (s.state_q == .Ready && can_issue_dma s i) || s.state_q == .WaitDMA

def state_d (s : State) (i : Input) : state_t :=
  match s.state_q with
  | .Ready => if can_issue_dma s i then (if i.dma_xfer_ready_i then .Ready else .WaitDMA) else .Ready
  | .WaitDMA => if i.dma_xfer_ready_i then .Ready else .WaitDMA

/-! ## Assigning tasks to cores -/

/-- The first of the tasks that wait. -/
def ready_task (s : State) : hpu_handler_task_t := FifoV3.data_o s.i_dma_request_fifo

def dma_req_empty (s : State) : Bool := FifoV3.empty_o s.i_dma_request_fifo

def no_free_hpu (i : Input) : Bool := Lzc.empty_o NUM_CORES i.hpu_task_ready_i

/-- The first HPU that does. -/
def free_hpu_idx (i : Input) : ℕ := Lzc.cnt_o NUM_CORES i.hpu_task_ready_i

/-- The first task leaves when an HPU is free and its packet is in L1: transfers end in order, so
one finished transfer more than tasks gone is enough. -/
def dma_req_pop (s : State) (i : Input) : Bool :=
  !dma_req_empty s && !no_free_hpu i
    && (decide (0 < s.to_pop_q) || (ready_task s).handler_task.pkt_size == 0)

/-- A task with a packet uses up one finished transfer. -/
def dma_req_pop_nz (s : State) (i : Input) : Bool :=
  !dma_req_empty s && !no_free_hpu i && decide (0 < s.to_pop_q)
    && decide (0 < (ready_task s).handler_task.pkt_size)

/-- All HPUs see the first task. -/
def hpu_task_o (s : State) : hpu_handler_task_t := ready_task s

def hpu_task_valid_o (s : State) (i : Input) (k : ℕ) : Bool :=
  dma_req_pop s i && k == free_hpu_idx i

/-- Transfers that are done and whose task has not left yet. -/
def to_pop_d (s : State) (i : Input) : ℕ :=
  match i.dma_resp_i, dma_req_pop_nz s i with
  | true, false => Counter.inc to_pop_w s.to_pop_q
  | false, true => Counter.dec to_pop_w s.to_pop_q
  | _, _ => s.to_pop_q

/-! ## A clock edge -/

/-- The ports of the FIFO of the tasks. -/
def dma_request_fifo_input (s : State) (i : Input) : FifoV3.Input hpu_handler_task_t where
  data_i := new_task cluster_id_i s i
  push_i := task_new s i
  pop_i := dma_req_pop s i

def step (s : State) (i : Input) : State where
  i_dma_request_fifo := FifoV3.step NUM_HERS_PER_CLUSTER s.i_dma_request_fifo
    (dma_request_fifo_input cluster_id_i s i)
  i_her_alloc := ClusterRbShim.step s.i_her_alloc (her_alloc_input cluster_id_i s i)
  i_hpu_feedback_rr_arb := RrArbTree.step NUM_CORES s.i_hpu_feedback_rr_arb (arb_input i)
  to_pop_q := to_pop_d s i
  state_q := state_d s i
  dma_xfer_q := dma_xfer_o cluster_id_i s i

/-- A task with a packet of the given size, for the examples. -/
def demo_task (pkt_size : mem_size_t) : handler_task_t where
  msgid := 0
  handler_fun := 0
  handler_fun_size := 0
  handler_mem_addr := 0
  handler_mem_size := 0
  host_mem_addr := 0
  host_mem_size := 0
  pkt_addr := 0x1c000000
  pkt_size := pkt_size
  trigger_feedback := true
  scratchpad_addr := fun _ => 0
  scratchpad_size := fun _ => 0

end Pspin.ClusterScheduler
