/-
`cmd_unit`: commands from the clusters to the interfaces, and responses back.

Each cluster has an input register, whose head is offered to the interface it names. Each
interface has an arbiter over the clusters and two FIFOs: one counts the commands in
flight, the other keeps the responses until the response arbiter takes them, one in a
cycle. An interface gets a command only while its count shows room (`has_space`); the
count is popped together with a response, so there is a place for every response that
may arrive.

Clusters and interfaces are numbered from 0, and what is kept for each of them is a
function of the number. The module is instantiated with the default `INTF_RESP_BUFF_SIZE`.
-/
import Mathlib.Algebra.Order.Ring.Nat
import Pspin.Config
import Pspin.FifoV3
import Pspin.RrArbTree
import Pspin.SpillRegister

set_option autoImplicit false

namespace Pspin.CmdUnit

/-- Depth of the two FIFOs of an interface. -/
def INTF_RESP_BUFF_SIZE : ℕ := 8

/-- The registers of `cmd_unit`, for every cluster and every interface. -/
structure State where
  i_cluster_cmd_spill : ℕ → SpillRegister.State pspin_cmd_t
  i_cmd_intf_arb : ℕ → RrArbTree.State
  i_req_fifo : ℕ → FifoV3.State Bool
  i_resp_fifo : ℕ → FifoV3.State pspin_cmd_resp_t
  i_cmd_resp_arb : RrArbTree.State
  i_cluster_cmd_resp_spill : SpillRegister.State pspin_cmd_resp_t

/-- The input ports in one cycle. -/
structure Input where
  cmd_valid_i : ℕ → Bool
  cmd_i : ℕ → pspin_cmd_t
  intf_ready_i : ℕ → Bool
  intf_cmd_resp_valid_i : ℕ → Bool
  intf_cmd_resp_i : ℕ → pspin_cmd_resp_t

def zero_cmd : pspin_cmd_t := ⟨0, ⟨0, 0, 0⟩, .HostMemCpy, ⟨fun _ => 0⟩, false⟩

/-- A response after reset. -/
def zero_resp : pspin_cmd_resp_t := ⟨⟨0, 0, 0⟩, 0⟩

def reset : State where
  i_cluster_cmd_spill := fun _ => SpillRegister.reset zero_cmd
  i_cmd_intf_arb := fun _ => RrArbTree.reset
  i_req_fifo := fun _ => FifoV3.reset false
  i_resp_fifo := fun _ => FifoV3.reset zero_resp
  i_cmd_resp_arb := RrArbTree.reset
  i_cluster_cmd_resp_spill := SpillRegister.reset zero_resp

/-! ## Commands -/

/-- The spill register of the cluster takes a command. -/
def cmd_ready_o (s : State) (j : ℕ) : Bool := SpillRegister.ready_o (s.i_cluster_cmd_spill j)

def cluster_cmd_valid (s : State) (j : ℕ) : Bool := SpillRegister.valid_o (s.i_cluster_cmd_spill j)

/-- The command that it offers. -/
def cluster_cmd (s : State) (j : ℕ) : pspin_cmd_t := SpillRegister.data_o (s.i_cluster_cmd_spill j)

/-- `stream_demux` and the cross wires: the head of cluster `j` is offered to the interface
it names. -/
def intf_mux_valid (s : State) (k j : ℕ) : Bool :=
  cluster_cmd_valid s j && (cluster_cmd s j).intf_id.val == k

/-- How many commands of the interface are not answered. -/
def fifo_in_flight_req_usage (s : State) (k : ℕ) : ℕ :=
  FifoV3.usage_o INTF_RESP_BUFF_SIZE (s.i_req_fifo k)

/-- At most 7 commands of an interface are not answered, so every response finds a place in its
buffer. -/
def fifo_in_flight_req_has_space (s : State) (k : ℕ) : Bool :=
  -- the usage has no bit for a full FIFO, so one place is never taken
  decide (fifo_in_flight_req_usage s k < INTF_RESP_BUFF_SIZE - 1)

/-- The interface takes a command. -/
def cmd_arb_ready (s : State) (i : Input) (k : ℕ) : Bool :=
  i.intf_ready_i k && fifo_in_flight_req_has_space s k

/-- Every cluster whose command is for the interface requests it. -/
def cmd_arb_input (s : State) (i : Input) (k : ℕ) : RrArbTree.Input where
  req_i := intf_mux_valid s k
  gnt_i := cmd_arb_ready s i k

/-- Some cluster has a command for the interface. -/
def cmd_arb_valid (s : State) (k : ℕ) : Bool :=
  RrArbTree.req_o NUM_CLUSTERS (s.i_cmd_intf_arb k) (intf_mux_valid s k)

/-- The cluster the arbiter of interface `k` has chosen. -/
def cmd_arb_idx (s : State) (k : ℕ) : ℕ :=
  RrArbTree.idx_o NUM_CLUSTERS (s.i_cmd_intf_arb k) (intf_mux_valid s k)

/-- The arbiter of interface `k` grants cluster `j`. -/
def intf_mux_ready (s : State) (i : Input) (k j : ℕ) : Bool :=
  RrArbTree.gnt_o NUM_CLUSTERS (s.i_cmd_intf_arb k) (cmd_arb_input s i k) j

/-- The command leaves its cluster when the arbiter of its own interface grants it. -/
def cluster_cmd_ready (s : State) (i : Input) (j : ℕ) : Bool :=
  intf_mux_ready s i (cluster_cmd s j).intf_id j

/-- A command is offered to the interface. -/
def intf_valid_o (s : State) (k : ℕ) : Bool := cmd_arb_valid s k && fifo_in_flight_req_has_space s k

/-- The command that the arbiter shows. -/
def intf_cmd_o (s : State) (k : ℕ) : pspin_cmd_t := cluster_cmd s (cmd_arb_idx s k)

/-! ## Responses -/

/-- A response of the interface waits. -/
def fifo_resp_buffer_valid (s : State) (k : ℕ) : Bool := !FifoV3.empty_o (s.i_resp_fifo k)

/-- The response arbiter is always granted. -/
def resp_arb_input (s : State) : RrArbTree.Input where
  req_i := fifo_resp_buffer_valid s
  gnt_i := true

def fifo_resp_buffer_ready (s : State) (k : ℕ) : Bool :=
  RrArbTree.gnt_o NUM_CMD_INTERFACES s.i_cmd_resp_arb (resp_arb_input s) k

def fifo_resp_buffer_pop (s : State) (k : ℕ) : Bool :=
  fifo_resp_buffer_ready s k && fifo_resp_buffer_valid s k

def resp_arb_valid (s : State) : Bool :=
  RrArbTree.req_o NUM_CMD_INTERFACES s.i_cmd_resp_arb (fifo_resp_buffer_valid s)

/-- The response that the arbiter shows. -/
def resp_arb_data (s : State) : pspin_cmd_resp_t :=
  FifoV3.data_o (s.i_resp_fifo
    (RrArbTree.idx_o NUM_CMD_INTERFACES s.i_cmd_resp_arb (fifo_resp_buffer_valid s)))

/-- A response is sent to the clusters. -/
def cmd_resp_valid_o (s : State) : Bool := SpillRegister.valid_o s.i_cluster_cmd_resp_spill

def cmd_resp_o (s : State) : pspin_cmd_resp_t := SpillRegister.data_o s.i_cluster_cmd_resp_spill

/-! ## In flight -/

/-- A command goes into flight when its interface takes it. -/
def fifo_in_flight_req_push (s : State) (i : Input) (k : ℕ) : Bool :=
  cmd_arb_valid s k && cmd_arb_ready s i k

def fifo_in_flight_req_pop (s : State) (k : ℕ) : Bool := fifo_resp_buffer_pop s k

/-! ## A clock edge -/

/-- The ports of a cluster's spill register. -/
def cluster_spill_input (s : State) (i : Input) (j : ℕ) : SpillRegister.Input pspin_cmd_t where
  valid_i := i.cmd_valid_i j
  data_i := i.cmd_i j
  ready_i := cluster_cmd_ready s i j

/-- The ports of the FIFO that counts the commands in flight; its data do not matter. -/
def req_fifo_input (s : State) (i : Input) (k : ℕ) : FifoV3.Input Bool where
  data_i := true
  push_i := fifo_in_flight_req_push s i k
  pop_i := fifo_in_flight_req_pop s k

/-- The ports of the response buffer. There is no ready towards the interface: a response is pushed
whenever it comes. -/
def resp_fifo_input (s : State) (i : Input) (k : ℕ) : FifoV3.Input pspin_cmd_resp_t where
  data_i := i.intf_cmd_resp_i k
  push_i := i.intf_cmd_resp_valid_i k
  pop_i := fifo_resp_buffer_pop s k

/-- The ports of the spill register of the responses, which the clusters always take. -/
def resp_spill_input (s : State) : SpillRegister.Input pspin_cmd_resp_t where
  valid_i := resp_arb_valid s
  data_i := resp_arb_data s
  ready_i := true

def step (s : State) (i : Input) : State where
  i_cluster_cmd_spill := fun j =>
    SpillRegister.step (s.i_cluster_cmd_spill j) (cluster_spill_input s i j)
  i_cmd_intf_arb := fun k =>
    RrArbTree.step NUM_CLUSTERS (s.i_cmd_intf_arb k) (cmd_arb_input s i k)
  i_req_fifo := fun k =>
    FifoV3.step INTF_RESP_BUFF_SIZE (s.i_req_fifo k) (req_fifo_input s i k)
  i_resp_fifo := fun k =>
    FifoV3.step INTF_RESP_BUFF_SIZE (s.i_resp_fifo k) (resp_fifo_input s i k)
  i_cmd_resp_arb := RrArbTree.step NUM_CMD_INTERFACES s.i_cmd_resp_arb (resp_arb_input s)
  i_cluster_cmd_resp_spill :=
    SpillRegister.step s.i_cluster_cmd_resp_spill (resp_spill_input s)

end Pspin.CmdUnit
