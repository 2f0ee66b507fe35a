/-
`hpu_driver`: the port between a core and the scheduler.

Bits 8:7 of the address say which front-end an access goes to. A core has one access at a
time, so an access that waits for one front-end keeps it from the other. The two
front-ends meet in two signals: a buffered feedback is held back while a command is
pending (`can_send_feedback`), and no command is taken while a feedback is buffered
(`disable_commands_o`).
-/
import Pspin.CmdFrontend
import Pspin.TaskFrontend

set_option autoImplicit false

namespace Pspin.HpuDriver

/-- The registers of the two frontends, and which of them was accessed last. -/
structure State where
  i_task_frontend : TaskFrontend.State
  i_cmd_frontend : CmdFrontend.State
  add_type_q : BitVec 2

/-- An access of the core: address, load or store, data. -/
structure access_t where
  add : BitVec 32
  wen : Bool
  wdata : BitVec 32
deriving DecidableEq

/-- The input ports in one cycle. -/
structure Input where
  hpu_task_valid_i : Bool
  hpu_task_i : hpu_handler_task_t
  hpu_feedback_ready_i : Bool
  req : Bool
  access : access_t
  no_dma_req_pending_i : Bool
  cmd_ready_i : Bool
  cmd_resp_valid_i : Bool
  cmd_resp_id_i : pspin_cmd_id_t

def reset : State := ⟨TaskFrontend.reset, CmdFrontend.reset, 0⟩

variable (cluster_id_i : BitVec 6) (C_CORE_ID : ℕ)

/-- The page of the access says which frontend it belongs to. -/
def add_type_d (i : Input) : BitVec 2 := i.access.add.extractLsb' 7 2

/-- The access is for frontend `k`. -/
def frontend_req (i : Input) (k : BitVec 2) : Bool := i.req && add_type_d i == k

/-- All commands of the task are answered, and all its transfers are done. -/
def can_send_feedback (s : State) (i : Input) : Bool :=
  i.no_dma_req_pending_i && CmdFrontend.no_pending_cmd_o s.i_cmd_frontend

/-- The response is for this core. -/
def cmd_resp_valid (i : Input) : Bool :=
  i.cmd_resp_valid_i && i.cmd_resp_id_i.cluster_id.toNat == cluster_id_i.toNat
    && i.cmd_resp_id_i.core_id.toNat == C_CORE_ID

/-- What the task frontend sees. -/
def task_input (s : State) (i : Input) : TaskFrontend.Input where
  hpu_task_valid_i := i.hpu_task_valid_i
  hpu_task_i := i.hpu_task_i
  hpu_feedback_ready_i := i.hpu_feedback_ready_i
  req_i := frontend_req i 0
  add_i := i.access.add
  can_send_feedback_i := can_send_feedback s i

def cmd_input (s : State) (i : Input) : CmdFrontend.Input where
  req_i := frontend_req i 1
  add_i := i.access.add
  wen_ni := i.access.wen
  wdata_i := i.access.wdata
  cmd_resp_valid_i := cmd_resp_valid cluster_id_i C_CORE_ID i
  cmd_resp_id_i := i.cmd_resp_id_i
  disabled_i := TaskFrontend.disable_commands_o s.i_task_frontend
  cmd_ready_i := i.cmd_ready_i

/-- The grant of the addressed front-end; two of the four addresses have none. -/
def gnt (s : State) (i : Input) : Bool :=
  if add_type_d i == 0 then TaskFrontend.gnt_o s.i_task_frontend (task_input s i)
  else if add_type_d i == 1 then
    CmdFrontend.gnt_o s.i_cmd_frontend (cmd_input cluster_id_i C_CORE_ID s i)
  else false

/-- The read data in the cycle after a grant. -/
def r_rdata (s : State) : BitVec 32 :=
  if s.add_type_q == 0 then TaskFrontend.r_rdata_o s.i_task_frontend
  else if s.add_type_q == 1 then CmdFrontend.r_rdata_o s.i_cmd_frontend
  else 0

/-- The answer comes from the frontend that was accessed. -/
def r_valid (s : State) : Bool :=
  if s.add_type_q == 0 then TaskFrontend.r_valid_o s.i_task_frontend
  else if s.add_type_q == 1 then CmdFrontend.r_valid_o s.i_cmd_frontend
  else false

/-- The ports of the task frontend: a feedback. -/
def hpu_feedback_valid_o (s : State) (i : Input) : Bool :=
  TaskFrontend.hpu_feedback_valid_o s.i_task_frontend (task_input s i)

def hpu_feedback_o (s : State) : task_feedback_descr_t :=
  TaskFrontend.hpu_feedback_o s.i_task_frontend

def hpu_task_ready_o (s : State) : Bool := TaskFrontend.hpu_task_ready_o s.i_task_frontend

def hpu_active_o (s : State) : Bool := TaskFrontend.hpu_active_o s.i_task_frontend

def cmd_valid_o (s : State) : Bool := CmdFrontend.cmd_valid_o s.i_cmd_frontend

def cmd_o (s : State) : pspin_cmd_t := CmdFrontend.cmd_o s.i_cmd_frontend

def step (s : State) (i : Input) : State where
  i_task_frontend := TaskFrontend.step s.i_task_frontend (task_input s i)
  i_cmd_frontend := CmdFrontend.step cluster_id_i C_CORE_ID s.i_cmd_frontend
    (cmd_input cluster_id_i C_CORE_ID s i)
  add_type_q := add_type_d i

end Pspin.HpuDriver
