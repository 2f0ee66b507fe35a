/-
`cmd_frontend`: the commands of a core.

A core writes the words of a command and then loads from `ADD_ISSUE`. The load is
granted when the command has an id and a place in the buffer, and returns the id. A store
to `ADD_WAIT` is granted when the command with the id it writes is answered.
`free_cmd_ids_q` is misnamed: a set bit marks an id in use.

A load that finds the front-end disabled waits in `Disabled`, one that finds no id in
`WaitingID`, where the next response hands its id over. Loads and stores are told apart by
`wen_ni`, high for a load.
-/
import Pspin.Config
import Pspin.FifoV3
import Pspin.Lzc

set_option autoImplicit false

namespace Pspin.CmdFrontend

/-- The word whose load issues the command in the registers. -/
def ADD_ISSUE : ℕ := 0
/-- The word whose store waits for a command. -/
def ADD_WAIT : ℕ := 1
/-- The word whose load tests a command. -/
def ADD_TEST : ℕ := 2

/-- What keeps the core waiting: the feedback of the task before, a place in the buffer, an id, or
a command. -/
inductive state_t
  | Disabled | Ready | WaitingBuffer | WaitingID | Waiting
deriving DecidableEq, Repr

/-- The registers of `cmd_frontend`. -/
structure State where
  state_q : state_t
  free_cmd_ids_q : local_cmd_id_t → Bool
  wt_cmd_idx_q : local_cmd_id_t
  rvalid_q : Bool
  rdata_q : BitVec 32
  cmd_q : pspin_cmd_t
  i_hpu_cmd_fifo : FifoV3.State pspin_cmd_t

/-- The input ports in one cycle. -/
structure Input where
  req_i : Bool
  add_i : BitVec 32
  wen_ni : Bool
  wdata_i : BitVec 32
  cmd_resp_valid_i : Bool
  /-- `cmd_resp_i.cmd_id`; the front-end reads nothing else of a response. -/
  cmd_resp_id_i : pspin_cmd_id_t
  disabled_i : Bool
  cmd_ready_i : Bool

def zero_cmd : pspin_cmd_t := ⟨0, ⟨0, 0, 0⟩, .HostMemCpy, ⟨fun _ => 0⟩, false⟩

/-- After reset all ids are free: the bit of an id is set while it is in use. -/
def reset : State where
  state_q := .Ready
  free_cmd_ids_q := fun _ => false
  wt_cmd_idx_q := 0
  rvalid_q := false
  rdata_q := 0
  cmd_q := zero_cmd
  i_hpu_cmd_fifo := FifoV3.reset zero_cmd

/-! ## The access of the core -/

/-- The word of the access, among the 32 that the frontend has. -/
def add_idx (i : Input) : ℕ := i.add_i.toNat / 4 % 2 ^ 5

/-- A command is issued by a load. -/
def cmd_issued (i : Input) : Bool := i.req_i && add_idx i == ADD_ISSUE && i.wen_ni

def wait_issued (i : Input) : Bool := i.req_i && add_idx i == ADD_WAIT && !i.wen_ni

/-- A test is a load: `wen_ni` is low for a store. -/
def test_issued (i : Input) : Bool := i.req_i && add_idx i == ADD_TEST && i.wen_ni

/-- The low bits of the write data. -/
def wt_cmd_idx (i : Input) : local_cmd_id_t :=
  ⟨i.wdata_i.toNat % NUM_HPU_CMDS, Nat.mod_lt _ (by decide)⟩

/-- The command that is waited for or tested. -/
def wt_cmd_idx_d (s : State) (i : Input) : local_cmd_id_t :=
  if wait_issued i || test_issued i then wt_cmd_idx i else s.wt_cmd_idx_q

/-- That command is done, or its response arrives now. -/
def wt_cmd_finished (s : State) (i : Input) : Bool :=
  !s.free_cmd_ids_q (wt_cmd_idx_d s i)
    || (i.cmd_resp_valid_i && i.cmd_resp_id_i.local_cmd_id == wt_cmd_idx_d s i)

/-! ## Ids and buffer -/

/-- The ids not in use, as the counter sees them. -/
def unused_ids (ids : local_cmd_id_t → Bool) (k : ℕ) : Bool :=
  if h : k < NUM_HPU_CMDS then !ids ⟨k, h⟩ else false

/-- The lowest id not in use, and the last id if there is none. -/
def lowest_unused (ids : local_cmd_id_t → Bool) : local_cmd_id_t :=
  ⟨Lzc.cnt_o NUM_HPU_CMDS (unused_ids ids), Lzc.cnt_o_lt (by decide)⟩

def cmd_idx (s : State) : local_cmd_id_t := lowest_unused s.free_cmd_ids_q

def no_free_cmd_ids (s : State) : Bool := Lzc.empty_o NUM_HPU_CMDS (unused_ids s.free_cmd_ids_q)

/-- None is, so the HPU may end its task. -/
def no_pending_cmd_o (s : State) : Bool :=
  (List.finRange NUM_HPU_CMDS).all fun k => !s.free_cmd_ids_q k

/-- No command fits into the buffer. -/
def cmd_buff_full (s : State) : Bool := FifoV3.full_o NUM_HPU_CMDS s.i_hpu_cmd_fifo

/-- A command is offered to the cluster. -/
def cmd_valid_o (s : State) : Bool := !FifoV3.empty_o s.i_hpu_cmd_fifo

def cmd_o (s : State) : pspin_cmd_t := FifoV3.data_o s.i_hpu_cmd_fifo

/-! ## State transitions -/

/-- A command that can go ahead: what `Ready` and `Disabled` do with it. -/
def assign (s : State) : state_t × Bool :=
  if no_free_cmd_ids s then (.WaitingID, false)
  else if cmd_buff_full s then (.WaitingBuffer, true)
  else (.Ready, true)

/-- `state_d` and `assign_id`. -/
def transition (s : State) (i : Input) : state_t × Bool :=
  match s.state_q with
  | .Ready =>
    -- a load of `ADD_ISSUE` while disabled waits, and a store to `ADD_WAIT` waits for its command
    let issue := if cmd_issued i then (if i.disabled_i then (.Disabled, false) else assign s)
      else (.Ready, false)
    if wait_issued i && !wt_cmd_finished s i then (.Waiting, issue.2) else issue
  -- the load is still up in the states that wait
  | .Disabled => if !i.disabled_i then assign s else (.Disabled, false)
  | .WaitingID =>
    -- the response brings the id, so none is assigned
    if i.cmd_resp_valid_i then (if cmd_buff_full s then .WaitingBuffer else .Ready, false)
    else (.WaitingID, false)
  | .WaitingBuffer => (if !cmd_buff_full s then .Ready else .WaitingBuffer, false)
  | .Waiting =>
    (if i.cmd_resp_valid_i && i.cmd_resp_id_i.local_cmd_id == s.wt_cmd_idx_q then .Ready
      else .Waiting, false)

def state_d (s : State) (i : Input) : state_t := (transition s i).1

/-- Whether the command gets a new id in this cycle. -/
def assign_id (s : State) (i : Input) : Bool := (transition s i).2

/-- A command enters the buffer with the access that issues it, once it has an id. -/
def cmd_buff_push (s : State) (i : Input) : Bool :=
  !cmd_buff_full s && cmd_issued i && state_d s i == .Ready

/-- The access is granted. One that is not is made again by the core. -/
def gnt_o (s : State) (i : Input) : Bool := i.req_i && state_d s i == .Ready

/-- The answer to the access comes a cycle later. -/
def rvalid_d (s : State) (i : Input) : Bool := i.req_i && state_d s i == .Ready

def free_cmd_ids_d (s : State) (i : Input) (k : local_cmd_id_t) : Bool :=
  -- in `WaitingID` the id of the response stays in use, for the command that waits
  if s.state_q != .WaitingID && i.cmd_resp_valid_i && i.cmd_resp_id_i.local_cmd_id == k then false
  else if assign_id s i && cmd_idx s == k then true
  else s.free_cmd_ids_q k

/-! ## Command registers -/

variable (cluster_id_i : BitVec 6) (C_CORE_ID : ℕ)

/-- `cmd_d` without its id: the definition of a command by stores. -/
def cmd_def (s : State) (i : Input) : pspin_cmd_t :=
  if i.req_i && s.state_q == .Ready then
    if add_idx i == 3 && !i.wen_ni then
      -- command type (2:1), generate event flag (0:0)
      let flagged := { s.cmd_q with generate_event := i.wdata_i.getLsbD 0 }
      match i.wdata_i.toNat / 2 % 4 with
      | 0 => { flagged with cmd_type := .HostMemCpy, intf_id := CMD_EDMA_ID }
      | 1 => { flagged with cmd_type := .NICSend, intf_id := CMD_NIC_OUTBOUND_ID }
      | 2 => { flagged with cmd_type := .HostDirect, intf_id := CMD_HOSTDIRECT_ID }
      | _ => flagged
    else if decide (4 ≤ add_idx i) && decide (add_idx i ≤ 10) && !i.wen_ni then
      { s.cmd_q with
        descr := ⟨fun w => if w.val = add_idx i - 4 then i.wdata_i else s.cmd_q.descr.words w⟩ }
    else s.cmd_q
  else s.cmd_q

/-- The id of the command: handed over in `WaitingID`, else assigned. -/
def local_cmd_id_d (s : State) (i : Input) : local_cmd_id_t :=
  match s.state_q with
  | .WaitingID =>
    if i.cmd_resp_valid_i then i.cmd_resp_id_i.local_cmd_id else s.cmd_q.cmd_id.local_cmd_id
  | _ => if assign_id s i then cmd_idx s else s.cmd_q.cmd_id.local_cmd_id

/-- The command with its full id: the cluster, the core and the local one. -/
def cmd_d (s : State) (i : Input) : pspin_cmd_t :=
  { cmd_def s i with
    cmd_id :=
      { cluster_id := cluster_id_i.setWidth _
        core_id := BitVec.ofNat _ C_CORE_ID
        local_cmd_id := local_cmd_id_d s i } }

/-! ## Read data -/

/-- The handle that software gets is the local id. -/
def id_word (k : local_cmd_id_t) : BitVec 32 := BitVec.ofNat 32 k

def rdata_d (s : State) (i : Input) : BitVec 32 :=
  match s.state_q with
  | .Ready =>
    if test_issued i then (if wt_cmd_finished s i then 1 else 0)
    else if cmd_issued i then id_word (cmd_idx s)
    else s.rdata_q
  | .Waiting => if i.cmd_resp_valid_i then id_word i.cmd_resp_id_i.local_cmd_id else s.rdata_q
  | _ => s.rdata_q

/-- The word that is read, from its register. -/
def r_rdata_o (s : State) : BitVec 32 := s.rdata_q

def r_valid_o (s : State) : Bool := s.rvalid_q

/-! ## A clock edge -/

/-- The ports of the buffer. -/
def fifo_input (s : State) (i : Input) : FifoV3.Input pspin_cmd_t where
  data_i := cmd_d cluster_id_i C_CORE_ID s i
  push_i := cmd_buff_push s i
  pop_i := i.cmd_ready_i && cmd_valid_o s

def step (s : State) (i : Input) : State where
  state_q := state_d s i
  free_cmd_ids_q := free_cmd_ids_d s i
  wt_cmd_idx_q := wt_cmd_idx_d s i
  rvalid_q := rvalid_d s i
  rdata_q := rdata_d s i
  cmd_q := cmd_d cluster_id_i C_CORE_ID s i
  i_hpu_cmd_fifo := FifoV3.step NUM_HPU_CMDS s.i_hpu_cmd_fifo (fifo_input cluster_id_i C_CORE_ID s i)

end Pspin.CmdFrontend
