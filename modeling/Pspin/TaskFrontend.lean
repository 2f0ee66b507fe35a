/-
`task_frontend`: the task of a core.

`Idle` accepts a task and `Running` answers the loads of its handler. The load of the
feedback flag ends it: the feedback goes to a buffer of one entry and the front-end is
`Idle` again, or, while the previous feedback is still there, it waits in
`SendingFeedback`. A task without a handler goes there directly. The buffered feedback is
offered when the caller allows it, and until it has left `disable_commands_o` is high.

The registers of the PMP configuration, which are computed from the task, are in `HpuPmp`.
-/
import Pspin.Config
import Pspin.FifoV3

set_option autoImplicit false

namespace Pspin.TaskFrontend

/-- From start-up to the feedback of a task. -/
inductive state_t
  | Init | Idle | Running | SendingFeedback
deriving DecidableEq, Repr

/-- The registers of `task_frontend`, and its buffer for one feedback. -/
structure State where
  state_q : state_t
  current_task_q : hpu_handler_task_t
  valid_q : Bool
  rdata_q : BitVec 32
  i_hpu_cmd_fifo : FifoV3.State task_feedback_descr_t

/-- The input ports in one cycle. -/
structure Input where
  hpu_task_valid_i : Bool
  hpu_task_i : hpu_handler_task_t
  hpu_feedback_ready_i : Bool
  req_i : Bool
  add_i : BitVec 32
  can_send_feedback_i : Bool

def zero_task : hpu_handler_task_t :=
  ⟨⟨0, 0, 0, 0, 0, 0, 0, 0, 0, false, fun _ => 0, fun _ => 0⟩, 0⟩

/-- The core has not started yet. -/
def reset : State where
  state_q := .Init
  current_task_q := zero_task
  valid_q := false
  rdata_q := 0
  i_hpu_cmd_fifo := FifoV3.reset ⟨⟨0, 0, 0, false⟩, 0⟩

/-! ## Feedback -/

/-- `hpu_feedback`, the feedback of a task. -/
def feedback_of (t : hpu_handler_task_t) : task_feedback_descr_t where
  feedback_descr :=
    { pkt_addr := t.handler_task.pkt_addr
      pkt_size := t.handler_task.pkt_size
      msgid := t.handler_task.msgid
      trigger_feedback := t.handler_task.trigger_feedback }
  pkt_ptr := t.pkt_ptr

/-- The feedback before has not left. -/
def feedback_buff_full (s : State) : Bool := FifoV3.full_o 1 s.i_hpu_cmd_fifo

def feedback_buff_empty (s : State) : Bool := FifoV3.empty_o s.i_hpu_cmd_fifo

/-- The load of the feedback flag. -/
def trigger_feedback (s : State) (i : Input) : Bool :=
  s.state_q == .Running && i.req_i && i.add_i.toNat % 2 ^ 8 == 0x50

/-- The feedback of the task is buffered when the handler ends, or later when the one before has
left. -/
def feedback_buff_push (s : State) (i : Input) : Bool :=
  !feedback_buff_full s && (trigger_feedback s i || s.state_q == .SendingFeedback)

/-- While a feedback is held back no commands are issued. -/
def disable_commands_o (s : State) : Bool := !feedback_buff_empty s

/-- A feedback leaves only when all commands of its task are answered. -/
def hpu_feedback_valid_o (s : State) (i : Input) : Bool :=
  i.can_send_feedback_i && !feedback_buff_empty s

/-- The feedback that waits. -/
def hpu_feedback_o (s : State) : task_feedback_descr_t := FifoV3.data_o s.i_hpu_cmd_fifo

/-- The ports of the buffer. -/
def feedback_fifo_input (s : State) (i : Input) : FifoV3.Input task_feedback_descr_t where
  data_i := feedback_of s.current_task_q
  push_i := feedback_buff_push s i
  pop_i := i.hpu_feedback_ready_i && hpu_feedback_valid_o s i

/-! ## State transitions -/

/-- A task is accepted in `Idle`. -/
def hpu_task_ready_o (s : State) : Bool := s.state_q == .Idle

/-- The core has made its first access. -/
def hpu_active_o (s : State) : Bool := s.state_q != .Init

def state_d (s : State) (i : Input) : state_t :=
  match s.state_q with
  -- the first access of the core ends the start-up
  | .Init => if i.req_i then .Idle else .Init
  | .Idle =>
    if i.hpu_task_valid_i then
      -- without a handler there is nothing to run
      (if i.hpu_task_i.handler_task.handler_fun == 0 then .SendingFeedback else .Running)
    else .Idle
  | .Running =>
    -- a feedback that finds the buffer full is sent later
    if trigger_feedback s i then (if feedback_buff_full s then .SendingFeedback else .Idle)
    else .Running
  | .SendingFeedback => if !feedback_buff_full s then .Idle else .SendingFeedback

/-- The task stays until the next one is accepted. -/
def current_task_d (s : State) (i : Input) : hpu_handler_task_t :=
  if s.state_q == .Idle && i.hpu_task_valid_i then i.hpu_task_i else s.current_task_q

/-! ## Loads of the handler -/

/-- The core's loads are granted while there is a task: a core that asks for its next handler spins
here. -/
def gnt_o (s : State) (i : Input) : Bool := s.state_q == .Running && i.req_i

/-- The word comes a cycle later. -/
def valid_d (s : State) (i : Input) : Bool := s.state_q == .Running && i.req_i

/-- `scratchpad_addr` and `scratchpad_size` by index; an index past the clusters reads
as zero. -/
def per_cluster (f : Fin NUM_CLUSTERS → BitVec 32) (k : ℕ) : BitVec 32 :=
  if h : k < NUM_CLUSTERS then f ⟨k, h⟩ else 0

/-- The scratchpad of the message in cluster `k`. -/
def l1_scratchpad_addr (t : hpu_handler_task_t) (k : ℕ) : BitVec 32 :=
  if k < NUM_CLUSTERS then
    BitVec.ofNat 32 (L1_CLUSTER_BASE + k * L1_CLUSTER_MEM_SIZE + L1_SCRATCHPAD_OFFSET)
      + per_cluster t.handler_task.scratchpad_addr k
  else 0

/-- The cluster that the message id names. -/
def home_cluster_id (t : hpu_handler_task_t) : BitVec (Nat.clog 2 NUM_CLUSTERS) :=
  t.handler_task.msgid.setWidth _

/-- The word a load finds at an address; other addresses leave `rdata_q` as it is. -/
def task_word (t : hpu_handler_task_t) : ℕ → Option (BitVec 32)
  | 0x00 => some t.handler_task.handler_fun
  | 0x04 => some t.handler_task.handler_fun_size
  | 0x08 => some t.handler_task.handler_mem_addr
  | 0x0c => some t.handler_task.handler_mem_size
  | 0x10 => some t.pkt_ptr
  | 0x14 => some t.handler_task.pkt_size
  | 0x18 => some (l1_scratchpad_addr t 0)
  | 0x1c => some (l1_scratchpad_addr t 1)
  | 0x20 => some (l1_scratchpad_addr t 2)
  | 0x24 => some (l1_scratchpad_addr t 3)
  | 0x28 => some (per_cluster t.handler_task.scratchpad_size 0)
  | 0x2c => some (per_cluster t.handler_task.scratchpad_size 1)
  | 0x30 => some (per_cluster t.handler_task.scratchpad_size 2)
  | 0x34 => some (per_cluster t.handler_task.scratchpad_size 3)
  | 0x38 => some (t.handler_task.host_mem_addr.extractLsb' 32 32)
  | 0x3c => some (t.handler_task.host_mem_addr.extractLsb' 0 32)
  | 0x40 => some (t.handler_task.host_mem_size.setWidth 32)
  | 0x44 => some t.handler_task.pkt_addr
  | 0x48 => some ((home_cluster_id t).setWidth 32)
  | 0x4c => some (t.handler_task.msgid.setWidth 32)
  | 0x50 => some 0
  | _ => none

/-- The word of the task that is loaded. -/
def rdata_d (s : State) (i : Input) : BitVec 32 :=
  if s.state_q == .Running && i.req_i then
    (task_word s.current_task_q (i.add_i.toNat % 2 ^ 8)).getD s.rdata_q
  else s.rdata_q

/-- That word, from its register. -/
def r_rdata_o (s : State) : BitVec 32 := s.rdata_q

def r_valid_o (s : State) : Bool := s.valid_q

/-! ## A clock edge -/

def step (s : State) (i : Input) : State where
  state_q := state_d s i
  current_task_q := current_task_d s i
  valid_q := valid_d s i
  rdata_q := rdata_d s i
  i_hpu_cmd_fifo := FifoV3.step 1 s.i_hpu_cmd_fifo (feedback_fifo_input s i)

/-! ## What a cycle does -/

variable {s : State} {i : Input}

/-- The buffered feedback leaves. -/
def feedback_leaves (s : State) (i : Input) : Bool :=
  i.hpu_feedback_ready_i && hpu_feedback_valid_o s i

/-- The buffer after a cycle: without the feedback that left, with the one that came. -/
theorem elems_step (h : FifoV3.Inv 1 s.i_hpu_cmd_fifo) (i : Input) :
    FifoV3.elems 1 (step s i).i_hpu_cmd_fifo
      = (if feedback_leaves s i then (FifoV3.elems 1 s.i_hpu_cmd_fifo).tail
          else FifoV3.elems 1 s.i_hpu_cmd_fifo)
        ++ if feedback_buff_push s i then [feedback_of s.current_task_q] else [] := by
  have hpush : feedback_buff_push s i = true → feedback_buff_full s = false := by
    intro hp
    rw [feedback_buff_push, Bool.and_eq_true, Bool.not_eq_true'] at hp
    exact hp.1
  have hpop : feedback_leaves s i = true → feedback_buff_empty s = false := by
    intro hp
    rw [feedback_leaves, hpu_feedback_valid_o, Bool.and_eq_true, Bool.and_eq_true,
      Bool.not_eq_true'] at hp
    exact hp.2.2
  exact h.elems_step_of (i := feedback_fifo_input s i) hpush hpop

/-- A task is in the front-end, and its feedback not yet in the buffer. -/
def Busy (q : state_t) : Prop := q = .Running ∨ q = .SendingFeedback

/-- A task comes in, or the feedback of the task goes to the buffer, or neither. -/
inductive Move (s : State) (i : Input) : Prop
  | accept (state : s.state_q = .Idle) (valid : i.hpu_task_valid_i = true)
      (push : feedback_buff_push s i = false) (next : Busy (state_d s i))
      (task : current_task_d s i = i.hpu_task_i)
  | finish (state : Busy s.state_q) (push : feedback_buff_push s i = true)
      (next : state_d s i = .Idle)
  | stay (push : feedback_buff_push s i = false)
      (idle : ¬ (s.state_q = .Idle ∧ i.hpu_task_valid_i = true))
      (next : Busy (state_d s i) → Busy s.state_q) (task : current_task_d s i = s.current_task_q)

theorem not_busy_idle : ¬ Busy .Idle := by
  unfold Busy
  decide

theorem not_busy_init : ¬ Busy .Init := by
  unfold Busy
  decide

/-- No feedback goes to the buffer outside these two states. -/
theorem not_push_of_not_busy (h : ¬ Busy s.state_q) : feedback_buff_push s i = false := by
  rw [feedback_buff_push, trigger_feedback]
  cases hq : s.state_q with
  | Init => exact Bool.and_false _
  | Idle => exact Bool.and_false _
  | Running => exact absurd (Or.inl hq) h
  | SendingFeedback => exact absurd (Or.inr hq) h

theorem task_of_not_idle (h : s.state_q ≠ .Idle) : current_task_d s i = s.current_task_q := by
  have hbeq : (s.state_q == .Idle) = false := beq_eq_false_iff_ne.mpr h
  rw [current_task_d, hbeq]
  rfl

/-- From `Idle`: a task is accepted, or not. -/
theorem move_idle (hq : s.state_q = .Idle) : Move s i := by
  have hpush : feedback_buff_push s i = false := by
    apply not_push_of_not_busy
    rw [hq]
    exact not_busy_idle
  by_cases hv : i.hpu_task_valid_i = true
  · have hnext : Busy (state_d s i) := by
      rw [state_d, hq, hv]
      cases i.hpu_task_i.handler_task.handler_fun == 0
      · exact Or.inl rfl
      · exact Or.inr rfl
    have htask : current_task_d s i = i.hpu_task_i := by
      rw [current_task_d, hq, hv]
      rfl
    exact .accept hq hv hpush hnext htask
  · have hnext : state_d s i = .Idle := by
      rw [state_d, hq, Bool.eq_false_of_not_eq_true hv]
      rfl
    have htask : current_task_d s i = s.current_task_q := by
      rw [current_task_d, Bool.eq_false_of_not_eq_true hv, Bool.and_false]
      rfl
    refine .stay hpush (fun hc => hv hc.2) (fun hc => ?_) htask
    rw [hnext] at hc
    exact absurd hc not_busy_idle

/-- With a task: the feedback is buffered, or the task goes on. -/
theorem move_busy (hq : Busy s.state_q) : Move s i := by
  have hne : s.state_q ≠ .Idle := by
    rintro hc
    rw [hc] at hq
    exact not_busy_idle hq
  by_cases hp : feedback_buff_push s i = true
  · -- the feedback finds the buffer empty
    refine .finish hq hp ?_
    rw [feedback_buff_push, Bool.and_eq_true, Bool.not_eq_true'] at hp
    rcases hq with hq | hq
    · rw [hq] at hp
      have ht : trigger_feedback s i = true := (Bool.or_false _).symm.trans hp.2
      rw [state_d, hq, ht, hp.1]
      rfl
    · rw [state_d, hq, hp.1]
      rfl
  · exact .stay (Bool.eq_false_of_not_eq_true hp) (fun hc => hne hc.1) (fun _ => hq)
      (task_of_not_idle hne)

theorem move_init (hq : s.state_q = .Init) : Move s i := by
  have hpush : feedback_buff_push s i = false := by
    apply not_push_of_not_busy
    rw [hq]
    exact not_busy_init
  have hne : s.state_q ≠ .Idle := by
    rw [hq]
    decide
  have hnext : state_d s i = if i.req_i then .Idle else .Init := by rw [state_d, hq]
  refine .stay hpush (fun hc => hne hc.1) (fun hc => ?_) (task_of_not_idle hne)
  rw [hnext] at hc
  split_ifs at hc
  · exact absurd hc not_busy_idle
  · exact absurd hc not_busy_init

/-- **What a cycle of the task front-end does.** -/
theorem move (s : State) (i : Input) : Move s i := by
  cases hq : s.state_q with
  | Init => exact move_init hq
  | Idle => exact move_idle hq
  | Running => exact move_busy (Or.inl hq)
  | SendingFeedback => exact move_busy (Or.inr hq)

/-- A running task goes on unless its handler loads the feedback flag. -/
theorem running_step (hq : s.state_q = .Running) (ht : trigger_feedback s i = false) :
    state_d s i = .Running ∧ feedback_buff_push s i = false := by
  constructor
  · rw [state_d, hq, ht]
    rfl
  · rw [feedback_buff_push, hq, ht]
    exact Bool.and_false _

end Pspin.TaskFrontend
