/-
Runs of `hpu_driver`.

`Sys` runs the driver and records the tasks it accepted, numbered in order, the feedbacks
in the buffer, the commands that are not answered, and what was pushed and returned for
each granted issue. A command belongs to the task that was running when the core raised
the load; a load raised while no task runs belongs to none.

The environment is a core that holds an access until it is granted, and a command network
that answers a command once, after it left the buffer. Everything else may happen at any
time.

The invariant ties the two front-ends together. An access that waits for an id keeps the
core from the feedback flag, so its task is still running; and a load that waits for a
feedback to leave finds, when it goes on, no command pending.
-/
import Pspin.CmdIds
import Pspin.HpuDriver
import Pspin.Sync

set_option autoImplicit false

namespace Pspin.HpuDriver

/-- What is remembered of a command: its number, and the task that issued it. -/
structure Tag where
  num : ℕ
  issuer : Option ℕ

/-- The driver with a log of its tasks, commands and feedbacks. -/
structure Sys where
  hw : State
  /-- The access of the last cycle, if it was not granted. -/
  stalled : Option access_t
  book : CmdFrontend.Book Tag
  /-- Tasks accepted so far. -/
  tasks : List hpu_handler_task_t
  /-- Numbers of the tasks whose feedback is in the buffer. -/
  held : List ℕ
  /-- For an access that waits: the task that ran when it was raised, and the ids in use. -/
  raised_by : Option ℕ
  ids_at_load : local_cmd_id_t → Bool
  /-- Ids of the commands pushed, and values returned for the loads granted. -/
  pushed : List local_cmd_id_t
  returned : List (BitVec 32)

variable (cluster_id_i : BitVec 6) (C_CORE_ID : ℕ)

namespace Sys

/-- The number of the task in the front-end. -/
def current (s : Sys) : ℕ := s.tasks.length - 1

/-- The task that the HPU runs. -/
def running (s : Sys) : Option ℕ :=
  if s.hw.i_task_frontend.state_q == .Running then some s.current else none

/-- The task that raised the access of this cycle. -/
def issuer (s : Sys) : Option ℕ := if s.stalled.isSome then s.raised_by else s.running

/-- The ids in use when the access of this cycle was raised. -/
def ids_when_raised (s : Sys) : local_cmd_id_t → Bool :=
  if s.stalled.isSome then s.ids_at_load else s.hw.i_cmd_frontend.free_cmd_ids_q

/-- What the task frontend sees of the cycle. -/
def task_in (s : Sys) (i : Input) : TaskFrontend.Input := task_input s.hw i

/-- What the command frontend sees of it. -/
def cmd_in (s : Sys) (i : Input) : CmdFrontend.Input := cmd_input cluster_id_i C_CORE_ID s.hw i

/-- A command is pushed in this cycle. -/
def pushes (s : Sys) (i : Input) : Bool :=
  CmdFrontend.cmd_buff_push s.hw.i_cmd_frontend (s.cmd_in cluster_id_i C_CORE_ID i)

/-- A load of the issue register. -/
def issues (s : Sys) (i : Input) : Bool := CmdFrontend.cmd_issued (s.cmd_in cluster_id_i C_CORE_ID i)

/-- The buffered feedback leaves in this cycle. -/
def feedback_leaves (s : Sys) (i : Input) : Bool :=
  i.hpu_feedback_ready_i && hpu_feedback_valid_o s.hw i

/-- A clock edge, which also writes the log. -/
def step (s : Sys) (i : Input) : Sys where
  hw := HpuDriver.step cluster_id_i C_CORE_ID s.hw i
  stalled := if i.req && !gnt cluster_id_i C_CORE_ID s.hw i then some i.access else none
  book := s.book.step s.hw.i_cmd_frontend (s.cmd_in cluster_id_i C_CORE_ID i)
    ⟨s.pushed.length, s.issuer⟩
  tasks := s.tasks
    ++ if hpu_task_ready_o s.hw && i.hpu_task_valid_i then [i.hpu_task_i] else []
  held := (if s.feedback_leaves i then s.held.tail else s.held)
    ++ if TaskFrontend.feedback_buff_push s.hw.i_task_frontend (s.task_in i) then [s.current]
      else []
  raised_by := s.issuer
  ids_at_load := s.ids_when_raised
  pushed := s.pushed ++ if s.pushes cluster_id_i C_CORE_ID i then
    [CmdFrontend.local_cmd_id_d s.hw.i_cmd_frontend (s.cmd_in cluster_id_i C_CORE_ID i)] else []
  returned := s.returned
    ++ if s.issues cluster_id_i C_CORE_ID i && gnt cluster_id_i C_CORE_ID s.hw i then
      [r_rdata (HpuDriver.step cluster_id_i C_CORE_ID s.hw i)] else []

def init : Sys := ⟨reset, none, ⟨[], []⟩, [], [], none, fun _ => false, [], []⟩

/-- The core holds an access that was not granted, and a response names a command that
left the buffer and is not answered. -/
structure Env (s : Sys) (i : Input) : Prop where
  hold : ∀ a ∈ s.stalled, i.req = true ∧ i.access = a
  answers : s.book.Answers (s.cmd_in cluster_id_i C_CORE_ID i)

instance (s : Sys) (i : Input) : Decidable (Env cluster_id_i C_CORE_ID s i) :=
  decidable_of_iff ((∀ a ∈ s.stalled, i.req = true ∧ i.access = a)
      ∧ s.book.Answers (s.cmd_in cluster_id_i C_CORE_ID i))
    ⟨fun h => ⟨h.1, h.2⟩, fun h => ⟨h.hold, h.answers⟩⟩

/-! ## Accesses -/

/-- The access is a load of the issue register. -/
def issue_access (a : access_t) : Bool :=
  a.add.extractLsb' 7 2 == 1 && (a.add.toNat / 4 % 2 ^ 5 == CmdFrontend.ADD_ISSUE && a.wen)

/-- The access is a store to the wait register. -/
def wait_access (a : access_t) : Bool :=
  a.add.extractLsb' 7 2 == 1 && (a.add.toNat / 4 % 2 ^ 5 == CmdFrontend.ADD_WAIT && !a.wen)

variable {cluster_id_i} {C_CORE_ID} {s : Sys} {i : Input}

/-- A command is issued by an access to the doorbell. -/
theorem issues_eq : s.issues cluster_id_i C_CORE_ID i = (i.req && issue_access i.access) := by
  unfold issues CmdFrontend.cmd_issued issue_access
  rw [← Bool.and_assoc, ← Bool.and_assoc]
  rfl

/-- A wait is an access to the register of the wait. -/
theorem wait_issued_eq : CmdFrontend.wait_issued (s.cmd_in cluster_id_i C_CORE_ID i)
    = (i.req && wait_access i.access) := by
  unfold CmdFrontend.wait_issued wait_access
  rw [← Bool.and_assoc, ← Bool.and_assoc]
  rfl

/-- An access to the command front-end is none to the task front-end. -/
theorem no_trigger (h : add_type_d i = 1) :
    TaskFrontend.trigger_feedback s.hw.i_task_frontend (s.task_in i) = false := by
  have hreq : frontend_req i 0 = false := by
    rw [frontend_req, h]
    exact Bool.and_false _
  unfold TaskFrontend.trigger_feedback
  show (_ && frontend_req i 0 && _) = false
  rw [hreq, Bool.and_false, Bool.false_and]

/-- Both addresses belong to the command frontend. -/
theorem type_of_issue (h : s.issues cluster_id_i C_CORE_ID i = true) : add_type_d i = 1 := by
  rw [issues_eq, issue_access, Bool.and_eq_true, Bool.and_eq_true, beq_iff_eq] at h
  exact h.2.1

theorem type_of_wait (h : wait_access i.access = true) : add_type_d i = 1 := by
  rw [wait_access, Bool.and_eq_true, beq_iff_eq] at h
  exact h.1

/-- The grant of an access to the command front-end. -/
theorem gnt_cmd (h : add_type_d i = 1) : gnt cluster_id_i C_CORE_ID s.hw i
    = CmdFrontend.gnt_o s.hw.i_cmd_frontend (s.cmd_in cluster_id_i C_CORE_ID i) := by
  rw [gnt, h]
  rfl

/-! ## The invariant -/

/-- The feedback buffer and its tasks. -/
structure Feedbacks (s : Sys) : Prop where
  fifo : FifoV3.Inv 1 s.hw.i_task_frontend.i_hpu_cmd_fifo
  /-- The buffer holds the feedbacks of the tasks in `held`. -/
  elems : (FifoV3.elems 1 s.hw.i_task_frontend.i_hpu_cmd_fifo).map some
    = s.held.map fun n => s.tasks[n]?.map TaskFrontend.feedback_of
  task : TaskFrontend.Busy s.hw.i_task_frontend.state_q →
    s.tasks.getLast? = some s.hw.i_task_frontend.current_task_q
  /-- A task whose feedback is held is not in the front-end any more. -/
  held_lt : ∀ n ∈ s.held, n < s.tasks.length
    ∧ (TaskFrontend.Busy s.hw.i_task_frontend.state_q → n < s.current)

/-- The command front-end waits for an access that is there. -/
structure Blocked (s : Sys) : Prop where
  issue : s.hw.i_cmd_frontend.state_q = .Disabled ∨ s.hw.i_cmd_frontend.state_q = .WaitingID →
    ∃ a, s.stalled = some a ∧ issue_access a = true
  wait : s.hw.i_cmd_frontend.state_q = .Waiting →
    ∃ a, s.stalled = some a ∧ wait_access a = true
      ∧ a.wdata.toNat % NUM_HPU_CMDS = s.hw.i_cmd_frontend.wt_cmd_idx_q
  /-- Whoever waits still runs. -/
  raised : s.stalled.isSome = true → ∀ n, s.raised_by = some n →
    s.hw.i_task_frontend.state_q = .Running ∧ n + 1 = s.tasks.length

/-- Commands and feedbacks keep out of each other's way. -/
structure Apart (s : Sys) : Prop where
  /-- An issue that waits for a feedback to leave finds no command pending then. -/
  disabled : s.hw.i_cmd_frontend.state_q = .Disabled → s.held ≠ [] ∨ s.book.unanswered = []
  /-- While a load of a task waits for an id, no feedback is held. -/
  waiting : s.hw.i_cmd_frontend.state_q = .WaitingID → s.raised_by ≠ none → s.held = []
  /-- A command belongs to a task accepted before, and not after one whose feedback is held. -/
  issuers : ∀ t ∈ s.book.unanswered, ∀ m, t.tag.issuer = some m →
    m < s.tasks.length ∧ ∀ n ∈ s.held, m ≤ n

structure Inv (s : Sys) : Prop where
  ids : CmdFrontend.Inv s.hw.i_cmd_frontend s.book
  feedbacks : Feedbacks s
  blocked : Blocked s
  apart : Apart s

/-! ## The registers after a cycle -/

theorem step_cmd_state : (step cluster_id_i C_CORE_ID s i).hw.i_cmd_frontend.state_q
    = CmdFrontend.state_d s.hw.i_cmd_frontend (s.cmd_in cluster_id_i C_CORE_ID i) := rfl

theorem step_task_state : (step cluster_id_i C_CORE_ID s i).hw.i_task_frontend.state_q
    = TaskFrontend.state_d s.hw.i_task_frontend (s.task_in i) := rfl

theorem step_stalled : (step cluster_id_i C_CORE_ID s i).stalled
    = if i.req && !gnt cluster_id_i C_CORE_ID s.hw i then some i.access else none := rfl

theorem step_wt_cmd_idx : (step cluster_id_i C_CORE_ID s i).hw.i_cmd_frontend.wt_cmd_idx_q
    = CmdFrontend.wt_cmd_idx_d s.hw.i_cmd_frontend (s.cmd_in cluster_id_i C_CORE_ID i) := rfl

theorem step_tasks : (step cluster_id_i C_CORE_ID s i).tasks = s.tasks
    ++ if hpu_task_ready_o s.hw && i.hpu_task_valid_i then [i.hpu_task_i] else [] := rfl

theorem step_held : (step cluster_id_i C_CORE_ID s i).held
    = (if s.feedback_leaves i then s.held.tail else s.held)
      ++ if TaskFrontend.feedback_buff_push s.hw.i_task_frontend (s.task_in i) then [s.current]
        else [] := rfl

theorem step_pushed : (step cluster_id_i C_CORE_ID s i).pushed
    = s.pushed ++ if s.pushes cluster_id_i C_CORE_ID i then [CmdFrontend.local_cmd_id_d
      s.hw.i_cmd_frontend (s.cmd_in cluster_id_i C_CORE_ID i)] else [] := rfl

/-- The command of this cycle's load, if it is pushed. -/
def new_ticket (cluster_id_i : BitVec 6) (C_CORE_ID : ℕ) (s : Sys) (i : Input) :
    CmdFrontend.Ticket Tag :=
  ⟨CmdFrontend.local_cmd_id_d s.hw.i_cmd_frontend (s.cmd_in cluster_id_i C_CORE_ID i),
    ⟨s.pushed.length, s.issuer⟩⟩

/-- A command that is unanswered after a cycle was so before, or is the new one. -/
theorem mem_step_unanswered {t : CmdFrontend.Ticket Tag}
    (ht : t ∈ (step cluster_id_i C_CORE_ID s i).book.unanswered) :
    t ∈ s.book.rest (s.cmd_in cluster_id_i C_CORE_ID i)
      ∨ (s.pushes cluster_id_i C_CORE_ID i = true ∧ t = new_ticket cluster_id_i C_CORE_ID s i) := by
  have hbook : (step cluster_id_i C_CORE_ID s i).book.unanswered
      = s.book.rest (s.cmd_in cluster_id_i C_CORE_ID i)
        ++ if s.pushes cluster_id_i C_CORE_ID i then [new_ticket cluster_id_i C_CORE_ID s i]
          else [] := CmdFrontend.unanswered_step
  rw [hbook, List.mem_append] at ht
  refine ht.imp_right fun hnew => ?_
  obtain ⟨hp, hnew⟩ := List.mem_ite_nil_right.mp hnew
  exact ⟨hp, List.mem_singleton.mp hnew⟩

/-! ## The feedback buffer -/

namespace Feedbacks

/-- The buffer is empty when no feedback is held. -/
theorem empty_iff (h : Feedbacks s) :
    TaskFrontend.feedback_buff_empty s.hw.i_task_frontend = true ↔ s.held = [] := by
  have hiff : TaskFrontend.feedback_buff_empty s.hw.i_task_frontend = true
      ↔ FifoV3.elems 1 s.hw.i_task_frontend.i_hpu_cmd_fifo = [] := FifoV3.empty_o_iff
  have hlen := congrArg List.length h.elems
  rw [List.length_map, List.length_map] at hlen
  rw [hiff, ← List.length_eq_zero_iff, hlen, List.length_eq_zero_iff]

/-- Commands are disabled while a feedback is held. -/
theorem disabled_iff (h : Feedbacks s) :
    (s.cmd_in cluster_id_i C_CORE_ID i).disabled_i = true ↔ s.held ≠ [] := by
  have hdef : (s.cmd_in cluster_id_i C_CORE_ID i).disabled_i
      = !TaskFrontend.feedback_buff_empty s.hw.i_task_frontend := rfl
  rw [hdef, Bool.not_eq_true', Bool.eq_false_iff, Ne, h.empty_iff]

/-- While the command frontend is enabled no feedback is held. -/
theorem held_of_enabled (h : Feedbacks s)
    (hen : (s.cmd_in cluster_id_i C_CORE_ID i).disabled_i = false) : s.held = [] := by
  by_contra hne
  rw [h.disabled_iff.mpr hne] at hen
  exact absurd hen (by decide)

theorem length_le (h : Feedbacks s) : s.held.length ≤ 1 := by
  have hlen := congrArg List.length h.elems
  rw [List.length_map, List.length_map, FifoV3.length_elems] at hlen
  have hle := h.fifo.cnt_le
  omega

/-- A feedback goes to the buffer only when it is empty. -/
theorem held_of_push (h : Feedbacks s)
    (hp : TaskFrontend.feedback_buff_push s.hw.i_task_frontend (s.task_in i) = true) :
    s.held = [] := by
  rw [TaskFrontend.feedback_buff_push, Bool.and_eq_true, Bool.not_eq_true', Bool.eq_false_iff, Ne,
    TaskFrontend.feedback_buff_full, h.fifo.full_o_iff] at hp
  have hlen := congrArg List.length h.elems
  rw [List.length_map, List.length_map] at hlen
  have hle := h.length_le
  apply List.length_eq_zero_iff.mp
  omega

/-- A busy front-end has a task. -/
theorem tasks_pos (h : Feedbacks s) (hb : TaskFrontend.Busy s.hw.i_task_frontend.state_q) :
    s.current + 1 = s.tasks.length := by
  have hlast := h.task hb
  have hne : s.tasks ≠ [] := by
    intro hnil
    rw [hnil] at hlast
    exact absurd hlast (by simp)
  have hpos := List.length_pos_iff.mpr hne
  unfold current
  omega

/-- What the buffer holds after a cycle. -/
theorem elems_step (h : Feedbacks s) (cluster_id_i : BitVec 6) (C_CORE_ID : ℕ) (i : Input) :
    FifoV3.elems 1
      (step cluster_id_i C_CORE_ID s i).hw.i_task_frontend.i_hpu_cmd_fifo
    = (if s.feedback_leaves i then (FifoV3.elems 1 s.hw.i_task_frontend.i_hpu_cmd_fifo).tail
        else FifoV3.elems 1 s.hw.i_task_frontend.i_hpu_cmd_fifo)
      ++ if TaskFrontend.feedback_buff_push s.hw.i_task_frontend (s.task_in i) then
        [TaskFrontend.feedback_of s.hw.i_task_frontend.current_task_q] else [] :=
  TaskFrontend.elems_step h.fifo (s.task_in i)

/-- What the feedback that leaves leaves behind. -/
theorem mem_of_mem_rest {n : ℕ}
    (hn : n ∈ if s.feedback_leaves i then s.held.tail else s.held) : n ∈ s.held := by
  split_ifs at hn
  · exact List.mem_of_mem_tail hn
  · exact hn

/-- The entries that stay are those of the tasks that stay, however many tasks follow. -/
theorem elems_rest (h : Feedbacks s) (more : List hpu_handler_task_t) :
    (if s.feedback_leaves i then (FifoV3.elems 1 s.hw.i_task_frontend.i_hpu_cmd_fifo).tail
        else FifoV3.elems 1 s.hw.i_task_frontend.i_hpu_cmd_fifo).map some
      = (if s.feedback_leaves i then s.held.tail else s.held).map
          fun n => (s.tasks ++ more)[n]?.map TaskFrontend.feedback_of := by
  have hsame : ∀ l : List ℕ, (∀ n ∈ l, n ∈ s.held) →
      l.map (fun n => s.tasks[n]?.map TaskFrontend.feedback_of)
        = l.map fun n => (s.tasks ++ more)[n]?.map TaskFrontend.feedback_of := by
    intro l hl
    apply List.map_congr_left
    intro n hn
    rw [List.getElem?_append_left (h.held_lt n (hl n hn)).1]
  rw [← hsame _ fun n hn => mem_of_mem_rest hn]
  split_ifs
  · rw [List.map_tail, List.map_tail, h.elems]
  · exact h.elems

/-- The tasks, unless one comes in. -/
theorem tasks_of_not_accept (cluster_id_i : BitVec 6) (C_CORE_ID : ℕ) (h : ¬ (s.hw.i_task_frontend.state_q = .Idle
    ∧ i.hpu_task_valid_i = true)) : (step cluster_id_i C_CORE_ID s i).tasks = s.tasks := by
  have hready : (hpu_task_ready_o s.hw && i.hpu_task_valid_i) = false := by
    rw [Bool.eq_false_iff, Ne, Bool.and_eq_true]
    exact fun hc => h ⟨beq_iff_eq.mp hc.1, hc.2⟩
  rw [step_tasks, hready]
  exact List.append_nil _

/-- The held feedbacks, unless one comes in. -/
theorem held_of_not_push (cluster_id_i : BitVec 6) (C_CORE_ID : ℕ)
    (h : TaskFrontend.feedback_buff_push s.hw.i_task_frontend (s.task_in i) = false) :
    (step cluster_id_i C_CORE_ID s i).held
      = if s.feedback_leaves i then s.held.tail else s.held := by
  rw [step_held, h]
  exact List.append_nil _

theorem step_accept (h : Feedbacks s) (hq : s.hw.i_task_frontend.state_q = .Idle)
    (hv : i.hpu_task_valid_i = true)
    (hpush : TaskFrontend.feedback_buff_push s.hw.i_task_frontend (s.task_in i) = false)
    (hcur : TaskFrontend.current_task_d s.hw.i_task_frontend (s.task_in i) = i.hpu_task_i) :
    Feedbacks (step cluster_id_i C_CORE_ID s i) := by
  have htasks : (step cluster_id_i C_CORE_ID s i).tasks = s.tasks ++ [i.hpu_task_i] := by
    have hready : hpu_task_ready_o s.hw = true := beq_iff_eq.mpr hq
    rw [step_tasks, hready, hv]
    rfl
  have hheld := held_of_not_push cluster_id_i C_CORE_ID hpush
  refine ⟨h.fifo.step _, ?_, fun _ => ?_, ?_⟩
  · rw [h.elems_step, hpush, hheld, htasks, ← h.elems_rest]
    exact congrArg _ (List.append_nil _)
  · rw [htasks, List.getLast?_concat]
    exact congrArg some hcur.symm
  · intro n hn
    rw [hheld] at hn
    have hlt := (h.held_lt n (mem_of_mem_rest hn)).1
    rw [current, htasks, List.length_append, List.length_singleton]
    exact ⟨by omega, fun _ => by omega⟩

/-- The handler ends, and its feedback is held. -/
theorem step_finish (h : Feedbacks s) (hq : TaskFrontend.Busy s.hw.i_task_frontend.state_q)
    (hpush : TaskFrontend.feedback_buff_push s.hw.i_task_frontend (s.task_in i) = true)
    (hnext : TaskFrontend.state_d s.hw.i_task_frontend (s.task_in i) = .Idle) :
    Feedbacks (step cluster_id_i C_CORE_ID s i) := by
  have htasks : (step cluster_id_i C_CORE_ID s i).tasks = s.tasks := by
    apply tasks_of_not_accept cluster_id_i C_CORE_ID
    intro hc
    rw [hc.1] at hq
    exact TaskFrontend.not_busy_idle hq
  -- the buffer is empty, so the feedback is alone in it
  have hempty := h.held_of_push hpush
  have hnil : (FifoV3.elems 1 s.hw.i_task_frontend.i_hpu_cmd_fifo) = [] := by
    have hmap := h.elems
    rw [hempty] at hmap
    exact List.map_eq_nil_iff.mp hmap
  have hheld : (step cluster_id_i C_CORE_ID s i).held = [s.current] := by
    rw [step_held, hpush, hempty, if_pos rfl]
    cases s.feedback_leaves i <;> rfl
  have hidle : ¬ TaskFrontend.Busy (step cluster_id_i C_CORE_ID s i).hw.i_task_frontend.state_q := by
    rw [step_task_state, hnext]
    exact TaskFrontend.not_busy_idle
  have hpos := h.tasks_pos hq
  refine ⟨h.fifo.step _, ?_, fun hc => absurd hc hidle, ?_⟩
  · have hlast := h.task hq
    rw [List.getLast?_eq_getElem?] at hlast
    have hcur : s.tasks[s.current]? = some s.hw.i_task_frontend.current_task_q := hlast
    rw [h.elems_step, hpush, hnil, hheld, htasks, List.map_singleton, hcur, if_pos rfl]
    cases s.feedback_leaves i <;> rfl
  · intro n hn
    rw [hheld, List.mem_singleton] at hn
    rw [htasks]
    exact ⟨by omega, fun hc => absurd hc hidle⟩

theorem step_stay (h : Feedbacks s)
    (hpush : TaskFrontend.feedback_buff_push s.hw.i_task_frontend (s.task_in i) = false)
    (hidle : ¬ (s.hw.i_task_frontend.state_q = .Idle ∧ i.hpu_task_valid_i = true))
    (hnext : TaskFrontend.Busy (TaskFrontend.state_d s.hw.i_task_frontend (s.task_in i)) →
      TaskFrontend.Busy s.hw.i_task_frontend.state_q)
    (hcur : TaskFrontend.current_task_d s.hw.i_task_frontend (s.task_in i)
      = s.hw.i_task_frontend.current_task_q) : Feedbacks (step cluster_id_i C_CORE_ID s i) := by
  have htasks := tasks_of_not_accept cluster_id_i C_CORE_ID hidle
  have hheld := held_of_not_push cluster_id_i C_CORE_ID hpush
  refine ⟨h.fifo.step _, ?_, fun hb => ?_, ?_⟩
  · have hrest := h.elems_rest (i := i) []
    rw [List.append_nil] at hrest
    rw [h.elems_step, hpush, hheld, htasks, ← hrest]
    exact congrArg _ (List.append_nil _)
  · rw [htasks, h.task (hnext hb)]
    exact congrArg some hcur.symm
  · intro n hn
    rw [hheld] at hn
    obtain ⟨hlt, hbusy⟩ := h.held_lt n (mem_of_mem_rest hn)
    rw [current, htasks]
    exact ⟨hlt, fun hb => hbusy (hnext hb)⟩

/-- **A cycle of the feedbacks.** -/
theorem step (h : Feedbacks s) (cluster_id_i : BitVec 6) (C_CORE_ID : ℕ) (i : Input) :
    Feedbacks (Sys.step cluster_id_i C_CORE_ID s i) := by
  rcases TaskFrontend.move s.hw.i_task_frontend (s.task_in i) with
    ⟨hq, hv, hpush, -, hcur⟩ | ⟨hq, hpush, hnext⟩ | ⟨hpush, hidle, hnext, hcur⟩
  · exact h.step_accept hq hv hpush hcur
  · exact h.step_finish hq hpush hnext
  · exact h.step_stay hpush hidle hnext hcur

end Feedbacks

/-! ## Accesses that wait -/

/-- An access to the command front-end is not granted unless the next state is `Ready`. -/
theorem stalled_of_not_ready (hreq : i.req = true) (htype : add_type_d i = 1)
    (hd : CmdFrontend.state_d s.hw.i_cmd_frontend (s.cmd_in cluster_id_i C_CORE_ID i) ≠ .Ready) :
    (step cluster_id_i C_CORE_ID s i).stalled = some i.access := by
  have hgnt := (CmdFrontend.not_push_of hd).2
  rw [step_stalled, gnt_cmd htype, hgnt, hreq]
  rfl

namespace Blocked

/-- What the command front-end waits for is up. -/
theorem held (h : Blocked s) (he : Env cluster_id_i C_CORE_ID s i) :
    CmdFrontend.Held s.hw.i_cmd_frontend (s.cmd_in cluster_id_i C_CORE_ID i) where
  issue := by
    intro hq
    obtain ⟨a, ha, hissue⟩ := h.issue hq
    obtain ⟨hreq, hacc⟩ := he.hold a ha
    have heq : s.issues cluster_id_i C_CORE_ID i = (i.req && issue_access i.access) := issues_eq
    rw [hreq, hacc, hissue] at heq
    exact heq
  wait := by
    intro hq
    obtain ⟨a, ha, hwait, -⟩ := h.wait hq
    obtain ⟨hreq, hacc⟩ := he.hold a ha
    rw [wait_issued_eq, hreq, hacc, hwait]
    rfl

/-- A task that raised the access of this cycle is running, and is the last one accepted. -/
theorem issuer_runs (h : Blocked s) (hf : Feedbacks s) {n : ℕ} (hn : s.issuer = some n) :
    s.hw.i_task_frontend.state_q = .Running ∧ n + 1 = s.tasks.length := by
  unfold issuer at hn
  split_ifs at hn with hst
  · exact h.raised hst n hn
  · unfold running at hn
    split_ifs at hn with hq
    have hrun := beq_iff_eq.mp hq
    obtain rfl := Option.some.inj hn
    exact ⟨hrun, hf.tasks_pos (Or.inl hrun)⟩

/-- An access that is not granted does not end the task. -/
theorem no_trigger_of_stalled (hst : (step cluster_id_i C_CORE_ID s i).stalled.isSome = true) :
    TaskFrontend.trigger_feedback s.hw.i_task_frontend (s.task_in i) = false := by
  by_contra ht
  have ht' := Bool.eq_true_of_not_eq_false ht
  have hreq : frontend_req i 0 = true := by
    rw [TaskFrontend.trigger_feedback, Bool.and_eq_true, Bool.and_eq_true] at ht'
    exact ht'.1.2
  rw [frontend_req, Bool.and_eq_true, beq_iff_eq] at hreq
  -- the load of the feedback flag is granted
  have hgnt : gnt cluster_id_i C_CORE_ID s.hw i = true := by
    rw [gnt, hreq.2]
    show TaskFrontend.gnt_o s.hw.i_task_frontend (s.task_in i) = true
    rw [TaskFrontend.trigger_feedback, Bool.and_eq_true] at ht'
    exact ht'.1
  rw [step_stalled, hgnt, Bool.not_true, Bool.and_false, if_neg Bool.false_ne_true] at hst
  exact absurd hst Bool.false_ne_true

/-- An access that was not granted is made again in the next cycle. -/
theorem step (h : Blocked s) (hf : Feedbacks s) (he : Env cluster_id_i C_CORE_ID s i) :
    Blocked (Sys.step cluster_id_i C_CORE_ID s i) where
  issue := by
    rw [step_cmd_state]
    intro hd
    -- the core holds its access while the frontend is blocked
    have hissue := CmdFrontend.issued_of_blocked (h.held he) hd
    have hissue' : s.issues cluster_id_i C_CORE_ID i = true := hissue
    have htype := type_of_issue hissue'
    have hand : (i.req && issue_access i.access) = true := issues_eq.symm.trans hissue'
    rw [Bool.and_eq_true] at hand
    refine ⟨i.access, stalled_of_not_ready hand.1 htype ?_, hand.2⟩
    rcases hd with hd | hd <;> rw [hd] <;> decide
  wait := by
    rw [step_cmd_state]
    intro hd
    have hwait := CmdFrontend.wait_of_waiting (h.held he) hd
    have hidx : (Sys.step cluster_id_i C_CORE_ID s i).hw.i_cmd_frontend.wt_cmd_idx_q
        = CmdFrontend.wt_cmd_idx (s.cmd_in cluster_id_i C_CORE_ID i) := by
      rw [step_wt_cmd_idx, CmdFrontend.wt_cmd_idx_d, hwait]
      rfl
    rw [wait_issued_eq, Bool.and_eq_true] at hwait
    refine ⟨i.access, stalled_of_not_ready hwait.1 (type_of_wait hwait.2) ?_, hwait.2, ?_⟩
    · rw [hd]
      decide
    · rw [hidx]
      rfl
  raised := by
    intro hst n hn
    have hissuer : s.issuer = some n := hn
    -- a stalled core raises no feedback, so the task that issued is still running
    obtain ⟨hrun, hlast⟩ := h.issuer_runs hf hissuer
    have hstay := TaskFrontend.running_step hrun (no_trigger_of_stalled hst)
    refine ⟨hstay.1, ?_⟩
    rw [Feedbacks.tasks_of_not_accept cluster_id_i C_CORE_ID]
    · exact hlast
    · rw [hrun]
      exact fun hc => absurd hc.1 (by decide)

end Blocked

/-! ## Commands and feedbacks -/

/-- The load of a running task keeps the core from ending it. -/
theorem no_feedback_push (hq : s.hw.i_task_frontend.state_q = .Running)
    (hissue : s.issues cluster_id_i C_CORE_ID i = true) :
    TaskFrontend.feedback_buff_push s.hw.i_task_frontend (s.task_in i) = false :=
  (TaskFrontend.running_step hq (no_trigger (type_of_issue hissue))).2

namespace Inv

/-- A feedback leaves only when no command is unanswered. -/
theorem answered_of_valid (h : Inv s) (hv : hpu_feedback_valid_o s.hw i = true) :
    s.book.unanswered = [] := by
  have hsend : (can_send_feedback s.hw i && _) = true := hv
  rw [Bool.and_eq_true, can_send_feedback, Bool.and_eq_true] at hsend
  exact h.ids.no_pending_iff.mp hsend.1.2

/-- The task that raised a load which waits is remembered. -/
theorem issuer_of_waiting (h : Inv s) (hq : s.hw.i_cmd_frontend.state_q = .WaitingID) :
    s.issuer = s.raised_by := by
  obtain ⟨a, ha, -⟩ := h.blocked.issue (Or.inr hq)
  rw [issuer, ha]
  rfl

/-- While a feedback is held, no command of a task is pushed. -/
theorem held_of_push (h : Inv s) (he : Env cluster_id_i C_CORE_ID s i)
    (hp : s.pushes cluster_id_i C_CORE_ID i = true) (hn : s.issuer ≠ none) : s.held = [] := by
  rcases h.ids.issue (h.blocked.held he) he.answers with
    ⟨hpush, -, -, -⟩ | ⟨-, -, -, hen, -, -, -⟩ | ⟨-, -, hq, -, -, -⟩
  · exact absurd (hp.symm.trans hpush) (by decide)
  · exact h.feedbacks.held_of_enabled hen
  · rw [h.issuer_of_waiting hq] at hn
    exact h.apart.waiting hq hn

/-- The command frontend is disabled as long as a feedback is held back. -/
theorem step_disabled (h : Inv s)
    (hd : CmdFrontend.state_d s.hw.i_cmd_frontend (s.cmd_in cluster_id_i C_CORE_ID i) = .Disabled) :
    (Sys.step cluster_id_i C_CORE_ID s i).held ≠ []
      ∨ (Sys.step cluster_id_i C_CORE_ID s i).book.unanswered = [] := by
  have hne := h.feedbacks.disabled_iff.mp (CmdFrontend.cause_of hd).2
  by_cases hl : s.feedback_leaves i = true
  · apply Or.inr
    have hnone := h.answered_of_valid (Bool.and_eq_true_iff.mp hl).2
    have hpush := (CmdFrontend.not_push_of (hd.trans_ne (by decide))).1
    have hrest := (CmdFrontend.rest_sublist s.book (s.cmd_in cluster_id_i C_CORE_ID i))
    rw [hnone, List.sublist_nil] at hrest
    show (s.book.step _ _ _).unanswered = []
    rw [CmdFrontend.unanswered_step, hrest, hpush]
    rfl
  · apply Or.inl
    rw [step_held, if_neg hl]
    exact List.append_ne_nil_of_left_ne_nil hne _

/-- While a command waits for an identifier no feedback is held. -/
theorem step_waiting (h : Inv s) (he : Env cluster_id_i C_CORE_ID s i)
    (hd : CmdFrontend.state_d s.hw.i_cmd_frontend (s.cmd_in cluster_id_i C_CORE_ID i) = .WaitingID)
    (hn : s.issuer ≠ none) : (Sys.step cluster_id_i C_CORE_ID s i).held = [] := by
  have hheld : s.held = [] := by
    rcases CmdFrontend.cause_of hd with ⟨hq, -⟩ | ⟨-, hen, -⟩
    · rw [h.issuer_of_waiting hq] at hn
      exact h.apart.waiting hq hn
    · exact h.feedbacks.held_of_enabled hen
  obtain ⟨n, hsome⟩ := Option.ne_none_iff_exists'.mp hn
  have hissue := CmdFrontend.issued_of_blocked (h.blocked.held he) (Or.inr hd)
  have hpush := no_feedback_push (h.blocked.issuer_runs h.feedbacks hsome).1 hissue
  rw [step_held, hpush, hheld]
  cases s.feedback_leaves i <;> rfl

/-- Commands without answer belong to the task that runs or to the one whose feedback is held. -/
theorem step_issuers (h : Inv s) (he : Env cluster_id_i C_CORE_ID s i) :
    ∀ t ∈ (Sys.step cluster_id_i C_CORE_ID s i).book.unanswered, ∀ m, t.tag.issuer = some m →
      m < (Sys.step cluster_id_i C_CORE_ID s i).tasks.length
        ∧ ∀ n ∈ (Sys.step cluster_id_i C_CORE_ID s i).held, m ≤ n := by
  intro t ht m hm
  have hmore : s.tasks.length ≤ (Sys.step cluster_id_i C_CORE_ID s i).tasks.length := by
    rw [step_tasks, List.length_append]
    exact Nat.le_add_right _ _
  rcases mem_step_unanswered ht with ht | ⟨hp, rfl⟩
  · obtain ⟨hlt, hle⟩ := h.apart.issuers t ((CmdFrontend.rest_sublist _ _).subset ht) m hm
    refine ⟨lt_of_lt_of_le hlt hmore, fun n hn => ?_⟩
    rw [step_held, List.mem_append] at hn
    rcases hn with hn | hn
    · exact hle n (Feedbacks.mem_of_mem_rest hn)
    · split_ifs at hn
      · rw [List.mem_singleton.mp hn, current]
        omega
      · exact absurd hn List.not_mem_nil
  · -- the task of the new command runs, and no feedback is held or comes in
    have hissuer : s.issuer = some m := hm
    obtain ⟨hrun, hlast⟩ := h.blocked.issuer_runs h.feedbacks hissuer
    have hheld := h.held_of_push he hp (by rw [hissuer]; exact Option.some_ne_none m)
    have hissue : s.issues cluster_id_i C_CORE_ID i = true := by
      unfold pushes CmdFrontend.cmd_buff_push at hp
      rw [Bool.and_eq_true, Bool.and_eq_true] at hp
      exact hp.1.2
    refine ⟨by omega, fun n hn => ?_⟩
    rw [step_held, no_feedback_push hrun hissue, hheld, List.tail_nil, ite_self,
      if_neg Bool.false_ne_true] at hn
    exact absurd hn List.not_mem_nil

/-- **A cycle of the driver.** -/
theorem step (h : Inv s) (he : Env cluster_id_i C_CORE_ID s i) :
    Inv (Sys.step cluster_id_i C_CORE_ID s i) where
  ids := h.ids.step (h.blocked.held he) he.answers _
  feedbacks := h.feedbacks.step cluster_id_i C_CORE_ID i
  blocked := h.blocked.step h.feedbacks he
  apart := ⟨h.step_disabled, h.step_waiting he, h.step_issuers he⟩

end Inv

theorem inv_init : Inv init where
  ids := CmdFrontend.inv_reset
  feedbacks :=
    { fifo := FifoV3.inv_reset _ (by decide) (by decide)
      elems := rfl
      task := fun hc => absurd hc TaskFrontend.not_busy_init
      held_lt := fun n hn => absurd hn List.not_mem_nil }
  blocked :=
    { issue := fun hc => absurd hc (by decide)
      wait := fun hc => absurd hc (by decide)
      raised := fun hc => absurd hc (by decide) }
  apart :=
    { disabled := fun hc => absurd hc (by decide)
      waiting := fun hc => absurd hc (by decide)
      issuers := fun t ht => absurd ht List.not_mem_nil }

/-! ## What is pushed -/

namespace Inv

/-- A command is pushed when its load is granted, and only then. -/
theorem push_iff (h : Inv s) (he : Env cluster_id_i C_CORE_ID s i) :
    s.pushes cluster_id_i C_CORE_ID i = true
      ↔ s.issues cluster_id_i C_CORE_ID i = true ∧ gnt cluster_id_i C_CORE_ID s.hw i = true := by
  have hgnt : s.issues cluster_id_i C_CORE_ID i = true → gnt cluster_id_i C_CORE_ID s.hw i
      = CmdFrontend.gnt_o s.hw.i_cmd_frontend (s.cmd_in cluster_id_i C_CORE_ID i) :=
    fun hissue => gnt_cmd (type_of_issue hissue)
  rcases h.ids.issue (h.blocked.held he) he.answers with
    ⟨hpush, -, -, hno⟩ | ⟨hpush, -, -, -, -, hissue, hg⟩ | ⟨hpush, -, -, -, hissue, hg⟩
  · constructor
    · intro hp
      exact absurd (hp.symm.trans hpush) (by decide)
    · rintro ⟨hissue, hg⟩
      rw [hgnt hissue, hno hissue] at hg
      exact absurd hg Bool.false_ne_true
  · exact ⟨fun _ => ⟨hissue, (hgnt hissue).trans hg⟩, fun _ => hpush⟩
  · exact ⟨fun _ => ⟨hissue, (hgnt hissue).trans hg⟩, fun _ => hpush⟩

/-- A load that waited for the feedback finds all ids free. -/
theorem all_free (h : Inv s) (hq : s.hw.i_cmd_frontend.state_q = .Disabled) (hheld : s.held = []) :
    ∀ k, s.hw.i_cmd_frontend.free_cmd_ids_q k = false := by
  have hnone := (h.apart.disabled hq).resolve_left fun hne => hne hheld
  exact CmdFrontend.no_pending_iff.mp (h.ids.no_pending_iff.mpr hnone)

/-- A load that waits for the feedback goes on as soon as it is gone. -/
theorem resumes (h : Inv s) (he : Env cluster_id_i C_CORE_ID s i)
    (hq : s.hw.i_cmd_frontend.state_q = .Disabled) (hheld : s.held = []) :
    s.pushes cluster_id_i C_CORE_ID i = true
      ∧ (Sys.step cluster_id_i C_CORE_ID s i).hw.i_cmd_frontend.state_q = .Ready := by
  have hen : (s.cmd_in cluster_id_i C_CORE_ID i).disabled_i = false := by
    rw [Bool.eq_false_iff, Ne, h.feedbacks.disabled_iff]
    exact fun hne => hne hheld
  have hfree : CmdFrontend.no_free_cmd_ids s.hw.i_cmd_frontend = false := by
    rw [Bool.eq_false_iff, Ne, CmdFrontend.no_free_iff]
    exact fun hall => absurd ((h.all_free hq hheld 0).symm.trans (hall 0)) (by decide)
  have hd : CmdFrontend.state_d s.hw.i_cmd_frontend (s.cmd_in cluster_id_i C_CORE_ID i)
      = .Ready := by
    rw [CmdFrontend.state_d, CmdFrontend.transition, hq, hen, h.ids.assign_eq, hfree]
    rfl
  have hissue := (h.blocked.held he).issue (Or.inl hq)
  exact ⟨(CmdFrontend.push_of (h.ids.not_full_of_free hfree) hissue hd).1, hd⟩

end Inv

/-! ## Accesses and cycles for the examples -/

def load (add : BitVec 32) : access_t := ⟨add, true, 0⟩

/-- The load of the next handler's address. -/
def handler_load : access_t := load 0x1b205000
/-- The load that ends a handler. -/
def doorbell : access_t := load 0x1b205050
/-- The load that issues a command. -/
def issue_load : access_t := load 0x1b205080

def demo_task : hpu_handler_task_t where
  handler_task := { TaskFrontend.zero_task.handler_task with handler_fun := 0x1d000000 }
  pkt_ptr := 0x10004400

/-- An access, perhaps a task or a response for core 0 of cluster 0; the other side is
always ready. -/
def demo_cycle (access : access_t) (task : Bool) (resp : Option local_cmd_id_t) : Input where
  hpu_task_valid_i := task
  hpu_task_i := demo_task
  hpu_feedback_ready_i := true
  req := true
  access := access
  no_dma_req_pending_i := true
  cmd_ready_i := true
  cmd_resp_valid_i := resp.isSome
  cmd_resp_id_i := ⟨0, 0, resp.getD 0⟩

/-- The core boots and runs the first task. -/
def demo_boot : List Input :=
  [demo_cycle handler_load false none, demo_cycle handler_load true none,
    demo_cycle handler_load false none]

end Sys

end Pspin.HpuDriver
