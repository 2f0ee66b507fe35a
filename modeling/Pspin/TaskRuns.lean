/-
Tasks and feedbacks of `task_frontend`, over whole runs.

Nothing is assumed of the core, the scheduler or the commands: the inputs of a cycle may
be any. A task that came in is in the front-end, or its feedback is in the buffer, or its
feedback has left; these three, in this order from the oldest to the youngest, are the
tasks accepted so far (`once`).
-/
import Pspin.Sync
import Pspin.TaskFrontend

set_option autoImplicit false

namespace Pspin.TaskFrontend

/-- The frontend with the tasks that it accepted and the feedbacks that left. -/
structure Sys where
  hw : State
  accepted : List hpu_handler_task_t
  /-- The feedbacks that left. -/
  fed_back : List task_feedback_descr_t

/-- The task in the front-end, accepted and without a feedback yet. -/
def in_front (s : State) : List hpu_handler_task_t :=
  match s.state_q with
  | .Running | .SendingFeedback => [s.current_task_q]
  | .Init | .Idle => []

/-- The feedback in the buffer. -/
def buffered (s : State) : List task_feedback_descr_t := FifoV3.elems 1 s.i_hpu_cmd_fifo

/-- The task of this cycle. -/
def accepting (s : State) (i : Input) : List hpu_handler_task_t :=
  if hpu_task_ready_o s && i.hpu_task_valid_i then [i.hpu_task_i] else []

def leaving (s : State) (i : Input) : List task_feedback_descr_t :=
  if feedback_leaves s i then [hpu_feedback_o s] else []

namespace Sys

/-- A clock edge, which also writes the log. -/
def step (s : Sys) (i : Input) : Sys where
  hw := TaskFrontend.step s.hw i
  accepted := s.accepted ++ accepting s.hw i
  fed_back := s.fed_back ++ leaving s.hw i

def init : Sys := ⟨reset, [], []⟩

/-- Any inputs may follow each other. -/
def Reach : Sys → Prop := Sync.Reach (· = init) step fun _ _ => True

/-- What holds in a cycle. -/
structure Kept (s : State) (i : Input) : Prop where
  /-- A task comes in only when there is none. -/
  accept : accepting s i ≠ [] →
    in_front s = [] ∧ in_front (TaskFrontend.step s i) = accepting s i
  /-- The task stays until its feedback is in the buffer, which was empty. -/
  stay : ∀ t ∈ in_front s,
    (feedback_buff_push s i = false ∧ in_front (TaskFrontend.step s i) = [t])
      ∨ (feedback_buff_push s i = true ∧ in_front (TaskFrontend.step s i) = []
        ∧ buffered s = [] ∧ buffered (TaskFrontend.step s i) = [feedback_of t])
  /-- The feedback stays in the buffer until it leaves. -/
  hold : ∀ fb ∈ buffered s, buffered s = [fb]
    ∧ ((leaving s i = [fb] ∧ buffered (TaskFrontend.step s i) = [])
      ∨ (leaving s i = [] ∧ buffered (TaskFrontend.step s i) = [fb]))
  /-- It leaves as soon as it may and is taken. -/
  leave : ∀ fb ∈ buffered s, i.can_send_feedback_i = true → i.hpu_feedback_ready_i = true →
    leaving s i = [fb]
  /-- A doorbell, or a task that has no handler, sends the feedback when the buffer is
  empty. -/
  send : buffered s = [] → trigger_feedback s i = true ∨ s.state_q = .SendingFeedback →
    feedback_buff_push s i = true
  /-- A doorbell while the buffer is full is not lost. -/
  doorbell : trigger_feedback s i = true → buffered s ≠ [] →
    (TaskFrontend.step s i).state_q = .SendingFeedback
  null_handler : ∀ t ∈ accepting s i, t.handler_task.handler_fun = 0 →
    (TaskFrontend.step s i).state_q = .SendingFeedback

/-! ## The buffer and the front-end -/

section Cycle

variable {s : State} {i : Input}

/-- A busy frontend has the feedback of its task still in front. -/
theorem in_front_of_busy (h : Busy s.state_q) : in_front s = [s.current_task_q] := by
  unfold in_front
  rcases h with hq | hq <;> rw [hq]

theorem in_front_of_not_busy (h : ¬ Busy s.state_q) : in_front s = [] := by
  unfold in_front
  cases hq : s.state_q with
  | Init => rfl
  | Idle => rfl
  | Running => exact absurd (Or.inl hq) h
  | SendingFeedback => exact absurd (Or.inr hq) h

theorem accepting_of_not_idle (h : ¬ (s.state_q = .Idle ∧ i.hpu_task_valid_i = true)) :
    accepting s i = [] := by
  apply if_neg
  rw [Bool.and_eq_true, hpu_task_ready_o, beq_iff_eq]
  exact h

theorem accepting_of_idle (hq : s.state_q = .Idle) (hv : i.hpu_task_valid_i = true) :
    accepting s i = [i.hpu_task_i] := by
  rw [accepting, hpu_task_ready_o, hq, hv]
  rfl

theorem empty_iff : feedback_buff_empty s = true ↔ buffered s = [] := FifoV3.empty_o_iff

/-- A buffer of one entry is full when it is not empty. -/
theorem full_iff (h : FifoV3.Inv 1 s.i_hpu_cmd_fifo) :
    feedback_buff_full s = true ↔ buffered s ≠ [] := by
  have hle := h.cnt_le
  have hlen : (buffered s).length = s.i_hpu_cmd_fifo.status_cnt_q := FifoV3.length_elems _
  have hfull : feedback_buff_full s = true ↔ (buffered s).length = 1 := h.full_o_iff
  rw [hfull, ← List.length_pos_iff]
  omega

theorem eq_singleton (h : FifoV3.Inv 1 s.i_hpu_cmd_fifo) {fb : task_feedback_descr_t}
    (hfb : fb ∈ buffered s) : buffered s = [fb] := by
  have hlen : (buffered s).length = s.i_hpu_cmd_fifo.status_cnt_q := FifoV3.length_elems _
  have hle := h.cnt_le
  have hpos := List.length_pos_of_mem hfb
  obtain ⟨fb', heq⟩ := List.length_eq_one_iff.mp (show (buffered s).length = 1 by omega)
  rw [heq, List.mem_singleton] at hfb
  rw [heq, hfb]

/-- What leaves is the buffered feedback. -/
theorem leaving_eq (h : FifoV3.Inv 1 s.i_hpu_cmd_fifo) :
    leaving s i = if feedback_leaves s i then buffered s else [] := by
  unfold leaving
  split_ifs with hl
  · rw [feedback_leaves, hpu_feedback_valid_o, Bool.and_eq_true, Bool.and_eq_true,
      Bool.not_eq_true', Bool.eq_false_iff, Ne, empty_iff] at hl
    obtain ⟨fb, hfb⟩ := List.exists_mem_of_ne_nil _ hl.2.2
    have hone := eq_singleton h hfb
    have hdata : hpu_feedback_o s = fb := by
      apply h.data_o_eq
      have helems : FifoV3.elems 1 s.i_hpu_cmd_fifo = [fb] := hone
      rw [helems, List.head?_cons]
    rw [hone, hdata]
  · rfl

/-- The buffer in a cycle: what left and what stays are what was there and what came. -/
theorem buffered_step (h : FifoV3.Inv 1 s.i_hpu_cmd_fifo) :
    leaving s i ++ buffered (TaskFrontend.step s i) = buffered s
      ++ if feedback_buff_push s i then [feedback_of s.current_task_q] else [] := by
  have hstep : buffered (TaskFrontend.step s i) = (if feedback_leaves s i then (buffered s).tail
      else buffered s) ++ if feedback_buff_push s i then [feedback_of s.current_task_q] else [] :=
    elems_step h i
  rw [hstep, leaving_eq h, ← List.append_assoc]
  congr 1
  split_ifs with hl
  · -- the only entry leaves
    cases hb : buffered s with
    | nil => rfl
    | cons fb rest =>
      have hmem : fb ∈ buffered s := hb ▸ List.mem_cons_self
      have hone := eq_singleton h hmem
      rw [hb] at hone
      rw [hone]
      rfl
  · rfl

theorem buffered_of_push (h : FifoV3.Inv 1 s.i_hpu_cmd_fifo) (hp : feedback_buff_push s i = true) :
    buffered s = [] := by
  rw [feedback_buff_push, Bool.and_eq_true, Bool.not_eq_true', Bool.eq_false_iff, Ne,
    full_iff h, not_not] at hp
  exact hp.1

/-- An empty buffer takes the feedback at once. -/
theorem push_of_empty (h : FifoV3.Inv 1 s.i_hpu_cmd_fifo) (hb : buffered s = [])
    (hsend : trigger_feedback s i = true ∨ s.state_q = .SendingFeedback) :
    feedback_buff_push s i = true := by
  have hfull : feedback_buff_full s = false := by
    rw [Bool.eq_false_iff, Ne, full_iff h, not_not]
    exact hb
  rw [feedback_buff_push, hfull, Bool.not_false, Bool.true_and, Bool.or_eq_true, beq_iff_eq]
  exact hsend

/-- A task comes in only in front of an empty front-end, and is in front of it next. -/
theorem accept (hne : accepting s i ≠ []) :
    in_front s = [] ∧ in_front (TaskFrontend.step s i) = accepting s i := by
  rcases move s i with ⟨hq, hv, -, hnext, htask⟩ | ⟨hbusy, -, -⟩ | ⟨-, hidle, -, -⟩
  · rw [accepting_of_idle hq hv]
    refine ⟨in_front_of_not_busy ?_, ?_⟩
    · rw [hq]
      exact not_busy_idle
    · exact (in_front_of_busy (s := TaskFrontend.step s i) hnext).trans (by rw [← htask]; rfl)
  · refine absurd (accepting_of_not_idle fun hc => ?_) hne
    rw [hc.1] at hbusy
    exact not_busy_idle hbusy
  · exact absurd (accepting_of_not_idle hidle) hne

/-- A task whose feedback does not get into the buffer does not leave the front-end. -/
theorem busy_of_not_push (hbusy : Busy s.state_q) (hpush : feedback_buff_push s i = false) :
    Busy (state_d s i) := by
  rcases hbusy with hq | hq
  · cases ht : trigger_feedback s i with
    | false =>
      rw [(running_step hq ht).1]
      exact Or.inl rfl
    | true =>
      -- the doorbell found the buffer full
      rw [feedback_buff_push, ht, Bool.true_or, Bool.and_true, Bool.not_eq_false'] at hpush
      rw [state_d, hq, ht, hpush]
      exact Or.inr rfl
  · rw [feedback_buff_push, hq] at hpush
    have hfull : feedback_buff_full s = true := by
      rw [← Bool.not_eq_false', ← hpush]
      exact (congrArg _ (Bool.or_true _)).trans (Bool.and_true _) |>.symm
    rw [state_d, hq, hfull]
    exact Or.inr rfl

/-- The task stays until its feedback is in the buffer, which was empty. -/
theorem stay (h : FifoV3.Inv 1 s.i_hpu_cmd_fifo) {t : hpu_handler_task_t} (ht : t ∈ in_front s) :
    (feedback_buff_push s i = false ∧ in_front (TaskFrontend.step s i) = [t])
      ∨ (feedback_buff_push s i = true ∧ in_front (TaskFrontend.step s i) = []
        ∧ buffered s = [] ∧ buffered (TaskFrontend.step s i) = [feedback_of t]) := by
  have hbusy : Busy s.state_q := by
    by_contra hno
    rw [in_front_of_not_busy hno] at ht
    exact absurd ht List.not_mem_nil
  rw [in_front_of_busy hbusy, List.mem_singleton] at ht
  -- accept, finish or go on; a busy front-end does not accept
  rcases move s i with ⟨hq, -, -, -, -⟩ | ⟨-, hpush, hnext⟩ | ⟨hpush, -, -, htask⟩
  · rw [hq] at hbusy
    exact absurd hbusy not_busy_idle
  · refine Or.inr ⟨hpush, ?_, buffered_of_push h hpush, ?_⟩
    · apply in_front_of_not_busy (s := TaskFrontend.step s i)
      have hstate : (TaskFrontend.step s i).state_q = .Idle := hnext
      rw [hstate]
      exact not_busy_idle
    · have hstep := buffered_step (i := i) h
      rw [leaving_eq h, buffered_of_push h hpush, ite_self, hpush] at hstep
      rw [ht]
      exact hstep
  · refine Or.inl ⟨hpush, ?_⟩
    have hnext : Busy (state_d s i) := busy_of_not_push hbusy hpush
    rw [in_front_of_busy (s := TaskFrontend.step s i) hnext, ht, ← htask]
    rfl

/-- The one feedback of the buffer leaves, or is still there. -/
theorem hold (h : FifoV3.Inv 1 s.i_hpu_cmd_fifo) {fb : task_feedback_descr_t}
    (hfb : fb ∈ buffered s) : buffered s = [fb]
      ∧ ((leaving s i = [fb] ∧ buffered (TaskFrontend.step s i) = [])
        ∨ (leaving s i = [] ∧ buffered (TaskFrontend.step s i) = [fb])) := by
  have hone := eq_singleton h hfb
  have hpush : feedback_buff_push s i = false := by
    by_contra hp
    have hnil := buffered_of_push h (Bool.eq_true_of_not_eq_false hp)
    rw [hnil] at hfb
    exact absurd hfb List.not_mem_nil
  have hstep := buffered_step (i := i) h
  rw [hpush, if_neg Bool.false_ne_true, List.append_nil, hone] at hstep
  refine ⟨hone, ?_⟩
  rw [leaving_eq h, hone] at hstep ⊢
  split_ifs at hstep ⊢ with hl
  · exact Or.inl ⟨rfl, List.append_cancel_left hstep⟩
  · exact Or.inr ⟨rfl, hstep⟩

/-- A feedback that may leave and is taken does. -/
theorem leave (h : FifoV3.Inv 1 s.i_hpu_cmd_fifo) {fb : task_feedback_descr_t}
    (hfb : fb ∈ buffered s) (hcan : i.can_send_feedback_i = true)
    (hready : i.hpu_feedback_ready_i = true) : leaving s i = [fb] := by
  have hempty : feedback_buff_empty s = false := by
    rw [Bool.eq_false_iff, Ne, empty_iff]
    exact List.ne_nil_of_mem hfb
  have hl : feedback_leaves s i = true := by
    rw [feedback_leaves, hpu_feedback_valid_o, hcan, hready, hempty]
    rfl
  rw [leaving_eq h, if_pos hl, eq_singleton h hfb]

/-- A doorbell at a full buffer waits in `SendingFeedback`. -/
theorem doorbell (h : FifoV3.Inv 1 s.i_hpu_cmd_fifo) (ht : trigger_feedback s i = true)
    (hne : buffered s ≠ []) : state_d s i = .SendingFeedback := by
  have hq : s.state_q = .Running := by
    rw [trigger_feedback, Bool.and_eq_true, Bool.and_eq_true, beq_iff_eq] at ht
    exact ht.1.1
  have hfull := (full_iff h).mpr hne
  rw [state_d, hq, ht, hfull]
  rfl

/-- A task without a handler has nothing to run, and goes there at once. -/
theorem null_handler {t : hpu_handler_task_t} (ht : t ∈ accepting s i)
    (hnull : t.handler_task.handler_fun = 0) : state_d s i = .SendingFeedback := by
  obtain ⟨hv, ht⟩ := List.mem_ite_nil_right.mp ht
  rw [Bool.and_eq_true, hpu_task_ready_o, beq_iff_eq] at hv
  rw [List.mem_singleton.mp ht] at hnull
  rw [state_d, hv.1, hv.2, hnull]
  rfl

theorem kept (h : FifoV3.Inv 1 s.i_hpu_cmd_fifo) : Kept s i where
  accept := accept
  stay := fun _ => stay h
  hold := fun _ => hold h
  leave := fun _ => leave h
  send := push_of_empty h
  doorbell := doorbell h
  null_handler := fun _ => null_handler

end Cycle

/-! ## The invariant -/

/-- What left, what is buffered and what is in front make up what was accepted. -/
structure Inv (s : Sys) : Prop where
  fifo : FifoV3.Inv 1 s.hw.i_hpu_cmd_fifo
  once : s.fed_back ++ buffered s.hw ++ (in_front s.hw).map feedback_of
    = s.accepted.map feedback_of

namespace Inv

variable {s : Sys} {i : Input}

/-- The front-end in a cycle: what stays in front is what was there and what came in, less
the task whose feedback went to the buffer. -/
theorem front_step (h : Inv s) (i : Input) :
    (if feedback_buff_push s.hw i then [feedback_of s.hw.current_task_q] else [])
        ++ (in_front (TaskFrontend.step s.hw i)).map feedback_of
      = (in_front s.hw).map feedback_of ++ (accepting s.hw i).map feedback_of := by
  have hkept := kept (i := i) h.fifo
  -- a busy frontend has one task in front, which stays or goes to the buffer
  by_cases hbusy : Busy s.hw.state_q
  · have hfront := in_front_of_busy hbusy
    have hnone : accepting s.hw i = [] := by
      apply accepting_of_not_idle
      rintro ⟨hq, -⟩
      rw [hq] at hbusy
      exact not_busy_idle hbusy
    rw [hfront, hnone]
    rcases hkept.stay s.hw.current_task_q (by rw [hfront]; exact List.mem_singleton_self _) with
      ⟨hpush, hnext⟩ | ⟨hpush, hnext, -, -⟩
    · rw [hpush, hnext]
      rfl
    · rw [hpush, hnext]
      rfl
  · have hfront := in_front_of_not_busy hbusy
    rw [not_push_of_not_busy hbusy, hfront]
    rcases move s.hw i with ⟨hq, hv, -, -, -⟩ | ⟨hb, -, -⟩ | ⟨-, hidle, hback, -⟩
    · have hne : accepting s.hw i ≠ [] := by
        rw [accepting_of_idle hq hv]
        exact List.cons_ne_nil _ _
      rw [(hkept.accept hne).2]
      rfl
    · exact absurd hb hbusy
    · have hstay : ¬ Busy (TaskFrontend.step s.hw i).state_q := fun hc => hbusy (hback hc)
      rw [accepting_of_not_idle hidle, in_front_of_not_busy hstay]
      rfl

theorem step (h : Inv s) (i : Input) : Inv (s.step i) where
  fifo := h.fifo.step _
  once := by
    have hbuff := buffered_step (i := i) h.fifo
    have hfront := h.front_step i
    show (s.fed_back ++ leaving s.hw i) ++ buffered (TaskFrontend.step s.hw i)
      ++ (in_front (TaskFrontend.step s.hw i)).map feedback_of
      = (s.accepted ++ accepting s.hw i).map feedback_of
    rw [List.map_append, ← h.once, List.append_assoc s.fed_back, hbuff,
      List.append_assoc, List.append_assoc, List.append_assoc, hfront,
      List.append_assoc s.fed_back]

end Inv

theorem inv_init : Inv init where
  fifo := FifoV3.inv_reset _ (by decide) (by decide)
  once := rfl

/-! ## Whole runs -/

/-- A cycle with or without a task and an access. -/
def demo_cycle (task : Option mem_addr_t) (add_i : Option (BitVec 32)) : Input where
  hpu_task_valid_i := task.isSome
  hpu_task_i := { zero_task with
    handler_task := { zero_task.handler_task with handler_fun := task.getD 0 } }
  hpu_feedback_ready_i := true
  req_i := add_i.isSome
  add_i := add_i.getD 0
  can_send_feedback_i := false

/-- The core starts, runs a handler, rings the doorbell and gets a task without a handler. -/
def demo_cycles : List Input :=
  [demo_cycle none (some 0), demo_cycle (some 0x1d000000) none, demo_cycle none (some 0x50),
    demo_cycle (some 0) none, demo_cycle none none]

end Sys

end Pspin.TaskFrontend
