/-
`mpq_engine`: from handler execution requests to handler tasks.

Requests enter the FIFO of the queue their msgid names, an arbiter picks a queue that
has something to send, and one cycle later the element read from the FIFO and the word
read from the metadata memory make the task. Feedbacks come back through the engine on
their way to the NIC.

This file is the translation, for the parameters `pspin` instantiates the engine with.
A queue index is the low bits of a msgid. The three `mpq_fsm` instances and the order of
their write-backs are kept as they are; `mpq_d_eq` says what they amount to.
-/
import Pspin.FifoEngine
import Pspin.MpqCycle
import Pspin.RrArbTree

set_option autoImplicit false

namespace Pspin.MpqEngine

/-- The parameters of `i_fifo_engine`. -/
abbrev fifo_params : FifoEngine.Params where
  NUM_CELLS := NUM_MPQ_CELLS
  NUM_FIFO := NUM_MPQ
  NUM_STATIC_CELLS_PER_FIFO := NUM_MPQ_STATIC_CELLS
  cells_pos := by decide
  fifo_pos := by decide
  static_pos := by decide

/-- The number of a message processing queue. -/
abbrev mpq_idx_t := Fin NUM_MPQ

/-- Whether a task is at the output, and whether it was there a cycle before. -/
inductive mpqeng_state_t
  | Idle | Ready | Stalled
deriving DecidableEq, Repr

/-- The registers of `mpq_engine`, with those of the arbiter, of the FIFO engine and of the memory
of the contexts. -/
structure State where
  state_q : mpqeng_state_t
  mpq_q : mpq_idx_t → mpq_t
  selected_mpq_q : mpq_idx_t
  mpq_out_state_q : mpq_state_t
  task_q : handler_task_t
  new_task_triggers_feedback_q : Bool
  i_fifo_engine : FifoEngine.State fifo_params mpq_pkt_t
  i_mpq_meta_mem : TcSram.State mpq_idx_t mpq_meta_t
  i_mpq_rr_arb : RrArbTree.State

/-- The input ports in one cycle. -/
structure Input where
  her_valid_i : Bool
  her_i : her_descr_t
  feedback_valid_i : Bool
  feedback_i : feedback_descr_t
  task_ready_i : Bool
  nic_feedback_ready_i : Bool

/-- The all-zero task of the reset. -/
def zero_task : handler_task_t where
  msgid := 0
  handler_fun := 0
  handler_fun_size := 0
  handler_mem_addr := 0
  handler_mem_size := 0
  host_mem_addr := 0
  host_mem_size := 0
  pkt_addr := 0
  pkt_size := 0
  trigger_feedback := false
  scratchpad_addr := fun _ => 0
  scratchpad_size := fun _ => 0

def zero_mpq : mpq_t where
  state := .Free
  length := 0
  in_flight := 0
  has_completion := false
  eom_seen := false

/-- The reset values; the two memories come up with whatever they hold. -/
def reset (pkts : TcSram.State ℕ mpq_pkt_t) (metas : TcSram.State mpq_idx_t mpq_meta_t) : State where
  state_q := .Idle
  mpq_q := fun _ => zero_mpq
  selected_mpq_q := 0
  mpq_out_state_q := .Free
  task_q := zero_task
  new_task_triggers_feedback_q := false
  i_fifo_engine := FifoEngine.reset fifo_params pkts
  i_mpq_meta_mem := metas
  i_mpq_rr_arb := RrArbTree.reset

/-! ## Selection -/

/-- The low bits of a msgid. -/
def mpq_idx (msgid : msgid_t) : mpq_idx_t := Fin.ofNat _ msgid.toNat

/-- The queue of the HER: the low bits of its message id. -/
def newher_mpq_idx (i : Input) : mpq_idx_t := mpq_idx i.her_i.msgid

/-- The queue of the feedback. -/
def feedback_mpq_idx (i : Input) : mpq_idx_t := mpq_idx i.feedback_i.msgid

/-- The request vector of the arbiter. -/
def mpq_valids (s : State) (k : ℕ) : Bool :=
  if h : k < NUM_MPQ then mpq_valid (s.mpq_q ⟨k, h⟩) else false

/-- Some queue asks for the output. -/
def arb_valid (s : State) : Bool := RrArbTree.req_o NUM_MPQ s.i_mpq_rr_arb (mpq_valids s)

/-- The queue that the arbiter shows. -/
def tasksent_mpq_idx (s : State) : mpq_idx_t :=
  Fin.ofNat _ (RrArbTree.idx_o NUM_MPQ s.i_mpq_rr_arb (mpq_valids s))

/-- The arbiter is asked whenever the output is free, or becomes free in this cycle. -/
def arb_ready (s : State) (i : Input) : Bool :=
  match s.state_q with
  | .Idle => arb_valid s
  | .Ready | .Stalled => i.task_ready_i && arb_valid s

/-- The next state of the output. -/
def state_d (s : State) (i : Input) : mpqeng_state_t :=
  match s.state_q with
  | .Idle => if arb_valid s then .Ready else .Idle
  | .Ready => if i.task_ready_i then (if arb_valid s then .Ready else .Idle) else .Stalled
  | .Stalled => if i.task_ready_i then (if arb_valid s then .Ready else .Idle) else .Stalled

/-- A queue is granted in this cycle. -/
def task_sent (s : State) (i : Input) : Bool := arb_ready s i && arb_valid s

/-! ## Handshakes -/

/-- The FIFO engine has no cell left for the queue. -/
def mpq_full_o (s : State) (k : mpq_idx_t) : Bool := FifoEngine.fifo_full_o s.i_fifo_engine k

/-- A HER waits only for a cell of its own queue. -/
def her_ready_o (s : State) (i : Input) : Bool := !mpq_full_o s (newher_mpq_idx i)

def her_new (s : State) (i : Input) : Bool := i.her_valid_i && her_ready_o s i

/-- The NIC takes the feedback, and only then does the engine. -/
def feedback_ready_o (i : Input) : Bool := i.nic_feedback_ready_i

/-- A feedback is accepted. -/
def feedback_new (i : Input) : Bool := i.feedback_valid_i && feedback_ready_o i

/-- Feedbacks of packets with a trigger are passed on to the NIC. -/
def nic_feedback_valid_o (i : Input) : Bool := i.feedback_valid_i && i.feedback_i.trigger_feedback

def nic_feedback_o (i : Input) : feedback_descr_t := i.feedback_i

/-! ## Queue states -/

/-- What the FSM is told of a HER: whether the message has a header handler and a completion
handler, and whether this is its last packet. -/
def her_flags (i : Input) : Bool × Bool × Bool :=
  (i.her_i.mpq_meta.hh_addr != 0, i.her_i.mpq_meta.th_addr != 0, i.her_i.eom)

/-- The event inputs of `i_newher_mpq_fsm`. -/
def newher_mpq_fsm_i (s : State) (i : Input) : mpq_event_t where
  her_new_i := her_new s i
  task_sent_i := task_sent s i && tasksent_mpq_idx s == newher_mpq_idx i
  feedback_i := feedback_new i && feedback_mpq_idx i == newher_mpq_idx i
  her_new_has_hh_i := (her_flags i).1
  her_new_has_th_i := (her_flags i).2.1
  her_new_is_eom_i := (her_flags i).2.2

/-- The event inputs of `i_tasksent_mpq_fsm`. -/
def tasksent_mpq_fsm_i (s : State) (i : Input) : mpq_event_t where
  her_new_i := her_new s i && newher_mpq_idx i == tasksent_mpq_idx s
  task_sent_i := task_sent s i
  feedback_i := feedback_new i && feedback_mpq_idx i == tasksent_mpq_idx s
  her_new_has_hh_i := (her_flags i).1
  her_new_has_th_i := (her_flags i).2.1
  her_new_is_eom_i := (her_flags i).2.2

/-- The event inputs of `i_feedback_mpq_fsm`. -/
def feedback_mpq_fsm_i (s : State) (i : Input) : mpq_event_t where
  her_new_i := her_new s i && newher_mpq_idx i == feedback_mpq_idx i
  task_sent_i := task_sent s i && feedback_mpq_idx i == tasksent_mpq_idx s
  feedback_i := feedback_new i
  her_new_has_hh_i := (her_flags i).1
  her_new_has_th_i := (her_flags i).2.1
  her_new_is_eom_i := (her_flags i).2.2

/-- One write-back: the output of an FSM replaces the record it was computed from. -/
def write_back (q : mpq_idx_t → mpq_t) (k : mpq_idx_t) (e : mpq_event_t)
    (d : mpq_idx_t → mpq_t) : mpq_idx_t → mpq_t :=
  if e.update_o then Function.update d k (mpq_fsm e (q k)) else d

/-- The next states of the queues. Three FSMs serve the three ports; the later writes win where two
ports name one queue. -/
def mpq_d (s : State) (i : Input) : mpq_idx_t → mpq_t :=
  let newher := write_back s.mpq_q (newher_mpq_idx i) (newher_mpq_fsm_i s i) s.mpq_q
  let tasksent := write_back s.mpq_q (tasksent_mpq_idx s) (tasksent_mpq_fsm_i s i) newher
  write_back s.mpq_q (feedback_mpq_idx i) (feedback_mpq_fsm_i s i) tasksent

/-! ## FIFO and metadata -/

/-- When a packet leaves the FIFO: with its last task. -/
def fifo_pop (s : State) (i : Input) : Bool :=
  let q := s.mpq_q (tasksent_mpq_idx s)
  let d := mpq_d s i (tasksent_mpq_idx s)
  task_sent s i
    -- payload packets but not the EOM, the EOM already if there is no completion
    -- handler, and the EOM when the completion is sent
    && ((q.state == .Payload && d.state == .Payload)
      || (q.state == .Payload && d.state == .PayloadDraining && !d.has_completion)
      || q.state == .Completion)

/-- The ports of the FIFO engine. -/
def fifo_input (s : State) (i : Input) : FifoEngine.Input fifo_params mpq_pkt_t where
  new_el_i := pkt_of i.her_i
  push_i := her_new s i
  fifo_push_id_i := newher_mpq_idx i
  pop_i := fifo_pop s i
  fifo_pop_id_i := tasksent_mpq_idx s

/-- The context is written by the first HER of a message, the one that finds the queue free. -/
def mpqmeta_write (s : State) (i : Input) : Bool :=
  her_new s i && !mpq_busy (s.mpq_q (newher_mpq_idx i))

/-- The ports of the memory of the contexts. -/
def mpqmeta_input (s : State) (i : Input) : TcSram.Input mpq_idx_t mpq_meta_t where
  wreq := mpqmeta_write s i
  waddr := newher_mpq_idx i
  wdata := i.her_i.mpq_meta
  rreq := task_sent s i
  raddr := tasksent_mpq_idx s

/-! ## Output task -/

/-- The packet of the grant before this cycle. -/
def mpq_head (s : State) : mpq_pkt_t := FifoEngine.data_o s.i_fifo_engine

/-- The context of the grant before this cycle. -/
def mpqmeta_read_mpq (s : State) : mpq_meta_t := TcSram.rdata_o s.i_mpq_meta_mem

/-- The fields of `new_task` the case statement sets: handler, packet, trigger. -/
def new_task_fields (s : State) :
    (mem_addr_t × mem_size_t) × (mem_addr_t × mem_size_t) × Bool :=
  let m := mpqmeta_read_mpq s
  let pkt := ((mpq_head s).pkt_addr, (mpq_head s).pkt_size)
  match s.mpq_out_state_q with
  | .Header => ((m.hh_addr, m.hh_size), pkt, s.new_task_triggers_feedback_q)
  | .Payload => ((m.ph_addr, m.ph_size), pkt, s.new_task_triggers_feedback_q)
  | .Completion => ((m.th_addr, m.th_size), pkt, s.new_task_triggers_feedback_q)
  | _ => ((0, 0), (0, 0), false)

/-- The task of the queue that was granted a cycle before: the packet and the context have been
read in between. -/
def new_task (s : State) : handler_task_t where
  msgid := BitVec.ofNat _ s.selected_mpq_q
  handler_fun := (new_task_fields s).1.1
  handler_fun_size := (new_task_fields s).1.2
  handler_mem_addr := (mpqmeta_read_mpq s).handler_mem_addr
  handler_mem_size := (mpqmeta_read_mpq s).handler_mem_size
  host_mem_addr := (mpqmeta_read_mpq s).host_mem_addr
  host_mem_size := (mpqmeta_read_mpq s).host_mem_size
  pkt_addr := (new_task_fields s).2.1.1
  pkt_size := (new_task_fields s).2.1.2
  trigger_feedback := (new_task_fields s).2.2
  scratchpad_addr := (mpqmeta_read_mpq s).scratchpad_addr
  scratchpad_size := (mpqmeta_read_mpq s).scratchpad_size

def task_valid_o (s : State) : Bool := s.state_q == .Ready || s.state_q == .Stalled

/-- A task that was not taken is shown again from its register. -/
def task_o (s : State) : handler_task_t := if s.state_q == .Ready then new_task s else s.task_q

/-! ## A clock edge -/

def step (s : State) (i : Input) : State where
  state_q := state_d s i
  mpq_q := mpq_d s i
  selected_mpq_q := if task_sent s i then tasksent_mpq_idx s else s.selected_mpq_q
  mpq_out_state_q :=
    if task_sent s i then (s.mpq_q (tasksent_mpq_idx s)).state else s.mpq_out_state_q
  task_q := task_o s
  new_task_triggers_feedback_q :=
    if task_sent s i then fifo_pop s i else s.new_task_triggers_feedback_q
  i_fifo_engine := FifoEngine.step s.i_fifo_engine (fifo_input s i)
  i_mpq_meta_mem := TcSram.step s.i_mpq_meta_mem (mpqmeta_input s i)
  i_mpq_rr_arb := RrArbTree.step NUM_MPQ s.i_mpq_rr_arb ⟨mpq_valids s, arb_ready s i⟩

/-! ## The three FSMs are one

The indices, the events and the facts about the request of a cycle, with nothing said
about where they come from. An index may name a queue in use although its event does not
happen. -/

/-- What the three FSMs see of the ports. -/
structure Ports where
  newher_mpq_idx : mpq_idx_t
  tasksent_mpq_idx : mpq_idx_t
  feedback_mpq_idx : mpq_idx_t
  her_new : Bool
  task_sent : Bool
  feedback_new : Bool
  her_new_has_hh : Bool
  her_new_has_th : Bool
  her_new_is_eom : Bool

/-- The events of queue `k`. -/
def Ports.events (p : Ports) (k : mpq_idx_t) : mpq_event_t where
  her_new_i := p.her_new && p.newher_mpq_idx == k
  task_sent_i := p.task_sent && p.tasksent_mpq_idx == k
  feedback_i := p.feedback_new && p.feedback_mpq_idx == k
  her_new_has_hh_i := p.her_new_has_hh
  her_new_has_th_i := p.her_new_has_th
  her_new_is_eom_i := p.her_new_is_eom

/-- No event hits queue `k`. -/
def Ports.misses (p : Ports) (k : mpq_idx_t) : Prop :=
  (p.her_new = true → p.newher_mpq_idx ≠ k) ∧ (p.task_sent = true → p.tasksent_mpq_idx ≠ k)
    ∧ (p.feedback_new = true → p.feedback_mpq_idx ≠ k)

/-- The three instances, each with the events of the other ports on its own index. -/
def Ports.newher_fsm_i (p : Ports) : mpq_event_t where
  her_new_i := p.her_new
  task_sent_i := p.task_sent && p.tasksent_mpq_idx == p.newher_mpq_idx
  feedback_i := p.feedback_new && p.feedback_mpq_idx == p.newher_mpq_idx
  her_new_has_hh_i := p.her_new_has_hh
  her_new_has_th_i := p.her_new_has_th
  her_new_is_eom_i := p.her_new_is_eom

/-- The FSM of the grant is also told of a HER and of a feedback for its queue. -/
def Ports.tasksent_fsm_i (p : Ports) : mpq_event_t where
  her_new_i := p.her_new && p.newher_mpq_idx == p.tasksent_mpq_idx
  task_sent_i := p.task_sent
  feedback_i := p.feedback_new && p.feedback_mpq_idx == p.tasksent_mpq_idx
  her_new_has_hh_i := p.her_new_has_hh
  her_new_has_th_i := p.her_new_has_th
  her_new_is_eom_i := p.her_new_is_eom

def Ports.feedback_fsm_i (p : Ports) : mpq_event_t where
  her_new_i := p.her_new && p.newher_mpq_idx == p.feedback_mpq_idx
  task_sent_i := p.task_sent && p.feedback_mpq_idx == p.tasksent_mpq_idx
  feedback_i := p.feedback_new
  her_new_has_hh_i := p.her_new_has_hh
  her_new_has_th_i := p.her_new_has_th
  her_new_is_eom_i := p.her_new_is_eom

/-- The writes in their order. -/
def Ports.mpq_d (p : Ports) (q : mpq_idx_t → mpq_t) : mpq_idx_t → mpq_t :=
  let newher := write_back q p.newher_mpq_idx p.newher_fsm_i q
  let tasksent := write_back q p.tasksent_mpq_idx p.tasksent_fsm_i newher
  write_back q p.feedback_mpq_idx p.feedback_fsm_i tasksent

/-- The ports of a cycle of the engine. -/
def ports (s : State) (i : Input) : Ports where
  newher_mpq_idx := newher_mpq_idx i
  tasksent_mpq_idx := tasksent_mpq_idx s
  feedback_mpq_idx := feedback_mpq_idx i
  her_new := her_new s i
  task_sent := task_sent s i
  feedback_new := feedback_new i
  her_new_has_hh := (her_flags i).1
  her_new_has_th := (her_flags i).2.1
  her_new_is_eom := (her_flags i).2.2

/-- The events of queue `k` in a cycle. -/
def mpq_events (s : State) (i : Input) (k : mpq_idx_t) : mpq_event_t where
  her_new_i := her_new s i && newher_mpq_idx i == k
  task_sent_i := task_sent s i && tasksent_mpq_idx s == k
  feedback_i := feedback_new i && feedback_mpq_idx i == k
  her_new_has_hh_i := (her_flags i).1
  her_new_has_th_i := (her_flags i).2.1
  her_new_is_eom_i := (her_flags i).2.2

/-- A write touches its own queue, and only if the FSM asks for it. -/
theorem write_back_eq {q d : mpq_idx_t → mpq_t} {j : mpq_idx_t} (e : mpq_idx_t → mpq_event_t)
    (k : mpq_idx_t) : write_back q j (e j) d k
    = if j = k ∧ (e k).update_o = true then mpq_fsm (e k) (q k) else d k := by
  unfold write_back
  by_cases hjk : j = k
  · subst hjk
    by_cases hu : (e j).update_o = true
    · rw [if_pos hu, if_pos ⟨rfl, hu⟩, Function.update_self]
    · rw [if_neg hu, if_neg (fun hc => hu hc.2)]
  · rw [if_neg (fun hc : j = k ∧ _ => hjk hc.1)]
    split_ifs
    · exact Function.update_of_ne (Ne.symm hjk) _ _
    · rfl

/-- The FSM of the HER sees what happens to its queue. -/
theorem Ports.newher_fsm_eq (p : Ports) : p.newher_fsm_i = p.events p.newher_mpq_idx := by
  simp [Ports.newher_fsm_i, Ports.events]

theorem Ports.tasksent_fsm_eq (p : Ports) : p.tasksent_fsm_i = p.events p.tasksent_mpq_idx := by
  simp [Ports.tasksent_fsm_i, Ports.events]

theorem Ports.feedback_fsm_eq (p : Ports) : p.feedback_fsm_i = p.events p.feedback_mpq_idx := by
  have hcomm : (p.feedback_mpq_idx == p.tasksent_mpq_idx)
      = (p.tasksent_mpq_idx == p.feedback_mpq_idx) := BEq.comm
  simp [Ports.feedback_fsm_i, Ports.events, hcomm]

/-- A queue with an event is the index of an FSM that sees it. -/
theorem Ports.events_idx {p : Ports} {k : mpq_idx_t} (h : (p.events k).update_o = true) :
    k = p.newher_mpq_idx ∨ k = p.tasksent_mpq_idx ∨ k = p.feedback_mpq_idx := by
  simp only [mpq_event_t.update_o, Ports.events, Bool.or_eq_true, Bool.and_eq_true,
    beq_iff_eq] at h
  rcases h with (⟨-, h⟩ | ⟨-, h⟩) | ⟨-, h⟩
  · exact Or.inl h.symm
  · exact Or.inr (Or.inl h.symm)
  · exact Or.inr (Or.inr h.symm)

/-- No port at a queue means no event for it. -/
theorem Ports.misses_iff (p : Ports) (k : mpq_idx_t) :
    p.misses k ↔ (p.events k).update_o = false := by
  simp only [Ports.misses, mpq_event_t.update_o, Ports.events, Bool.or_eq_false_iff,
    Bool.and_eq_false_imp, beq_eq_false_iff_ne, and_assoc, ne_eq]

/-- Every queue gets the one FSM output for all its events. -/
theorem Ports.mpq_d_eq (p : Ports) (q : mpq_idx_t → mpq_t) (k : mpq_idx_t) : p.mpq_d q k
    = if (p.events k).update_o then mpq_fsm (p.events k) (q k) else q k := by
  unfold Ports.mpq_d
  rw [p.newher_fsm_eq, p.tasksent_fsm_eq, p.feedback_fsm_eq, write_back_eq, write_back_eq,
    write_back_eq]
  by_cases hu : (p.events k).update_o = true
  · rw [if_pos hu]
    -- whichever FSM writes last, it writes the same
    rcases Ports.events_idx hu with rfl | rfl | rfl
    · split_ifs <;> simp_all
    · split_ifs <;> simp_all
    · rw [if_pos ⟨rfl, hu⟩]
  · rw [if_neg hu, if_neg (fun hc => hu hc.2), if_neg (fun hc => hu hc.2),
      if_neg (fun hc => hu hc.2)]

/-- The next states are a case of the ports. -/
theorem mpq_d_ports (s : State) (i : Input) : mpq_d s i = (ports s i).mpq_d s.mpq_q := rfl

theorem mpq_events_ports (s : State) (i : Input) : mpq_events s i = (ports s i).events := rfl

/-- **It does not matter which FSM writes a queue back.** -/
theorem mpq_d_eq (s : State) (i : Input) (k : mpq_idx_t) : mpq_d s i k
    = if (mpq_events s i k).update_o then mpq_fsm (mpq_events s i k) (s.mpq_q k)
      else s.mpq_q k := by
  rw [mpq_d_ports, mpq_events_ports]
  exact (ports s i).mpq_d_eq s.mpq_q k

/-- **Three event ports, one FSM.** For all indices and events, also where an index names a
queue without its event: a queue with events makes one step of the FSM with exactly these,
and every other queue keeps its state. The engine connects its ports in this way. -/
theorem three_ports_one_fsm :
    (∀ (p : Ports) (q : mpq_idx_t → mpq_t) (k : mpq_idx_t),
      (¬ p.misses k → p.mpq_d q k = mpq_fsm (p.events k) (q k))
        ∧ (p.misses k → p.mpq_d q k = q k))
      ∧ ∀ (s : State) (i : Input), mpq_d s i = (ports s i).mpq_d s.mpq_q := by
  refine ⟨fun p q k => ⟨fun hk => ?_, fun hk => ?_⟩, mpq_d_ports⟩
  · rw [p.misses_iff, Bool.not_eq_false] at hk
    rw [p.mpq_d_eq, if_pos hk]
  · rw [p.misses_iff] at hk
    rw [p.mpq_d_eq, hk, if_neg Bool.false_ne_true]

/-- A request with a header handler to queue 3 and a feedback of queue 5; the idle grant
index names queue 5 too. -/
def demo_ports : Ports := ⟨3, 5, 5, true, false, true, true, false, false⟩

theorem three_ports_one_fsm_demo :
    demo_ports.mpq_d (fun _ => { zero_mpq with state := .CompletionRunning, in_flight := 1 }) 5
        = zero_mpq
      ∧ (demo_ports.mpq_d (fun _ => zero_mpq) 3).state = .Header
      ∧ demo_ports.mpq_d (fun _ => zero_mpq) 4 = zero_mpq := by
  have h := three_ports_one_fsm.1 demo_ports
  refine ⟨((h _ 5).1 (by unfold Ports.misses; decide)).trans rfl, ?_,
    (h _ 4).2 (by unfold Ports.misses; decide)⟩
  rw [(h _ 3).1 (by unfold Ports.misses; decide)]
  rfl

end Pspin.MpqEngine
