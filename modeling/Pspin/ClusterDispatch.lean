/-
Transfers and dispatch in `cluster_scheduler`, over whole runs.

Every accepted task with a packet orders one transfer, and is handed to a core when the
response to it is there. The scheduler does not match responses to tasks: it counts them.
`Sys` records the tasks accepted, the transfers handed to the DMA engine, the responses
and the tasks the cores took, each in order. As responses come in the order of the
transfers and tasks leave in the order they came, counting is enough: `credit` is the
equation that ties a count to the transfer it stands for.
-/
import Mathlib.Data.List.Count
import Mathlib.Data.List.Nodup
import Pspin.ClusterScheduler
import Pspin.Sync

set_option autoImplicit false

namespace Pspin.ClusterScheduler.Dispatch

/-- The task has a packet to transfer. -/
def nonzero (t : hpu_handler_task_t) : Bool := t.handler_task.pkt_size != 0

structure Sys where
  hw : State
  accepted : List hpu_handler_task_t
  /-- Transfers the DMA engine has taken. -/
  xfers : List transf_descr_32_t
  responses : ℕ
  /-- Cores, with the task each one took. -/
  dispatched : List (ℕ × hpu_handler_task_t)

variable (cluster_id_i : BitVec 6)

/-- The transfer the DMA engine takes in this cycle. -/
def handed (s : State) (i : Input) : List transf_descr_32_t :=
  if dma_xfer_valid_o s i && i.dma_xfer_ready_i then [dma_xfer_o cluster_id_i s i] else []

/-- The cores that take a task in this cycle, with the task. -/
def taken (s : State) (i : Input) : List (ℕ × hpu_handler_task_t) :=
  ((List.range NUM_CORES).filter fun k => hpu_task_valid_o s i k && i.hpu_task_ready_i k).map
    fun k => (k, hpu_task_o s)

def step (s : Sys) (i : Input) : Sys where
  hw := ClusterScheduler.step cluster_id_i s.hw i
  accepted := s.accepted ++ if task_new s.hw i then [new_task cluster_id_i s.hw i] else []
  xfers := s.xfers ++ handed cluster_id_i s.hw i
  responses := s.responses + if i.dma_resp_i then 1 else 0
  dispatched := s.dispatched ++ taken s.hw i

def init (s : Sys) : Prop := ∃ zero, s = ⟨reset zero, [], [], 0, []⟩

/-- A response answers a transfer taken in an earlier cycle, in order. -/
def env (s : Sys) (i : Input) : Prop := i.dma_resp_i = true → s.responses < s.xfers.length

instance (s : Sys) (i : Input) : Decidable (env s i) := inferInstanceAs (Decidable (_ → _))

def Reach : Sys → Prop := Sync.Reach init (step cluster_id_i) env

/-- The transfer that waits for the DMA engine. -/
def pending (s : State) : List transf_descr_32_t :=
  if s.state_q == .WaitDMA then [s.dma_xfer_q] else []

/-- The tasks that left, in order. -/
def Sys.left (s : Sys) : List hpu_handler_task_t := s.dispatched.map Prod.snd

/-- The transfers that were answered belong to the first `responses` tasks with a packet;
so this is the number of the transfer of the next one to leave. -/
def Sys.next_xfer (s : Sys) : ℕ := s.left.countP nonzero

/-- What holds between cycles. -/
structure Exact (s : Sys) : Prop where
  /-- One transfer for each task with a packet, the last one perhaps still waiting. -/
  xfers : s.xfers ++ pending s.hw = (s.accepted.filter nonzero).map xfer_of
  /-- Tasks leave in the order they came, each once. -/
  left : s.left <+: s.accepted
  credit : s.hw.to_pop_q + s.next_xfer = s.responses
  answered : s.responses ≤ s.xfers.length

/-- What holds in a cycle. -/
structure Cycle (s : Sys) (i : Input) : Prop where
  /-- A transfer that waits is offered until it is taken. -/
  offered : ∀ x ∈ pending s.hw, dma_xfer_valid_o s.hw i = true ∧ dma_xfer_o cluster_id_i s.hw i = x
  /-- A task is offered to one core only, and that core is ready and takes it. -/
  one : ∀ k < NUM_CORES, hpu_task_valid_o s.hw i k = true → i.hpu_task_ready_i k = true
    ∧ taken s.hw i = [(k, hpu_task_o s.hw)]
  /-- A task with a packet leaves after the response to its own transfer. -/
  after : ∀ p ∈ taken s.hw i, nonzero p.2 = true →
    s.xfers[s.next_xfer]? = some (xfer_of p.2) ∧ s.next_xfer < s.responses
  /-- The next task leaves as soon as a core is ready and its response is there. -/
  leaves : ∀ t, s.accepted[s.left.length]? = some t →
    (nonzero t = true → s.next_xfer < s.responses) →
    (∃ k < NUM_CORES, i.hpu_task_ready_i k = true) → (taken s.hw i).map Prod.snd = [t]
  /-- Only tasks with a packet use up a response, and the count does not wrap. -/
  to_pop : to_pop_d s.hw i + (taken s.hw i).countP (fun p => nonzero p.2)
    = s.hw.to_pop_q + if i.dma_resp_i then 1 else 0

/-! ## One cycle at the ports -/

variable {cluster_id_i}

section Ports

variable {s : State} {i : Input}

theorem pop_nz_eq : dma_req_pop_nz s i = (dma_req_pop s i && nonzero (ready_task s)) := by
  have hsize : decide (0 < (ready_task s).handler_task.pkt_size) = nonzero (ready_task s) := by
    rw [nonzero, Bool.eq_iff_iff, decide_eq_true_eq, bne_iff_ne]
    exact BitVec.pos_iff_ne_zero _
  have hzero : ((ready_task s).handler_task.pkt_size == 0) = !nonzero (ready_task s) := by
    rw [nonzero, bne, Bool.not_not]
  rw [dma_req_pop_nz, dma_req_pop, hsize, hzero]
  cases nonzero (ready_task s)
  · rw [Bool.and_false, Bool.and_false]
  · rw [Bool.and_true, Bool.and_true, Bool.not_true, Bool.or_false]

/-- The selected core is ready. -/
theorem ready_of_pop (hp : dma_req_pop s i = true) :
    free_hpu_idx i < NUM_CORES ∧ i.hpu_task_ready_i (free_hpu_idx i) = true := by
  have hfree : no_free_hpu i = false := by
    rw [dma_req_pop, Bool.and_eq_true, Bool.and_eq_true] at hp
    rw [← Bool.not_eq_true']
    exact hp.1.2
  obtain ⟨hlt, hready, -⟩ := Lzc.cnt_o_spec hfree
  exact ⟨hlt, hready⟩

/-- A task is offered to the first free core, which takes it. -/
theorem taken_eq : taken s i
    = if dma_req_pop s i then [(free_hpu_idx i, hpu_task_o s)] else [] := by
  unfold taken
  by_cases hp : dma_req_pop s i = true
  · obtain ⟨hlt, hready⟩ := ready_of_pop hp
    have hone : ((List.range NUM_CORES).filter fun k =>
        hpu_task_valid_o s i k && i.hpu_task_ready_i k) = [free_hpu_idx i] := by
      apply Lzc.filter_range_one hlt
      intro k _
      rw [hpu_task_valid_o, hp, Bool.true_and, Bool.and_eq_true, beq_iff_eq]
      constructor
      · exact fun h => h.1
      · rintro rfl
        exact ⟨rfl, hready⟩
    rw [if_pos hp, hone, List.map_singleton]
  · rw [if_neg hp, List.filter_eq_nil_iff.mpr, List.map_nil]
    intro k _ hk
    rw [Bool.and_eq_true, hpu_task_valid_o, Bool.and_eq_true] at hk
    exact hp hk.1.1

variable (cluster_id_i s i) in
theorem can_issue_eq : can_issue_dma s i = (task_new s i && nonzero (new_task cluster_id_i s i)) :=
  rfl

/-- While a transfer waits, no task is accepted. -/
theorem not_new (h : s.state_q = .WaitDMA) : task_new s i = false := by
  rw [task_new, task_ready_o, h]
  exact Bool.and_false _

/-- What is ordered in a cycle is handed over or waits. -/
theorem handed_pending : handed cluster_id_i s i
      ++ pending (ClusterScheduler.step cluster_id_i s i)
    = pending s ++ if can_issue_dma s i then [xfer_of (new_task cluster_id_i s i)] else [] := by
  have hstate : (ClusterScheduler.step cluster_id_i s i).state_q = state_d s i := rfl
  have hxfer : (ClusterScheduler.step cluster_id_i s i).dma_xfer_q = dma_xfer_o cluster_id_i s i :=
    rfl
  unfold handed pending
  rw [hstate, hxfer]
  -- a transfer that the port does not take is kept in the register
  cases hq : s.state_q with
  | Ready =>
    have hport : dma_xfer_o cluster_id_i s i = xfer_of (new_task cluster_id_i s i) := by
      rw [dma_xfer_o, hq]
      rfl
    rw [dma_xfer_valid_o, state_d, hq, hport]
    cases can_issue_dma s i <;> cases i.dma_xfer_ready_i <;> rfl
  | WaitDMA =>
    have hport : dma_xfer_o cluster_id_i s i = s.dma_xfer_q := by
      rw [dma_xfer_o, hq]
      rfl
    rw [dma_xfer_valid_o, state_d, hq, hport, can_issue_eq cluster_id_i,
      not_new hq]
    cases i.dma_xfer_ready_i <;> rfl

end Ports

/-! ## The invariant -/

/-- The FIFO holds the tasks that have not left. -/
structure Inv (s : Sys) : Prop extends Exact s where
  fifo : FifoV3.Inv NUM_HERS_PER_CLUSTER s.hw.i_dma_request_fifo
  waiting : s.left ++ FifoV3.elems NUM_HERS_PER_CLUSTER s.hw.i_dma_request_fifo = s.accepted

namespace Inv

variable {s : Sys} {i : Input}

/-- Every transfer belongs to a task that left or waits. -/
theorem xfers_le (h : Inv s) : s.xfers.length + (pending s.hw).length = s.next_xfer
    + (FifoV3.elems NUM_HERS_PER_CLUSTER s.hw.i_dma_request_fifo).countP nonzero := by
  have hlen := congrArg List.length h.xfers
  rw [List.length_append, List.length_map, ← List.countP_eq_length_filter, ← h.waiting,
    List.countP_append] at hlen
  exact hlen

/-- The count stays below the depth of the FIFO. -/
theorem to_pop_le (h : Inv s) : s.hw.to_pop_q + (s.xfers.length - s.responses)
    + (pending s.hw).length ≤ NUM_HERS_PER_CLUSTER := by
  have hx := h.xfers_le
  have hcredit := h.credit
  have hans := h.answered
  have hfifo := h.fifo.cnt_le
  have hcount := List.countP_le_length (p := nonzero)
    (l := FifoV3.elems NUM_HERS_PER_CLUSTER s.hw.i_dma_request_fifo)
  rw [FifoV3.length_elems] at hcount
  omega

/-- The task at the head is next. -/
theorem head (h : Inv s) (hp : dma_req_pop s.hw i = true) :
    ∃ rest, FifoV3.elems NUM_HERS_PER_CLUSTER s.hw.i_dma_request_fifo
      = hpu_task_o s.hw :: rest := by
  have hne : FifoV3.elems NUM_HERS_PER_CLUSTER s.hw.i_dma_request_fifo ≠ [] := by
    rw [dma_req_pop, Bool.and_eq_true, Bool.and_eq_true, Bool.not_eq_true'] at hp
    intro hnil
    rw [dma_req_empty, FifoV3.empty_o_iff.mpr hnil] at hp
    exact absurd hp.1.1 (by decide)
  obtain ⟨t, rest, hcons⟩ := List.exists_cons_of_ne_nil hne
  have hdata : hpu_task_o s.hw = t := h.fifo.data_o_eq (by rw [hcons, List.head?_cons])
  exact ⟨rest, by rw [hcons, hdata]⟩

theorem count_taken : (taken s.hw i).countP (fun p => nonzero p.2)
    = if dma_req_pop_nz s.hw i then 1 else 0 := by
  have hout : hpu_task_o s.hw = ready_task s.hw := rfl
  rw [taken_eq, pop_nz_eq]
  cases dma_req_pop s.hw i
  · rfl
  · rw [if_pos rfl, List.countP_singleton, Bool.true_and, hout]

/-- **The credit counter counts.** A response adds one, a task with a packet takes one. -/
theorem to_pop_step (h : Inv s) (he : env s i) :
    to_pop_d s.hw i + (taken s.hw i).countP (fun p => nonzero p.2)
      = s.hw.to_pop_q + if i.dma_resp_i then 1 else 0 := by
  have hle := h.to_pop_le
  have hdepth : NUM_HERS_PER_CLUSTER + 1 < 2 ^ to_pop_w := by decide
  rw [count_taken, to_pop_d]
  by_cases hp : dma_req_pop_nz s.hw i = true
  · have hpos : 0 < s.hw.to_pop_q := by
      rw [dma_req_pop_nz, Bool.and_eq_true, Bool.and_eq_true, decide_eq_true_eq] at hp
      exact hp.1.2
    rw [hp, if_pos rfl]
    cases i.dma_resp_i
    · show Counter.dec to_pop_w s.hw.to_pop_q + 1 = s.hw.to_pop_q + 0
      rw [Counter.dec_eq hpos (by omega)]
      omega
    · rfl
  · rw [Bool.eq_false_of_not_eq_true hp, if_neg Bool.false_ne_true]
    by_cases hr : i.dma_resp_i = true
    · -- the response answers a transfer that was not counted yet
      have hans := he hr
      rw [hr, if_pos rfl]
      show Counter.inc to_pop_w s.hw.to_pop_q + 0 = s.hw.to_pop_q + 1
      rw [Counter.inc_eq (by omega)]
    · rw [Bool.eq_false_of_not_eq_true hr]
      rfl

theorem left_step : (Dispatch.step cluster_id_i s i).left
    = s.left ++ (taken s.hw i).map Prod.snd := List.map_append

theorem waiting_step (h : Inv s) : (Dispatch.step cluster_id_i s i).left
      ++ FifoV3.elems NUM_HERS_PER_CLUSTER (Dispatch.step cluster_id_i s i).hw.i_dma_request_fifo
    = (Dispatch.step cluster_id_i s i).accepted := by
  have hpush : task_new s.hw i = true → dma_req_full s.hw = false := by
    intro hp
    rw [task_new, task_ready_o, Bool.and_eq_true, Bool.and_eq_true, Bool.and_eq_true,
      Bool.not_eq_true'] at hp
    exact hp.2.1.2
  have hpop : dma_req_pop s.hw i = true → dma_req_empty s.hw = false := by
    intro hp
    rw [dma_req_pop, Bool.and_eq_true, Bool.and_eq_true, Bool.not_eq_true'] at hp
    exact hp.1.1
  have hfifo : FifoV3.elems NUM_HERS_PER_CLUSTER (FifoV3.step NUM_HERS_PER_CLUSTER
        s.hw.i_dma_request_fifo (dma_request_fifo_input cluster_id_i s.hw i))
      = (if dma_req_pop s.hw i then
          (FifoV3.elems NUM_HERS_PER_CLUSTER s.hw.i_dma_request_fifo).tail
        else FifoV3.elems NUM_HERS_PER_CLUSTER s.hw.i_dma_request_fifo)
        ++ if task_new s.hw i then [new_task cluster_id_i s.hw i] else [] :=
    h.fifo.elems_step_of hpush hpop
  have hacc : (Dispatch.step cluster_id_i s i).accepted
      = s.accepted ++ if task_new s.hw i then [new_task cluster_id_i s.hw i] else [] := rfl
  have hmem : FifoV3.elems NUM_HERS_PER_CLUSTER
        (Dispatch.step cluster_id_i s i).hw.i_dma_request_fifo
      = FifoV3.elems NUM_HERS_PER_CLUSTER (FifoV3.step NUM_HERS_PER_CLUSTER
          s.hw.i_dma_request_fifo (dma_request_fifo_input cluster_id_i s.hw i)) := rfl
  -- the head moves from the FIFO to the tasks that left
  have hmove : (taken s.hw i).map Prod.snd ++ (if dma_req_pop s.hw i then
        (FifoV3.elems NUM_HERS_PER_CLUSTER s.hw.i_dma_request_fifo).tail
      else FifoV3.elems NUM_HERS_PER_CLUSTER s.hw.i_dma_request_fifo)
      = FifoV3.elems NUM_HERS_PER_CLUSTER s.hw.i_dma_request_fifo := by
    rw [taken_eq]
    split_ifs with hp
    · obtain ⟨rest, hcons⟩ := h.head hp
      rw [hcons]
      rfl
    · rfl
  rw [left_step, hacc, hmem, hfifo, ← h.waiting, List.append_assoc, List.append_assoc,
    ← List.append_assoc (List.map _ _), hmove]

theorem xfers_step (h : Inv s) : (Dispatch.step cluster_id_i s i).xfers
      ++ pending (Dispatch.step cluster_id_i s i).hw
    = ((Dispatch.step cluster_id_i s i).accepted.filter nonzero).map xfer_of := by
  have hx : (Dispatch.step cluster_id_i s i).xfers = s.xfers ++ handed cluster_id_i s.hw i := rfl
  have hhw : (Dispatch.step cluster_id_i s i).hw = ClusterScheduler.step cluster_id_i s.hw i := rfl
  have hacc : (Dispatch.step cluster_id_i s i).accepted
      = s.accepted ++ if task_new s.hw i then [new_task cluster_id_i s.hw i] else [] := rfl
  rw [hx, hhw, hacc, List.append_assoc, handed_pending, ← List.append_assoc, h.xfers,
    List.filter_append, List.map_append]
  congr 1
  rw [can_issue_eq cluster_id_i]
  cases task_new s.hw i
  · rfl
  · rw [if_pos rfl, Bool.true_and, List.filter_singleton]
    cases nonzero (new_task cluster_id_i s.hw i) <;> rfl

/-- **One cycle.** -/
theorem step (h : Inv s) (he : env s i) : Inv (Dispatch.step cluster_id_i s i) where
  xfers := h.xfers_step
  left := ⟨_, h.waiting_step⟩
  credit := by
    -- responses add to the credit, tasks that leave with a transfer take from it
    have hcount := h.to_pop_step he
    have hcredit := h.credit
    have hnext : (Dispatch.step cluster_id_i s i).next_xfer
        = s.next_xfer + (taken s.hw i).countP fun p => nonzero p.2 := by
      rw [Sys.next_xfer, left_step, List.countP_append, List.countP_map]
      rfl
    have hreg : (Dispatch.step cluster_id_i s i).hw.to_pop_q = to_pop_d s.hw i := rfl
    have hresp : (Dispatch.step cluster_id_i s i).responses
        = s.responses + if i.dma_resp_i then 1 else 0 := rfl
    rw [hnext, hreg, hresp]
    omega
  answered := by
    have hans := h.answered
    have hlen : (Dispatch.step cluster_id_i s i).xfers.length
        = s.xfers.length + (handed cluster_id_i s.hw i).length := List.length_append
    have hresp : (Dispatch.step cluster_id_i s i).responses
        = s.responses + if i.dma_resp_i then 1 else 0 := rfl
    rw [hlen, hresp]
    split_ifs with hr
    · have := he hr
      omega
    · omega
  fifo := h.fifo.step _
  waiting := h.waiting_step

/-- The transfer of the task at the head, by its number. -/
theorem xfer_of_head (h : Inv s) (hp : dma_req_pop s.hw i = true)
    (hnz : nonzero (hpu_task_o s.hw) = true) :
    (s.xfers ++ pending s.hw)[s.next_xfer]? = some (xfer_of (hpu_task_o s.hw)) := by
  obtain ⟨rest, hcons⟩ := h.head hp
  have hlen : (s.left.filter nonzero).length = s.next_xfer := List.countP_eq_length_filter.symm
  rw [h.xfers, ← h.waiting, hcons, List.filter_append, List.filter_cons_of_pos hnz,
    List.getElem?_map, List.getElem?_append_right (le_of_eq hlen), hlen, Nat.sub_self,
    List.getElem?_cons_zero, Option.map_some]

theorem cycle (h : Inv s) (he : env s i) : Cycle cluster_id_i s i where
  offered := by
    intro x hx
    obtain ⟨hq, hx⟩ := List.mem_ite_nil_right.mp hx
    rw [List.mem_singleton.mp hx]
    have hstate := beq_iff_eq.mp hq
    rw [dma_xfer_valid_o, dma_xfer_o, hstate]
    exact ⟨Bool.or_true _, rfl⟩
  one := by
    intro k _ hk
    rw [hpu_task_valid_o, Bool.and_eq_true, beq_iff_eq] at hk
    obtain ⟨hp, rfl⟩ := hk
    exact ⟨(ready_of_pop hp).2, by rw [taken_eq, if_pos hp]⟩
  after := by
    intro p hmem hnz
    rw [taken_eq] at hmem
    obtain ⟨hp, hmem⟩ := List.mem_ite_nil_right.mp hmem
    rw [List.mem_singleton.mp hmem] at hnz ⊢
    -- a task with a transfer leaves on a credit, and each credit is a response received
    have hpos : 0 < s.hw.to_pop_q := by
      have hpop : dma_req_pop_nz s.hw i = true := by
        rw [pop_nz_eq, hp]
        exact hnz
      rw [dma_req_pop_nz, Bool.and_eq_true, Bool.and_eq_true, decide_eq_true_eq] at hpop
      exact hpop.1.2
    have hcredit := h.credit
    have hans := h.answered
    refine ⟨?_, by omega⟩
    rw [← h.xfer_of_head hp hnz, List.getElem?_append_left (by omega)]
  leaves := by
    rintro t ht hresp ⟨k, hk, hready⟩
    rw [← h.waiting, List.getElem?_append_right (le_refl _), Nat.sub_self,
      ← List.head?_eq_getElem?] at ht
    have hdata : ready_task s.hw = t := h.fifo.data_o_eq ht
    have hempty : dma_req_empty s.hw = false := by
      have hiff : dma_req_empty s.hw = true
          ↔ FifoV3.elems NUM_HERS_PER_CLUSTER s.hw.i_dma_request_fifo = [] := FifoV3.empty_o_iff
      rw [Bool.eq_false_iff, Ne, hiff]
      intro hnil
      rw [hnil] at ht
      exact absurd ht (by simp)
    have hfree : no_free_hpu i = false := Lzc.not_empty_o_iff.mpr ⟨k, hk, hready⟩
    have hcredit := h.credit
    have hpop : dma_req_pop s.hw i = true := by
      rw [dma_req_pop, hempty, hfree, hdata]
      -- only a task with a transfer needs the credit
      by_cases hnz : nonzero t = true
      · have hpos : 0 < s.hw.to_pop_q := by
          have := hresp hnz
          omega
        rw [decide_eq_true hpos]
        rfl
      · rw [nonzero, bne, Bool.not_eq_true', Bool.not_eq_false] at hnz
        rw [hnz, Bool.or_true]
        rfl
    rw [taken_eq, if_pos hpop, List.map_singleton]
    exact congrArg (fun t => [t]) hdata
  to_pop := h.to_pop_step he

end Inv

theorem inv_init {s : Sys} (h : init s) : Inv s := by
  obtain ⟨zero, rfl⟩ := h
  exact
    { xfers := rfl
      left := List.nil_prefix
      credit := rfl
      answered := le_refl _
      fifo := FifoV3.inv_reset zero (by decide) (by decide)
      waiting := rfl }

def demo_start : Sys := ⟨reset ⟨demo_task 0, 0⟩, [], [], 0, []⟩

def demo_cycle (task_valid_i : Bool) (pkt_size : mem_size_t) (dma_xfer_ready_i dma_resp_i : Bool) :
    Input where
  task_valid_i := task_valid_i
  task_descr_i := demo_task pkt_size
  feedback_ready_i := true
  dma_xfer_ready_i := dma_xfer_ready_i
  dma_resp_i := dma_resp_i
  hpu_task_ready_i := fun k => k == 2
  hpu_feedback_valid_i := fun _ => false
  hpu_feedback_i := fun _ => ⟨⟨0, 0, 0, false⟩, 0⟩
  hpu_active_i := fun _ => true

def demo_cycles : List Input :=
  [demo_cycle true 100 false false, demo_cycle true 0 true false, demo_cycle true 0 true false,
    demo_cycle false 0 true true, demo_cycle false 0 true false]

end Pspin.ClusterScheduler.Dispatch
