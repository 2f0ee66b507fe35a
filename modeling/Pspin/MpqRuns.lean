/-
Runs of `mpq_engine`.

`Sys` runs the engine beside one log for each queue and the list of tasks handed over
to the scheduler. A feedback in the input says which task it answers. `Env` is the
protocol of the surroundings, in each cycle: messages of a queue come one at a time, a
feedback answers a task that was sent and has none yet, and at most 255 tasks wait for
theirs.

Under it every queue does in a cycle what `Queue.cycle` says (`queue_step`), whatever
the other queues do. So the invariant of the engine is that of each queue, of the cell
memory and of the arbiter's lock.
-/
import Mathlib.Algebra.Order.BigOperators.Group.Finset
import Mathlib.Data.Fintype.BigOperators
import Pspin.FifoRefine
import Pspin.MpqCustody
import Pspin.MpqEngine
import Pspin.Sync

set_option autoImplicit false

namespace Pspin.MpqEngine

open Message

/-- A cycle's inputs, and which task of its queue the feedback answers. -/
structure SysInput extends Input where
  fb_task : ℕ

/-- The engine with a log for each queue, and the tasks that were taken from its output. -/
structure Sys where
  hw : State
  log : mpq_idx_t → Log
  delivered : mpq_idx_t → List handler_task_t

/-- The feedback of a task. -/
def feedback_of (t : handler_task_t) : feedback_descr_t :=
  ⟨t.pkt_addr, t.pkt_size, t.msgid, t.trigger_feedback⟩

/-! ## Events -/

/-- A feedback for queue `k`. -/
def fed (i : Input) (k : mpq_idx_t) : Bool := feedback_new i && feedback_mpq_idx i == k

def granted (s : State) (i : Input) (k : mpq_idx_t) : Bool :=
  task_sent s i && tasksent_mpq_idx s == k

def got_her (s : State) (i : Input) (k : mpq_idx_t) : Bool :=
  her_new s i && newher_mpq_idx i == k

/-- What happens to queue `k` in a cycle. -/
def queue_events (s : State) (i : SysInput) (k : mpq_idx_t) : Queue.Events where
  feedback := if fed i.toInput k then some i.fb_task else none
  sent := granted s i.toInput k
  her := if got_her s i.toInput k then some i.her_i else none

/-- The log of queue `k` after a cycle. What was sent is the task on the wires of the
cycle after the grant. -/
def log_step (s : State) (i : SysInput) (k : mpq_idx_t) (l : Log) : Log :=
  let l1 := if fed i.toInput k then l.answer i.fb_task else l
  let l2 := if granted s i.toInput k
    then l1.send ⟨(s.mpq_q k).state, new_task (step s i.toInput)⟩ else l1
  if got_her s i.toInput k then l2.her i.her_i else l2

/-- The task of queue `k` on the output. -/
def pending (s : State) (k : mpq_idx_t) : List handler_task_t :=
  if task_valid_o s && mpq_idx (task_o s).msgid == k then [task_o s] else []

namespace Sys

/-- Reset, with whatever the memories hold. -/
def init (s : Sys) : Prop :=
  ∃ pkts metas, s = ⟨reset pkts metas, fun _ => Log.empty, fun _ => []⟩

/-- A clock edge of the engine, which the logs follow. -/
def step (s : Sys) (i : SysInput) : Sys where
  hw := MpqEngine.step s.hw i.toInput
  log := fun k => log_step s.hw i k (s.log k)
  delivered := fun k => s.delivered k ++ if i.task_ready_i then pending s.hw k else []

/-- Queue `k` of the engine with its log. -/
def queue (s : Sys) (k : mpq_idx_t) : Queue where
  mpq := s.hw.mpq_q k
  fifo := FifoEngine.fifo_elems s.hw.i_fifo_engine k
  mpq_meta := s.hw.i_mpq_meta_mem.sram k
  log := s.log k

/-- Feedback `f` answers task `k` of a log. -/
def Answers (l : Log) (k : ℕ) (f : feedback_descr_t) : Prop :=
  l.Outstanding k ∧ (l.sent[k]?).map (fun t => feedback_of t.task) = some f

instance (l : Log) (k : ℕ) (f : feedback_descr_t) : Decidable (Answers l k f) :=
  inferInstanceAs (Decidable (_ ∧ _))

/-- The tasks of all queues that wait for their feedback. -/
def outstanding (s : Sys) : ℕ := ∑ k, (s.log k).outstanding.card

/-- The protocol without the rule for messages: one feedback for each task, after it was
sent, and at most 255 tasks outstanding. -/
def FeedbackEnv (s : Sys) (i : SysInput) : Prop :=
  (feedback_new i.toInput = true →
      Answers (s.log (feedback_mpq_idx i.toInput)) i.fb_task i.feedback_i)
    ∧ outstanding (s.step i) ≤ 255

/-- One message per queue: an accepted HER continues an open message or finds its queue
free again. -/
def MessageEnv (s : Sys) (i : SysInput) : Prop :=
  her_new s.hw i.toInput = true → (s.queue (newher_mpq_idx i.toInput)).Accepts

/-- What the ports are promised: feedbacks of tasks that are out, and messages one at a time per
queue. -/
def Env (s : Sys) (i : SysInput) : Prop := FeedbackEnv s i ∧ MessageEnv s i

instance (s : Sys) (i : SysInput) : Decidable (FeedbackEnv s i) :=
  inferInstanceAs (Decidable (_ ∧ _))

instance (s : Sys) (i : SysInput) : Decidable (MessageEnv s i) :=
  inferInstanceAs (Decidable (_ → _))

instance (s : Sys) (i : SysInput) : Decidable (Env s i) := inferInstanceAs (Decidable (_ ∧ _))

/-! ## The invariant -/

/-- What holds in every run with exact feedbacks, whatever the messages are. -/
structure Balance (s : Sys) : Prop where
  fifo : ∃ cs, FifoEngine.Inv s.hw.i_fifo_engine cs
  arb : RrArbTree.Held NUM_MPQ s.hw.i_mpq_rr_arb (mpq_valids s.hw)
  tally : ∀ k, (s.queue k).Tally
  parked : ∀ k, (s.queue k).Parked

/-- And what holds under the whole protocol. -/
structure Inv (s : Sys) : Prop extends Balance s where
  queue : ∀ k, (s.queue k).Inv k

end Sys

/-! ## The granted queue -/

section Grant

variable {s : State} {i : Input} {k : mpq_idx_t}

theorem mpq_valids_fin (s : State) (k : mpq_idx_t) : mpq_valids s k = mpq_valid (s.mpq_q k) := by
  rw [mpq_valids, dif_pos k.isLt]

/-- The arbiter grants only a queue that asks for it. -/
theorem valid_of_task_sent (harb : RrArbTree.Held NUM_MPQ s.i_mpq_rr_arb (mpq_valids s))
    (h : task_sent s i = true) : mpq_valid (s.mpq_q (tasksent_mpq_idx s)) = true := by
  rw [task_sent, Bool.and_eq_true] at h
  obtain ⟨hlt, hreq⟩ := RrArbTree.idx_o_spec (by decide) harb h.2
  have hidx : (tasksent_mpq_idx s : ℕ) = RrArbTree.idx_o NUM_MPQ s.i_mpq_rr_arb (mpq_valids s) :=
    Nat.mod_eq_of_lt hlt
  rw [← mpq_valids_fin, hidx]
  exact hreq

theorem granted_iff : granted s i k = true ↔ task_sent s i = true ∧ tasksent_mpq_idx s = k := by
  rw [granted, Bool.and_eq_true, beq_iff_eq]

theorem fed_iff : fed i k = true ↔ feedback_new i = true ∧ feedback_mpq_idx i = k := by
  rw [fed, Bool.and_eq_true, beq_iff_eq]

theorem got_her_iff : got_her s i k = true ↔ her_new s i = true ∧ newher_mpq_idx i = k := by
  rw [got_her, Bool.and_eq_true, beq_iff_eq]

/-- The pop signal, without the next-state record it is written with: the granted task
is the last one that carries its packet. -/
theorem fifo_pop_eq (harb : RrArbTree.Held NUM_MPQ s.i_mpq_rr_arb (mpq_valids s)) :
    fifo_pop s i = (task_sent s i && last_carrier (s.mpq_q (tasksent_mpq_idx s))) := by
  unfold fifo_pop
  by_cases hs : task_sent s i = true
  · have hv := valid_of_task_sent harb hs
    have hu : (mpq_events s i (tasksent_mpq_idx s)).update_o = true := by
      simp [mpq_event_t.update_o, mpq_events, hs]
    have hsent : (mpq_events s i (tasksent_mpq_idx s)).task_sent_i = true := by
      simp [mpq_events, hs]
    simp only [mpq_d_eq, if_pos hu]
    generalize s.mpq_q (tasksent_mpq_idx s) = q at *
    generalize mpq_events s i (tasksent_mpq_idx s) = e at *
    rcases mpq_valid_iff.mp hv with hq | ⟨hq, -⟩ | hq
    · -- a header leaves its packet for the payload handler
      rw [last_carrier, hq]
      rfl
    · have hst : (mpq_fsm e q).state
          = if q.eom_seen && q.length == 1 then .PayloadDraining else .Payload := by
        simp [mpq_fsm, hq, hsent]
      have hc : (mpq_fsm e q).has_completion = q.has_completion := by
        simp [mpq_fsm, hq]
      rw [hst, hc, last_carrier, hq]
      cases q.eom_seen && q.length == 1 <;> cases q.has_completion <;> rfl
    · rw [last_carrier, hq]
      rfl
  · simp [hs]

end Grant

/-! ## The data path

What the FIFO engine, the metadata memory and the output registers do only needs that a
queue which asks for a grant has a packet. -/

/-- What makes a grant safe: the FIFO engine is in order, the arbiter keeps what it shows, and
every queue that asks has a packet. -/
structure Core (s : State) : Prop where
  fifo : ∃ cs, FifoEngine.Inv s.i_fifo_engine cs
  arb : RrArbTree.Held NUM_MPQ s.i_mpq_rr_arb (mpq_valids s)
  packet : ∀ k, mpq_valid (s.mpq_q k) = true → FifoEngine.fifo_elems s.i_fifo_engine k ≠ []

namespace Core

variable {s : State} {i : Input}

/-- The calls of the FIFO engine are allowed: no push to a full queue, and no pop from
an empty one. -/
theorem fifo_ok (h : Core s) {cs : mpq_idx_t → List ℕ} (hcs : FifoEngine.Inv s.i_fifo_engine cs) :
    FifoEngine.Ok s.i_fifo_engine cs (fifo_input s i) where
  push := by
    intro hp
    have hp' : her_new s i = true := hp
    rw [her_new, Bool.and_eq_true, her_ready_o, Bool.not_eq_true'] at hp'
    exact hp'.2
  pop := by
    intro hp hnil
    have hp' : fifo_pop s i = true := hp
    rw [fifo_pop_eq h.arb, Bool.and_eq_true] at hp'
    apply h.packet _ (valid_of_task_sent h.arb hp'.1)
    have hnil' : cs (tasksent_mpq_idx s) = [] := hnil
    rw [hcs.fifo_elems_eq, hnil', List.map_nil]

/-- A queue is popped when it is granted its last carrier. -/
theorem pops_iff (h : Core s) (k : mpq_idx_t) : (fifo_input s i).pops k
    ↔ (granted s i k && last_carrier (s.mpq_q k)) = true := by
  show fifo_pop s i = true ∧ tasksent_mpq_idx s = k ↔ _
  rw [fifo_pop_eq h.arb, Bool.and_eq_true, Bool.and_eq_true, granted_iff]
  constructor
  · rintro ⟨⟨hs, hl⟩, rfl⟩
    exact ⟨⟨hs, rfl⟩, hl⟩
  · rintro ⟨⟨hs, rfl⟩, hl⟩
    exact ⟨⟨hs, hl⟩, rfl⟩

/-- A cycle takes the packet of a last carrier and appends that of a HER. -/
theorem elems_step (h : Core s) (k : mpq_idx_t) :
    FifoEngine.fifo_elems (step s i).i_fifo_engine k
      = (if granted s i k && last_carrier (s.mpq_q k)
          then (FifoEngine.fifo_elems s.i_fifo_engine k).tail
          else FifoEngine.fifo_elems s.i_fifo_engine k)
        ++ if got_her s i k then [pkt_of i.her_i] else [] := by
  obtain ⟨cs, hcs⟩ := h.fifo
  show FifoEngine.fifo_elems (FifoEngine.step s.i_fifo_engine (fifo_input s i)) k = _
  rw [hcs.elems_step (h.fifo_ok hcs) k, FifoEngine.shift, FifoEngine.kept]
  congr 1
  · exact if_congr (h.pops_iff k) rfl rfl
  · exact if_congr got_her_iff.symm rfl rfl

/-- **The task on the wires after a grant**: the handler for the state of the granted
queue, on the packet at the front of its FIFO. -/
theorem new_task_eq (h : Core s) {k : mpq_idx_t} (hg : granted s i k = true) {x : mpq_pkt_t}
    (hx : (FifoEngine.fifo_elems s.i_fifo_engine k).head? = some x) :
    new_task (step s i) = handler_task k (s.i_mpq_meta_mem.sram k) x.pkt_addr x.pkt_size
      (s.mpq_q k).state (last_carrier (s.mpq_q k)) := by
  obtain ⟨hs, hidx⟩ := granted_iff.mp hg
  obtain ⟨cs, hcs⟩ := h.fifo
  have hv := valid_of_task_sent h.arb hs
  rw [hidx] at hv
  have hst : (step s i).mpq_out_state_q = (s.mpq_q k).state := by
    simp [step, hs, hidx]
  have hsel : (step s i).selected_mpq_q = k := by
    simp [step, hs, hidx]
  have htrig : (step s i).new_task_triggers_feedback_q = last_carrier (s.mpq_q k) := by
    simp [step, hs, fifo_pop_eq h.arb, hidx]
  -- both memories were read in the cycle of the grant, so they answer now
  have hmeta : mpqmeta_read_mpq (step s i) = s.i_mpq_meta_mem.sram k := by
    have := TcSram.rdata_o_step (s := s.i_mpq_meta_mem) (i := mpqmeta_input s i) hs
    exact this.trans (congrArg _ hidx)
  have hhead : mpq_head (step s i) = x := by
    apply hcs.data_o_step (fifo_input s i)
    show (FifoEngine.fifo_elems s.i_fifo_engine (tasksent_mpq_idx s)).head? = some x
    rw [hidx, hx]
  unfold new_task new_task_fields handler_task handler_of
  rw [hst, hsel, htrig, hmeta, hhead]
  rcases mpq_valid_iff.mp hv with hq | ⟨hq, -⟩ | hq <;>
  · rw [hq]

end Core

/-! ## One cycle of the engine -/

namespace Sys

variable {s : Sys} {i : SysInput}

theorem Balance.core (h : Balance s) : Core s.hw :=
  ⟨h.fifo, h.arb, fun k hv => (h.tally k).fifo_ne_nil hv⟩

/-- The feedback that the log sees is the one that the FSM sees. -/
theorem fed_isSome (k : mpq_idx_t) :
    (queue_events s.hw i k).feedback.isSome = fed i.toInput k := by
  unfold queue_events
  cases fed i.toInput k <;> rfl

theorem her_isSome (k : mpq_idx_t) :
    (queue_events s.hw i k).her.isSome = got_her s.hw i.toInput k := by
  unfold queue_events
  cases got_her s.hw i.toInput k <;> rfl

/-- The FSM inputs of a queue are its events. -/
theorem drives (k : mpq_idx_t) : (queue_events s.hw i k).Drives (mpq_events s.hw i.toInput k) where
  feedback := (fed_isSome k).symm
  sent := rfl
  her := (her_isSome k).symm
  flags := by
    intro h hh
    unfold queue_events at hh
    by_cases hg : got_her s.hw i.toInput k = true
    · rw [if_pos hg, Option.some.injEq] at hh
      have hg' : (her_new s.hw i.toInput && newher_mpq_idx i.toInput == k) = true := hg
      simp only [mpq_event_t.only_her, mpq_events, hg', her_flags, hh, mpq_event_t.her]
    · rw [if_neg hg] at hh
      exact absurd hh (by simp)

/-- A grant is written down with its task, which shows at the output a cycle later. -/
theorem log_step_sent (k : mpq_idx_t) : ((s.step i).log k).sent = if granted s.hw i.toInput k
    then (s.log k).sent ++ [⟨(s.hw.mpq_q k).state, new_task (MpqEngine.step s.hw i.toInput)⟩]
    else (s.log k).sent := by
  show (log_step s.hw i k (s.log k)).sent = _
  unfold log_step
  cases fed i.toInput k <;> cases granted s.hw i.toInput k <;>
    cases got_her s.hw i.toInput k <;> simp [Log.answer, Log.send]

/-- The tasks in flight after a cycle bound the counter before it. -/
theorem bound_of_env {k : mpq_idx_t} (hq : (s.queue k).Tally) (he : FeedbackEnv s i)
    (hg : granted s.hw i.toInput k = true) :
    (s.hw.mpq_q k).in_flight + 1 < 2 ^ MPQ_CNT_W + if fed i.toInput k then 1 else 0 := by
  have hle : ((s.step i).log k).outstanding.card ≤ 255 :=
    le_trans (Finset.single_le_sum (f := fun k => ((s.step i).log k).outstanding.card)
      (fun _ _ => Nat.zero_le _) (Finset.mem_univ k)) he.2
  have hlen : ((s.step i).log k).sent.length = (s.log k).sent.length + 1 := by
    rw [log_step_sent, if_pos hg, List.length_append, List.length_singleton]
  -- the bound is on the cycle after this one: one task more is sent, at most one answered
  have hcard : ((s.step i).log k).answered.card
      ≤ (s.log k).answered.card + if fed i.toInput k then 1 else 0 := by
    show (log_step s.hw i k (s.log k)).answered.card ≤ _
    unfold log_step
    simp only [hg, if_true]
    split_ifs <;> simp [Log.send, Log.answer, Finset.card_insert_le]
  have hsub := Finset.le_card_sdiff ((s.step i).log k).answered
    (Finset.range ((s.step i).log k).sent.length)
  rw [Finset.card_range] at hsub
  have hfl : (s.hw.mpq_q k).in_flight + (s.log k).answered.card = (s.log k).sent.length :=
    hq.in_flight
  have hw : (2 : ℕ) ^ MPQ_CNT_W = 256 := by decide
  rw [hw]
  unfold Log.outstanding at hle
  omega

/-- The length counters have room for all cells, and one more. -/
theorem fifo_room (h : ∃ cs, FifoEngine.Inv s.hw.i_fifo_engine cs) (k : mpq_idx_t) :
    (s.queue k).fifo.length + 1 < 2 ^ MPQ_CNT_W := by
  obtain ⟨cs, hcs⟩ := h
  have hlen : (s.queue k).fifo.length ≤ fifo_params.TOT_CELLS := by
    show (FifoEngine.fifo_elems s.hw.i_fifo_engine k).length ≤ _
    rw [hcs.fifo_elems_eq, List.length_map]
    exact hcs.length_le k
  have hcap : fifo_params.TOT_CELLS + 1 < 2 ^ MPQ_CNT_W := by decide
  omega

/-- Exact feedbacks for the engine are exact feedbacks for every queue. -/
theorem queue_fair (h : Balance s) (he : FeedbackEnv s i) (k : mpq_idx_t) :
    (s.queue k).Fair (queue_events s.hw i k) where
  feedback := by
    intro n hn
    unfold queue_events at hn
    by_cases hf : fed i.toInput k = true
    · rw [if_pos hf, Option.some.injEq] at hn
      obtain ⟨hnew, hidx⟩ := fed_iff.mp hf
      have := (he.1 hnew).1
      rw [hidx, hn] at this
      exact this
    · rw [if_neg hf] at hn
      exact absurd hn (by simp)
  sent := by
    intro hs
    obtain ⟨hs, hidx⟩ := granted_iff.mp hs
    have := valid_of_task_sent h.arb hs
    rwa [hidx] at this
  bound := by
    intro hs
    rw [fed_isSome]
    exact bound_of_env (h.tally k) he hs
  room := fun _ _ => fifo_room h.fifo k

/-- The surroundings keep the protocol of every queue. -/
theorem queue_ok (h : Balance s) (he : Env s i) (k : mpq_idx_t) :
    (s.queue k).Ok (queue_events s.hw i k) where
  toFair := queue_fair h he.1 k
  her := by
    intro x hx
    unfold queue_events at hx
    by_cases hg : got_her s.hw i.toInput k = true
    · obtain ⟨hnew, hidx⟩ := got_her_iff.mp hg
      have := he.2 hnew
      rwa [hidx] at this
    · rw [if_neg hg] at hx
      exact absurd hx (by simp)

/-- The task on the wires after a grant is the next task of the granted queue. -/
theorem new_task_eq (h : Core s.hw) {k : mpq_idx_t} (hg : granted s.hw i.toInput k = true) :
    (⟨(s.hw.mpq_q k).state, new_task (MpqEngine.step s.hw i.toInput)⟩ : sent_t)
      = (s.queue k).next_task k := by
  have hv := valid_of_task_sent h.arb (granted_iff.mp hg).1
  rw [(granted_iff.mp hg).2] at hv
  obtain ⟨x, l, hl⟩ := List.exists_cons_of_ne_nil (h.packet k hv)
  have hx : (FifoEngine.fifo_elems s.hw.i_fifo_engine k).head? = some x := congrArg List.head? hl
  have hhead : (s.queue k).head = x := by
    show (FifoEngine.fifo_elems s.hw.i_fifo_engine k).head?.getD _ = x
    rw [hx, Option.getD_some]
  rw [h.new_task_eq hg hx, Queue.next_task, hhead]
  rfl

/-- The context of a queue, in the engine and alone. -/
theorem clock_meta (k : mpq_idx_t) : ((s.step i).queue k).mpq_meta
    = ((s.queue k).clock k (mpq_events s.hw i.toInput k) (queue_events s.hw i k)).mpq_meta := by
  show (TcSram.step s.hw.i_mpq_meta_mem (mpqmeta_input s.hw i.toInput)).sram k = _
  unfold Queue.clock queue_events
  by_cases hg : got_her s.hw i.toInput k = true
  · obtain ⟨hnew, hidx⟩ := got_her_iff.mp hg
    rw [if_pos hg]
    -- the context is written by the first HER of a message only
    by_cases hb : mpq_busy (s.hw.mpq_q k) = true
    · have hw : (mpqmeta_input s.hw i.toInput).wreq = false := by
        show (her_new s.hw i.toInput && !mpq_busy (s.hw.mpq_q (newher_mpq_idx i.toInput))) = false
        rw [hidx, hb, Bool.not_true, Bool.and_false]
      rw [TcSram.sram_step_of_ne (fun hc => absurd (hw.symm.trans hc) Bool.false_ne_true)]
      exact (if_pos hb).symm
    · have hw : (mpqmeta_input s.hw i.toInput).wreq = true := by
        show (her_new s.hw i.toInput && !mpq_busy (s.hw.mpq_q (newher_mpq_idx i.toInput))) = true
        rw [hidx, hnew, Bool.eq_false_iff.mpr hb]
        rfl
      have := TcSram.sram_step_self (s := s.hw.i_mpq_meta_mem) hw
      have haddr : (mpqmeta_input s.hw i.toInput).waddr = k := hidx
      rw [haddr] at this
      rw [this]
      exact (if_neg hb).symm
  · rw [if_neg hg]
    refine TcSram.sram_step_of_ne (fun hc hk => hg (got_her_iff.mpr ⟨?_, hk.symm⟩))
    exact (Bool.and_eq_true _ _ ▸ hc : _ ∧ _).1

/-- Likewise its log. -/
theorem clock_log (h : Core s.hw) (k : mpq_idx_t) : ((s.step i).queue k).log
    = ((s.queue k).clock k (mpq_events s.hw i.toInput k) (queue_events s.hw i k)).log := by
  show log_step s.hw i k (s.log k) = _
  unfold log_step Queue.clock queue_events
  by_cases hg : granted s.hw i.toInput k = true
  · rw [new_task_eq h hg]
    cases fed i.toInput k <;> cases got_her s.hw i.toInput k <;> rfl
  · simp only [hg]
    cases fed i.toInput k <;> cases got_her s.hw i.toInput k <;> rfl

/-- **Every queue on its own.** In a cycle of the engine each queue does what its own
events make it do, whatever the other queues do. -/
theorem queue_clock (h : Core s.hw) (k : mpq_idx_t) : (s.step i).queue k
    = (s.queue k).clock k (mpq_events s.hw i.toInput k) (queue_events s.hw i k) := by
  refine Queue.ext (mpq_d_eq s.hw i.toInput k) ?_ (clock_meta k) (clock_log h k)
  apply (h.elems_step k).trans
  unfold Queue.clock queue_events
  by_cases hg : got_her s.hw i.toInput k = true
  · rw [if_pos hg, if_pos hg]
    rfl
  · rw [if_neg hg, if_neg hg]
    rfl

/-- Under the protocol that is `Queue.cycle`. -/
theorem queue_step (h : Inv s) (he : Env s i) (k : mpq_idx_t) :
    (s.step i).queue k = (s.queue k).cycle k (queue_events s.hw i k) :=
  (queue_clock h.core k).trans
    ((h.queue k).clock_eq_cycle (queue_ok h.toBalance he k) (drives k))

/-! ## The invariants hold in every run -/

theorem fifo_init (pkts : TcSram.State ℕ mpq_pkt_t) (k : mpq_idx_t) :
    FifoEngine.fifo_elems (FifoEngine.reset fifo_params pkts) k = [] := by
  rw [(FifoEngine.inv_reset pkts).fifo_elems_eq, List.map_nil]

theorem balance_init {s : Sys} (h : init s) : Balance s := by
  obtain ⟨pkts, metas, rfl⟩ := h
  refine ⟨⟨_, FifoEngine.inv_reset pkts⟩, RrArbTree.held_reset, fun k => ?_, fun k => ?_⟩
  · exact
      { stage := rfl
        fifo := congrArg List.length (fifo_init pkts k)
        free_eom_seen := fun _ => rfl
        answered_lt := fun _ hn => absurd hn (Finset.notMem_empty _)
        in_flight := rfl
        length_lt := Nat.two_pow_pos _
        in_flight_lt := Nat.two_pow_pos _ }
  · exact fun n t hn => absurd hn.1 (Nat.not_lt_zero n)

/-- Every cycle keeps the counters right. -/
theorem balance_step (h : Balance s) (he : FeedbackEnv s i) : Balance (s.step i) := by
  obtain ⟨cs, hcs⟩ := h.fifo
  refine ⟨⟨_, hcs.step (h.core.fifo_ok hcs)⟩, ?_, fun k => ?_, fun k => ?_⟩
  · refine RrArbTree.held_step (by decide) h.arb ?_
    -- a queue that asks and is not granted goes on asking
    intro hg k hk hv
    have hs : (mpq_events s.hw i.toInput ⟨k, hk⟩).task_sent_i = false := by
      have hready : arb_ready s.hw i.toInput = false := hg
      simp only [mpq_events, task_sent, hready, Bool.false_and]
    have hcnt := (h.tally ⟨k, hk⟩).counted (queue_fair h he ⟨k, hk⟩) (drives ⟨k, hk⟩)
    have hv' : mpq_valid (s.hw.mpq_q ⟨k, hk⟩) = true := (mpq_valids_fin s.hw ⟨k, hk⟩) ▸ hv
    have hval := mpq_fsm_valid hcnt.asked hs hv'
    rw [← (h.tally ⟨k, hk⟩).clock_mpq (i := ⟨k, hk⟩) (e := queue_events s.hw i ⟨k, hk⟩),
      ← queue_clock h.core] at hval
    exact (mpq_valids_fin (s.step i).hw ⟨k, hk⟩).trans hval
  · rw [queue_clock h.core k]
    exact (h.tally k).clock (queue_fair h he k) (drives k)
  · rw [queue_clock h.core k]
    exact (h.tally k).parked_clock (queue_fair h he k) (drives k) (h.parked k)

theorem inv_init {s : Sys} (h : init s) : Inv s := by
  refine ⟨balance_init h, fun k => ?_⟩
  obtain ⟨pkts, metas, rfl⟩ := h
  exact
    { phase := ⟨rfl, rfl, Or.inl rfl⟩
      busy := fun hc => absurd rfl hc
      first := fun hc => absurd rfl hc
      completion := fun hc => absurd rfl hc
      eom_seen := rfl
      fifo := fifo_init pkts k
      sent := rfl
      answered_lt := fun _ hn => absurd hn (Finset.notMem_empty _)
      in_flight := rfl
      settled := fun _ hn => absurd hn (Nat.not_lt_zero _)
      past := fun _ hm => absurd hm List.not_mem_nil
      length_lt := Nat.two_pow_pos _
      in_flight_lt := Nat.two_pow_pos _ }

/-- Every cycle keeps the invariant of each queue: the engine does to it what its own clock does.
-/
theorem inv_step (h : Inv s) (he : Env s i) : Inv (s.step i) := by
  refine ⟨balance_step h.toBalance he.1, fun k => ?_⟩
  rw [queue_step h he k]
  exact (h.queue k).cycle (queue_ok h.toBalance he k)

theorem inv_reach (h : Sync.Reach init step Env s) : Inv s :=
  h.inv (fun _ => inv_init) (fun _ _ => inv_step)

/-! ## Custody in the engine -/

/-- How often packet `a` is held, in all queues. -/
def custody (s : Sys) (a : mem_addr_t) : ℕ := ∑ k, (s.queue k).custody a

/-- A packet is in use: it is in a FIFO, or a task that waits for its feedback carries it. -/
def in_use (s : Sys) (a : mem_addr_t) : Prop :=
  ∃ k, (∃ x ∈ (s.queue k).fifo, x.pkt_addr = a)
    ∨ ∃ n ∈ (s.log k).outstanding, ((s.log k).sent[n]?).any (·.task.pkt_addr == a) = true

instance (s : Sys) (a : mem_addr_t) : Decidable (in_use s a) :=
  inferInstanceAs (Decidable (∃ _, _ ∨ _))

/-- The feedback of the cycle triggers, for the packet at address `a`. -/
def triggers (i : Input) (a : mem_addr_t) : Bool :=
  feedback_new i && (i.feedback_i.trigger_feedback && i.feedback_i.pkt_addr == a)

/-- The feedback that returns a packet is the one with a trigger. -/
theorem gives_eq (he : FeedbackEnv s i) (k : mpq_idx_t) (a : mem_addr_t) :
    (queue_events s.hw i k).gives (s.queue k) a
      = (triggers i.toInput a && feedback_mpq_idx i.toInput == k) := by
  unfold Queue.Events.gives queue_events triggers
  by_cases hf : fed i.toInput k = true
  · obtain ⟨hnew, hidx⟩ := fed_iff.mp hf
    have hans := (he.1 hnew).2
    rw [hidx] at hans
    obtain ⟨t, ht, hfb⟩ := Option.map_eq_some_iff.mp hans
    have ht' : (s.queue k).log.sent[i.fb_task]? = some t := ht
    rw [if_pos hf, Option.any_some, ht', Option.any_some, hnew, ← hfb, hidx, BEq.rfl, Bool.and_true]
    rfl
  · rw [if_neg hf]
    rw [fed, Bool.and_eq_true, not_and] at hf
    cases hnew : feedback_new i.toInput
    · rfl
    · rw [Bool.eq_false_iff.mpr (hf hnew), Bool.and_false]
      rfl

theorem brings_eq (k : mpq_idx_t) (a : mem_addr_t) : (queue_events s.hw i k).brings a
    = ((her_new s.hw i.toInput && i.her_i.her_addr == a) && newher_mpq_idx i.toInput == k) := by
  unfold Queue.Events.brings queue_events got_her
  cases her_new s.hw i.toInput
  · rfl
  · cases newher_mpq_idx i.toInput == k
    · exact (Bool.and_false _).symm
    · exact (Bool.and_true _).symm

/-- One queue at most sees the event. -/
theorem sum_event (b : Bool) (j : mpq_idx_t) :
    (∑ k, if b && j == k then 1 else 0) = if b then 1 else 0 := by
  cases b
  · simp
  · simp

/-- **Custody is conserved in the engine.** -/
theorem custody_step (h : Balance s) (he : FeedbackEnv s i) (a : mem_addr_t) :
    custody (s.step i) a + (if triggers i.toInput a then 1 else 0)
      = custody s a + if her_new s.hw i.toInput && i.her_i.her_addr == a then 1 else 0 := by
  have hsum : ∀ k, ((s.step i).queue k).custody a
        + (if triggers i.toInput a && feedback_mpq_idx i.toInput == k then 1 else 0)
      = (s.queue k).custody a + if (her_new s.hw i.toInput && i.her_i.her_addr == a)
          && newher_mpq_idx i.toInput == k then 1 else 0 := by
    intro k
    rw [queue_clock h.core k, ← gives_eq he k, ← brings_eq k]
    exact (h.tally k).custody_clock (queue_fair h he k) a
  have htotal := Finset.sum_congr rfl fun k (_ : k ∈ Finset.univ) => hsum k
  rw [Finset.sum_add_distrib, Finset.sum_add_distrib, sum_event, sum_event] at htotal
  exact htotal

/-- A feedback is for a packet in custody. -/
theorem custody_pos (he : FeedbackEnv s i) {a : mem_addr_t} (ht : triggers i.toInput a = true) :
    0 < custody s a := by
  have hgives := gives_eq he (feedback_mpq_idx i.toInput) a
  rw [ht, BEq.rfl, Bool.and_true] at hgives
  obtain ⟨n, hn, ht'⟩ := (Option.any_eq_true _ _).mp hgives
  obtain ⟨t, hsent, hback⟩ := (Option.any_eq_true _ _).mp ht'
  have hnew : feedback_new i.toInput = true := by
    rw [triggers, Bool.and_eq_true] at ht
    exact ht.1
  have hout := (he.1 hnew).1
  have hidx : n = i.fb_task := by
    unfold queue_events at hn
    rw [if_pos (fed_iff.mpr ⟨hnew, rfl⟩)] at hn
    exact (Option.some.inj hn).symm
  -- the task that answers is one that waits and holds the packet
  have hmem : n ∈ ((s.queue (feedback_mpq_idx i.toInput)).log).waiting (Queue.gives_back a) :=
    Log.mem_waiting.mpr ⟨hidx ▸ hout.2, t, hsent, hback⟩
  have hpos : 0 < (s.queue (feedback_mpq_idx i.toInput)).custody a :=
    Nat.add_pos_right _ (Finset.card_pos.mpr ⟨n, hmem⟩)
  exact lt_of_lt_of_le hpos
    (Finset.single_le_sum (f := fun k => (s.queue k).custody a) (fun _ _ => Nat.zero_le _)
      (Finset.mem_univ _))

/-- A packet that no queue holds is in no slot. -/
theorem not_in_use (h : Balance s) {a : mem_addr_t} (h0 : custody s a = 0) : ¬ in_use s a := by
  rintro ⟨k, hk⟩
  have hz : (s.queue k).custody a = 0 := by
    have hle := Finset.single_le_sum (f := fun k => (s.queue k).custody a)
      (fun _ _ => Nat.zero_le _) (Finset.mem_univ k)
    exact Nat.le_zero.mp (h0 ▸ hle)
  obtain ⟨hfifo, htask⟩ := (h.parked k).not_used hz
  rcases hk with ⟨x, hx, hxa⟩ | ⟨n, hn, ht⟩
  · exact hfifo x hx hxa
  · obtain ⟨t, ht, hta⟩ := (Option.any_eq_true _ _).mp ht
    rw [Log.outstanding, Finset.mem_sdiff, Finset.mem_range] at hn
    exact htask n t hn ht (beq_iff_eq.mp hta)

end Sys

end Pspin.MpqEngine
