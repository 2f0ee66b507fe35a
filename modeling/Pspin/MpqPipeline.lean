/-
The output pipeline of `mpq_engine`, from the grants of the arbiter to the handshakes.

The task of a grant is put together one cycle later, from the packet the FIFO engine
shows, the word the metadata memory shows and two registers; by then the cell of the
packet may be in use again and the metadata of other queues rewritten. `Pipeline` records
at each grant what the task is to be made of, and the tasks that are handed over.

The messages of a queue come one at a time; nothing else is asked of the surroundings.
Feedbacks may come at any time, also where nothing is in flight. So the invariant of a
queue says where its packets are (`Carried`) and leaves the counter of the tasks in flight
alone.
-/
import Pspin.MpqContract

set_option autoImplicit false

namespace Pspin

open Message

/-! ## One queue -/

/-- What a state says about the packets of the current message. -/
def Load (q : mpq_t) (cur : List her_descr_t) : Prop :=
  match q.state with
  | .Free => q.length = 0 ∧ (cur = [] ∨ closed cur = true)
  | .Header => 0 < q.length
  | .HeaderRunning | .Payload => True
  | .PayloadDraining | .CompletionRunning => q.length = 0 ∧ closed cur = true
  | .Completion => q.length = 0 ∧ closed cur = true ∧ q.has_completion = true

namespace Queue

/-- The FIFO of a queue holds packets of its current message only, and the metadata word is
that of the message's first HER. -/
structure Carried (q : Queue) : Prop where
  load : Load q.mpq q.log.cur
  first : q.mpq.state ≠ .Free → q.log.cur.head?.map (·.mpq_meta) = some q.mpq_meta
  eom_seen : q.mpq.eom_seen = (q.mpq.state != .Free && closed q.log.cur)
  held : q.fifo.length = held q.mpq
  own : ∀ x ∈ q.fifo, x ∈ q.log.cur.map pkt_of

namespace Carried

variable {i : Fin NUM_MPQ} {q : Queue} {e : Events} {m : mpq_event_t}

/-- A free queue has forgotten the message before. -/
theorem free_eom_seen (h : Carried q) (hq : q.mpq.state = .Free) : q.mpq.eom_seen = false := by
  rw [h.eom_seen, hq]
  rfl

/-- The FIFO holds every packet that is counted. -/
theorem length_le (h : Carried q) : q.mpq.length ≤ q.fifo.length := by
  rw [h.held, Queue.held]
  exact Nat.le_add_right _ _

/-- A queue that may be granted has a packet. -/
theorem fifo_ne_nil (h : Carried q) (hv : mpq_valid q.mpq = true) : q.fifo ≠ [] := by
  have hload := h.load
  rw [← List.length_pos_iff, h.held, Queue.held]
  rcases mpq_valid_iff.mp hv with hq | ⟨-, hpos⟩ | hq
  · simp only [Load, hq] at hload
    omega
  · omega
  · simp only [Load, hq] at hload
    simp [hq, hload.2.2]

/-- A message that may go on is in one of three states. -/
theorem open_state (h : Carried q) (hq : q.mpq.state ≠ .Free) (ho : closed q.log.cur = false) :
    q.mpq.state = .Header ∨ q.mpq.state = .HeaderRunning ∨ q.mpq.state = .Payload := by
  have hload := h.load
  cases hs : q.mpq.state with
  | Free => exact absurd hs hq
  | Header => exact Or.inl rfl
  | HeaderRunning => exact Or.inr (Or.inl rfl)
  | Payload => exact Or.inr (Or.inr rfl)
  | PayloadDraining | Completion | CompletionRunning =>
    simp [Load, hs, ho] at hload

/-- Where a HER goes: it is the first of a free queue, or continues an open message. -/
theorem accepts_cases (h : Carried q) (ha : q.Accepts) (x : her_descr_t) :
    (q.mpq.state = .Free ∧ (q.log.her x).cur = [x])
      ∨ (q.mpq.state ≠ .Free ∧ q.log.cur ≠ [] ∧ closed q.log.cur = false
        ∧ (q.log.her x).cur = q.log.cur ++ [x]) := by
  unfold Log.her
  by_cases hq : q.mpq.state = .Free
  · refine Or.inl ⟨hq, ?_⟩
    have hload := h.load
    simp only [Load, hq] at hload
    rcases hload.2 with hnil | hcl
    · split_ifs
      · rfl
      · simp [hnil]
    · rw [if_pos hcl]
  · obtain ⟨hne, ho⟩ := ha.resolve_left hq
    refine Or.inr ⟨hq, hne, ho, ?_⟩
    simp [ho]

/-- What the surroundings of a queue keep: a grant is asked for, a HER is of the current
message, and there is room for it. -/
structure Served (q : Queue) (e : Events) : Prop where
  sent : e.sent = true → mpq_valid q.mpq = true
  her : ∀ x, e.her = some x → q.Accepts
  room : q.fifo.length + 1 < 2 ^ MPQ_CNT_W

/-- What happens to the queue is what its FSM is told. -/
theorem asked (h : Carried q) (ok : Served q e) (hm : e.Drives m) : m.Asked q.mpq where
  sent := fun hs => ok.sent (hm.sent ▸ hs)
  room := by
    intro _
    have := h.length_le
    have := ok.room
    omega
  length_lt := by
    have := h.length_le
    have := ok.room
    omega

theorem clock_mpq (h : Carried q) : (q.clock i m e).mpq = mpq_fsm m q.mpq := by
  by_cases hu : m.update_o = true
  · exact if_pos hu
  · have hidle := hu
    simp only [mpq_event_t.update_o, Bool.or_eq_true, not_or, Bool.not_eq_true] at hidle
    rw [mpq_fsm_idle h.free_eom_seen hidle.1.1 hidle.1.2 hidle.2]
    exact if_neg hu

/-- The current message after a cycle. -/
theorem clock_cur : (q.clock i m e).log.cur
    = match e.her with
      | some x => (q.log.her x).cur
      | none => q.log.cur := by
  unfold Queue.clock Log.her Log.send Log.answer
  cases e.her <;> cases e.feedback <;> cases e.sent <;> simp <;> split_ifs <;> rfl

/-- Without a HER a free queue stays free. -/
theorem busy_of_next (hm : e.Drives m) (hn : e.her = none)
    (hq : (mpq_fsm m q.mpq).state ≠ .Free) : q.mpq.state ≠ .Free := by
  intro hf
  apply hq
  have hher : m.her_new_i = false := by
    rw [hm.her, hn]
    rfl
  simp [mpq_fsm, hf, hher]

theorem not_sent_of_free (h : Carried q) (ok : Served q e) (hm : e.Drives m)
    (hq : q.mpq.state = .Free) : m.task_sent_i = false := by
  rw [Bool.eq_false_iff]
  intro hc
  exact busy_of_valid ((h.asked ok hm).sent hc) hq

/-- Where a HER takes the FSM: into the message, or on in it. -/
theorem load_her (h : Carried q) (ok : Served q e) (hm : e.Drives m) {x : her_descr_t}
    (hx : e.her = some x) : Load (mpq_fsm m q.mpq) (q.log.her x).cur := by
  have hload := h.load
  have hlen := mpq_fsm_length (h.asked ok hm)
  have hst : (mpq_fsm m q.mpq).state = mpq_fsm.state m q.mpq := rfl
  have hher : m.her_new_i = true := by
    rw [hm.her, hx]
    rfl
  rcases h.accepts_cases (ok.her x hx) x with ⟨hq, hcur⟩ | ⟨hq, hne, ho, hcur⟩
  · -- the first HER of a message
    have hns := h.not_sent_of_free ok hm hq
    simp only [hq, hns, hher, Load] at hlen hload
    cases hh : m.her_new_has_hh_i <;> simp [Load, hst, hq, hher, hh] at hlen ⊢
    omega
  · rcases h.open_state hq ho with hq | hq | hq
    · cases hs : m.task_sent_i <;> simp [Load, hst, hq, hs, hher] at hlen ⊢
      omega
    · cases hf : m.feedback_i <;> simp [Load, hst, hq, hf]
    · -- the EOM has not been seen, so that the queue does not drain
      have hopen : q.mpq.eom_seen = false := by rw [h.eom_seen, ho, Bool.and_false]
      simp [Load, hst, hq, hopen]

/-- Where the FSM goes without a HER, state by state. -/
theorem load_no_her (h : Carried q) (ok : Served q e) (hm : e.Drives m) (hx : e.her = none) :
    Load (mpq_fsm m q.mpq) q.log.cur := by
  have hload := h.load
  have heom := h.eom_seen
  have hlen := mpq_fsm_length (h.asked ok hm)
  have hst : (mpq_fsm m q.mpq).state = mpq_fsm.state m q.mpq := rfl
  have hhc : (mpq_fsm m q.mpq).has_completion = mpq_fsm.has_completion m q.mpq := rfl
  have hher : m.her_new_i = false := by
    rw [hm.her, hx]
    rfl
  cases hq : q.mpq.state with
  | Free =>
    have hns := h.not_sent_of_free ok hm hq
    simp only [Load, hq, hns, hher] at hlen hload
    simp [Load, hst, hq, hher] at hlen ⊢
    exact ⟨by omega, hload.2⟩
  | Header =>
    simp only [Load, hq] at hload
    cases hs : m.task_sent_i <;> simp [Load, hst, hq, hs, hher] at hlen ⊢
    omega
  | HeaderRunning => cases hf : m.feedback_i <;> simp [Load, hst, hq, hf]
  | Payload =>
    by_cases hlast : m.task_sent_i = true ∧ q.mpq.eom_seen = true ∧ q.mpq.length = 1
    · -- the last packet of the message is sent
      obtain ⟨hs, hseen, hone⟩ := hlast
      rw [hseen, hq] at heom
      simp [Load, hst, hq, hs, hseen, hone, hher] at hlen heom ⊢
      exact ⟨hlen, heom⟩
    · have hstay : (m.task_sent_i && q.mpq.eom_seen && q.mpq.length == 1) = false := by
        rw [Bool.eq_false_iff]
        simpa [and_assoc] using hlast
      simp [Load, hst, hq, hstay]
  | PayloadDraining =>
    simp only [Load, hq] at hload
    simp [hq, hher] at hlen
    cases hc : q.mpq.has_completion <;> by_cases hl : m.feedback_i = true ∧ q.mpq.in_flight = 1 <;>
      simp [Load, hst, hhc, hq, hc, hl, hload, hlen]
  | Completion =>
    simp only [Load, hq] at hload
    simp [hq, hher] at hlen
    cases hs : m.task_sent_i <;> simp [Load, hst, hhc, hq, hs, hload, hlen]
  | CompletionRunning =>
    simp only [Load, hq] at hload
    simp [hq, hher] at hlen
    cases hf : m.feedback_i <;> simp [Load, hst, hq, hf, hload, hlen]

/-- What the queue carries stays what its message brought. -/
theorem load_clock (h : Carried q) (ok : Served q e) (hm : e.Drives m) :
    Load (mpq_fsm m q.mpq) (q.clock i m e).log.cur := by
  rw [clock_cur]
  cases hx : e.her with
  | some x => exact h.load_her ok hm hx
  | none => exact h.load_no_her ok hm hx

theorem first_clock (h : Carried q) (ok : Served q e) (hm : e.Drives m)
    (hq : (mpq_fsm m q.mpq).state ≠ .Free) :
    (q.clock i m e).log.cur.head?.map (·.mpq_meta) = some (q.clock i m e).mpq_meta := by
  rw [clock_cur]
  unfold Queue.clock
  cases hx : e.her with
  | some x =>
    rcases h.accepts_cases (ok.her x hx) x with ⟨hf, hcur⟩ | ⟨hf, hne, -, hcur⟩
    · simp [hcur, mpq_busy, hf]
    · have hfirst := h.first hf
      simp only [hcur, List.head?_append_of_ne_nil _ hne, hfirst, mpq_busy, bne_iff_ne.mpr hf, if_true]
  | none => exact h.first (busy_of_next hm hx hq)

theorem eom_seen_clock (h : Carried q) (ok : Served q e) (hm : e.Drives m) :
    (mpq_fsm m q.mpq).eom_seen
      = ((mpq_fsm m q.mpq).state != .Free && closed (q.clock i m e).log.cur) := by
  rw [clock_cur]
  cases hx : e.her with
  | none =>
    have hher : m.her_new_i = false := by
      rw [hm.her, hx]
      rfl
    rw [mpq_fsm_eom_seen hher, h.eom_seen]
    -- entering `Free` clears the flag
    by_cases hq : (mpq_fsm m q.mpq).state = .Free
    · rw [hq]
      rfl
    · rw [bne_iff_ne.mpr (busy_of_next hm hx hq), Bool.true_and]
  | some x =>
    have hher : m.her_new_i = true := by
      rw [hm.her, hx]
      rfl
    have hx_eom : m.her_new_is_eom_i = x.eom := congrArg (·.her_new_is_eom_i) (hm.flags x hx)
    by_cases hq : (mpq_fsm m q.mpq).state = .Free
    · have hz : (mpq_fsm m q.mpq).eom_seen = mpq_fsm.eom_seen m q.mpq := rfl
      have hs : mpq_fsm.state m q.mpq = .Free := hq
      rw [hz, mpq_fsm.eom_seen, hs, hq]
      rfl
    · rw [mpq_fsm_eom_seen_busy hq, hher, hx_eom, bne_iff_ne.mpr hq, Bool.true_and, Bool.true_and,
        h.eom_seen]
      rcases h.accepts_cases (ok.her x hx) x with ⟨hf, hcur⟩ | ⟨-, -, ho, hcur⟩
      · simp [hcur, hf, closed]
      · simp [hcur, ho, closed_concat]

/-- A packet leaves with its last carrier, and one comes with a HER. -/
theorem held_clock (h : Carried q) (ok : Served q e) (hm : e.Drives m) :
    (q.clock i m e).fifo.length = Queue.held (mpq_fsm m q.mpq) := by
  have hcompl : q.mpq.state = .Completion → q.mpq.has_completion = true := by
    intro hq
    have hload := h.load
    simp only [Load, hq] at hload
    exact hload.2.2
  have hheld := mpq_fsm_held (h.asked ok hm) hcompl
  rw [hm.sent, hm.her, ← h.held] at hheld
  have hfifo := length_clock_fifo (i := i) (m := m) fun hs => h.fifo_ne_nil (ok.sent hs)
  omega

/-- Only the message that fills the FIFO has packets in it. -/
theorem own_clock (h : Carried q) (ok : Served q e) :
    ∀ x ∈ (q.clock i m e).fifo, x ∈ (q.clock i m e).log.cur.map pkt_of := by
  intro y hy
  have hkept : y ∈ (if e.sent && last_carrier q.mpq then q.fifo.tail else q.fifo) → y ∈ q.fifo := by
    split_ifs
    · exact List.mem_of_mem_tail
    · exact id
  rw [clock_cur]
  unfold Queue.clock at hy
  cases hx : e.her with
  | none =>
    rw [hx] at hy
    apply h.own
    apply hkept
    simpa using hy
  | some x =>
    rw [hx] at hy
    rcases List.mem_append.mp hy with hold | hnew
    · have hold := hkept hold
      rcases h.accepts_cases (ok.her x hx) x with ⟨hf, -⟩ | ⟨-, -, -, hcur⟩
      · -- a free queue has no packet
        have hnil : q.fifo.length = 0 := by
          have hload := h.load
          simp only [Load, hf] at hload
          simp [h.held, Queue.held, hf, hload.1]
        rw [List.length_eq_zero_iff.mp hnil] at hold
        exact absurd hold List.not_mem_nil
      · simp only [hcur, List.map_append]
        exact List.mem_append_left _ (h.own y hold)
    · have hy : y = pkt_of x := by simpa using hnew
      rcases h.accepts_cases (ok.her x hx) x with ⟨-, hcur⟩ | ⟨-, -, -, hcur⟩ <;> simp [hcur, hy]

/-- **A cycle of a queue**, with any feedback. -/
theorem clock (h : Carried q) (ok : Served q e) (hm : e.Drives m) : Carried (q.clock i m e) where
  load := by
    rw [h.clock_mpq]
    exact h.load_clock ok hm
  first := by
    rw [h.clock_mpq]
    exact h.first_clock ok hm
  eom_seen := by
    rw [h.clock_mpq]
    exact h.eom_seen_clock ok hm
  held := by
    rw [h.clock_mpq]
    exact h.held_clock ok hm
  own := h.own_clock ok

end Carried

end Queue

/-! ## The engine -/

namespace MpqEngine

/-- A grant: the queue, its state, its message so far, the packet at the front of its FIFO,
and whether this packet is popped. -/
structure grant_t where
  mpq : mpq_idx_t
  state : mpq_state_t
  msg : List her_descr_t
  pkt : Option mpq_pkt_t
  pop : Bool

/-- The task a grant stands for: the handler for the state and the metadata of the message,
on the packet. -/
def grant_t.task (g : grant_t) : Option handler_task_t :=
  match g.msg.head?, g.pkt with
  | some h, some x =>
    some (handler_task g.mpq h.mpq_meta x.pkt_addr x.pkt_size g.state g.pop)
  | _, _ => none

/-- The grant is of one message: its packet is that of one of the HERs. -/
def grant_t.Whole (g : grant_t) : Prop :=
  (g.state = .Header ∨ g.state = .Payload ∨ g.state = .Completion)
    ∧ ∃ h ∈ g.msg, g.pkt = some (pkt_of h)

/-- The task on the output. -/
def out (s : State) : List handler_task_t := if task_valid_o s then [task_o s] else []

/-- The engine with all grants and all handshakes at the output. -/
structure Pipeline where
  sys : Sys
  grants : List grant_t
  handshakes : List handler_task_t

namespace Pipeline

/-- A grant with what the queue held at the time: its phase, its message, its packet and its
context. -/
def grant_of (s : Sys) (i : Input) : grant_t where
  mpq := tasksent_mpq_idx s.hw
  state := (s.hw.mpq_q (tasksent_mpq_idx s.hw)).state
  msg := (s.log (tasksent_mpq_idx s.hw)).cur
  pkt := (FifoEngine.fifo_elems s.hw.i_fifo_engine (tasksent_mpq_idx s.hw)).head?
  pop := fifo_pop s.hw i

/-- At first nothing was granted. -/
def init (s : Pipeline) : Prop := ∃ sys, sys.init ∧ s = ⟨sys, [], []⟩

/-- A clock edge, which also writes the log. -/
def step (s : Pipeline) (i : SysInput) : Pipeline where
  sys := s.sys.step i
  grants := s.grants ++ if task_sent s.sys.hw i.toInput then [grant_of s.sys i.toInput] else []
  handshakes := s.handshakes
    ++ if task_valid_o s.sys.hw && i.task_ready_i then [task_o s.sys.hw] else []

/-- One message for each queue at a time. Stalls, HERs to other queues and feedbacks come
as they like. -/
def env (s : Pipeline) (i : SysInput) : Prop := s.sys.MessageEnv i

instance (s : Pipeline) (i : SysInput) : Decidable (env s i) :=
  inferInstanceAs (Decidable (s.sys.MessageEnv i))

/-- The tasks granted are those handed over and the one on the output. -/
def Flow (s : Pipeline) : Prop :=
  s.grants.map grant_t.task = (s.handshakes ++ out s.sys.hw).map some

/-- What was granted is what left, and what is at the output; and every grant made sense. -/
structure Inv (s : Pipeline) : Prop where
  fifo : ∃ cs, FifoEngine.Inv s.sys.hw.i_fifo_engine cs
  arb : RrArbTree.Held NUM_MPQ s.sys.hw.i_mpq_rr_arb (mpq_valids s.sys.hw)
  carried : ∀ k, (s.sys.queue k).Carried
  flow : Flow s
  whole : ∀ g ∈ s.grants, g.Whole

variable {s : Pipeline} {i : SysInput}

/-- That is enough for the FIFOs and the arbiter. -/
theorem Inv.core (h : Inv s) : Core s.sys.hw :=
  ⟨h.fifo, h.arb, fun k hv => (h.carried k).fifo_ne_nil hv⟩

/-- The surroundings of the engine are those of every queue. -/
theorem Inv.served (h : Inv s) (he : env s i) (k : mpq_idx_t) :
    Queue.Carried.Served (s.sys.queue k) (queue_events s.sys.hw i k) where
  sent := by
    intro hs
    obtain ⟨hs, hidx⟩ := granted_iff.mp hs
    have hv := valid_of_task_sent h.arb hs
    rwa [hidx] at hv
  her := by
    intro x hx
    unfold queue_events at hx
    by_cases hg : got_her s.sys.hw i.toInput k = true
    · obtain ⟨hnew, hidx⟩ := got_her_iff.mp hg
      have ha := he hnew
      rwa [hidx] at ha
    · rw [if_neg hg] at hx
      exact absurd hx (by simp)
  room := Sys.fifo_room h.fifo k

/-- Every queue carries its message on. -/
theorem Inv.carried_step (h : Inv s) (he : env s i) (k : mpq_idx_t) :
    ((s.sys.step i).queue k).Carried := by
  rw [Sys.queue_clock h.core k]
  exact (h.carried k).clock (h.served he k) (Sys.drives k)

/-- A queue that asks and is not granted goes on asking. -/
theorem Inv.arb_step (h : Inv s) (he : env s i) :
    RrArbTree.Held NUM_MPQ (s.sys.step i).hw.i_mpq_rr_arb (mpq_valids (s.sys.step i).hw) := by
  apply RrArbTree.held_step (by decide) h.arb
  intro hg k hk hv
  have hns : (mpq_events s.sys.hw i.toInput ⟨k, hk⟩).task_sent_i = false := by
    have hready : arb_ready s.sys.hw i.toInput = false := hg
    simp only [mpq_events, task_sent, hready, Bool.false_and]
  have hv' : mpq_valid (s.sys.hw.mpq_q ⟨k, hk⟩) = true := (mpq_valids_fin s.sys.hw ⟨k, hk⟩) ▸ hv
  have hasked := (h.carried ⟨k, hk⟩).asked (h.served he ⟨k, hk⟩) (Sys.drives ⟨k, hk⟩)
  have hval := mpq_fsm_valid hasked hns hv'
  have hmpq : (s.sys.step i).hw.mpq_q ⟨k, hk⟩
      = mpq_fsm (mpq_events s.sys.hw i.toInput ⟨k, hk⟩) (s.sys.hw.mpq_q ⟨k, hk⟩) := by
    have hclock := congrArg (·.mpq) (Sys.queue_clock (s := s.sys) (i := i) h.core ⟨k, hk⟩)
    exact hclock.trans (h.carried ⟨k, hk⟩).clock_mpq
  rw [mpq_valids_fin (s.sys.step i).hw ⟨k, hk⟩, hmpq]
  exact hval

/-- The registers between grant and handshake: what was on the output and is not taken
stays, and a grant puts its task there. -/
theorem out_step (s : State) (i : Input) :
    (if i.task_ready_i then out s else []) ++ out (MpqEngine.step s i)
      = out s ++ if task_sent s i then [new_task (MpqEngine.step s i)] else [] := by
  have hstate : (MpqEngine.step s i).state_q = state_d s i := rfl
  have htask : (MpqEngine.step s i).task_q = task_o s := rfl
  cases hst : s.state_q with
  | Idle =>
    cases ha : arb_valid s <;>
      simp [out, task_valid_o, task_o, task_sent, arb_ready, hstate, state_d, hst, ha]
  | Ready | Stalled =>
    cases hr : i.task_ready_i with
    | true =>
      cases ha : arb_valid s <;>
        simp [out, task_valid_o, task_o, task_sent, arb_ready, hstate, state_d, hst, ha, hr]
    | false =>
      -- the register holds the task for as long as it is not taken
      simp [out, task_valid_o, task_o, task_sent, arb_ready, hstate, state_d, hst, hr, htask]

/-- What the wires show one cycle after a grant is what the grant stands for. -/
theorem Inv.grant_task (h : Inv s) (hs : task_sent s.sys.hw i.toInput = true) :
    (grant_of s.sys i.toInput).task = some (new_task (MpqEngine.step s.sys.hw i.toInput))
      ∧ (grant_of s.sys i.toInput).Whole := by
  have hv := valid_of_task_sent h.arb hs
  have hc := h.carried (tasksent_mpq_idx s.sys.hw)
  have hpop : fifo_pop s.sys.hw i.toInput
      = last_carrier (s.sys.hw.mpq_q (tasksent_mpq_idx s.sys.hw)) := by
    rw [fifo_pop_eq h.arb, hs, Bool.true_and]
  -- a queue that asks holds a packet: the task is for the first one
  obtain ⟨x, l, hl⟩ := List.exists_cons_of_ne_nil (h.core.packet _ hv)
  have hx : (FifoEngine.fifo_elems s.sys.hw.i_fifo_engine (tasksent_mpq_idx s.sys.hw)).head?
      = some x := congrArg List.head? hl
  have hfirst := hc.first (Queue.busy_of_valid hv)
  obtain ⟨first, hhead, hmeta⟩ := Option.map_eq_some_iff.mp hfirst
  constructor
  · have hmsg : (grant_of s.sys i.toInput).msg.head? = some first := hhead
    have hpkt : (grant_of s.sys i.toInput).pkt = some x := hx
    rw [grant_t.task, hmsg, hpkt, h.core.new_task_eq (granted_iff.mpr ⟨hs, rfl⟩) hx]
    show some (handler_task _ first.mpq_meta _ _ _ (fifo_pop s.sys.hw i.toInput)) = _
    rw [hpop, hmeta]
    rfl
  · refine ⟨?_, ?_⟩
    · rcases mpq_valid_iff.mp hv with hq | ⟨hq, -⟩ | hq
      · exact Or.inl hq
      · exact Or.inr (Or.inl hq)
      · exact Or.inr (Or.inr hq)
    · have hmem : x ∈ (s.sys.queue (tasksent_mpq_idx s.sys.hw)).fifo := by
        show x ∈ FifoEngine.fifo_elems s.sys.hw.i_fifo_engine (tasksent_mpq_idx s.sys.hw)
        rw [hl]
        exact List.mem_cons_self
      obtain ⟨y, hy, rfl⟩ := List.mem_map.mp (hc.own x hmem)
      exact ⟨y, hy, hx⟩

theorem Inv.flow_step (h : Inv s) : Flow (s.step i) := by
  have hout := out_step s.sys.hw i.toInput
  have hhand : (s.step i).handshakes
      -- a task leaves when it is taken
      = s.handshakes ++ if i.task_ready_i then out s.sys.hw else [] := by
    show s.handshakes ++ _ = _
    unfold out
    cases task_valid_o s.sys.hw <;> cases i.task_ready_i <;> rfl
  have hflow : s.grants.map grant_t.task = (s.handshakes ++ out s.sys.hw).map some := h.flow
  unfold Flow
  -- grants, and the one of this cycle
  calc (s.step i).grants.map grant_t.task
      = s.grants.map grant_t.task
        ++ (if task_sent s.sys.hw i.toInput then [grant_of s.sys i.toInput] else []).map
            grant_t.task := List.map_append
    _ = (s.handshakes ++ out s.sys.hw).map some
        ++ (if task_sent s.sys.hw i.toInput
            then [new_task (MpqEngine.step s.sys.hw i.toInput)] else []).map some := by
        rw [hflow]
        congr 1
        split_ifs with hs
        · simp [(h.grant_task hs).1]
        · rfl
    -- and the task that is granted is the one in the output after it
    _ = (s.handshakes ++ ((if i.task_ready_i then out s.sys.hw else [])
          ++ out (MpqEngine.step s.sys.hw i.toInput))).map some := by
        rw [hout, ← List.map_append, List.append_assoc]
    _ = ((s.step i).handshakes ++ out (s.step i).sys.hw).map some := by
        rw [hhand, ← List.append_assoc]
        rfl

theorem Inv.step (h : Inv s) (he : env s i) : Inv (s.step i) where
  fifo := by
    obtain ⟨cs, hcs⟩ := h.fifo
    exact ⟨_, hcs.step (h.core.fifo_ok hcs)⟩
  arb := h.arb_step he
  carried := h.carried_step he
  flow := h.flow_step
  whole := by
    intro g hg
    rcases List.mem_append.mp hg with hg | hg
    · exact h.whole g hg
    · obtain ⟨hs, hg⟩ := List.mem_ite_nil_right.mp hg
      rw [List.mem_singleton.mp hg]
      exact (h.grant_task hs).2

theorem inv_init (h : init s) : Inv s := by
  obtain ⟨sys, ⟨pkts, metas, rfl⟩, rfl⟩ := h
  refine ⟨⟨_, FifoEngine.inv_reset pkts⟩, RrArbTree.held_reset, fun k => ?_, rfl,
    fun g hg => absurd hg List.not_mem_nil⟩
  have hnil := Sys.fifo_init pkts k
  exact
    { load := ⟨rfl, Or.inl rfl⟩
      first := fun hc => absurd rfl hc
      eom_seen := rfl
      held := congrArg List.length hnil
      own := fun x hx => absurd (hnil ▸ hx : x ∈ []) List.not_mem_nil }

end Pipeline

/-- **The task pipeline.** In every run, with any stalls, the tasks of the grants, in their
order, are those handed over and then the one on the output; each is made of one message. -/
theorem task_pipeline {s : Pipeline}
    (h : Sync.Reach Pipeline.init Pipeline.step Pipeline.env s) :
    s.grants.map grant_t.task = (s.handshakes ++ out s.sys.hw).map some
      ∧ ∀ g ∈ s.grants, g.Whole := by
  have hinv := h.inv (P := Pipeline.Inv) (fun _ => Pipeline.inv_init) fun _ _ hi he => hi.step he
  exact ⟨hinv.flow, hinv.whole⟩

/-- The run of one message, with a scheduler that is not ready for two of the cycles. -/
def stalled_cycles : List SysInput :=
  [her_cycle demo_her, idle_cycle, { idle_cycle with task_ready_i := false },
    { idle_cycle with task_ready_i := false }, feedback_cycle ⟨0x1000, 64, 3, false⟩ 0, idle_cycle]

theorem task_pipeline_demo :
    (Sync.run Pipeline.step ⟨demo_start, [], []⟩ stalled_cycles).grants.map grant_t.task
        = ((Sync.run Pipeline.step ⟨demo_start, [], []⟩ stalled_cycles).handshakes
          ++ out (Sync.run Pipeline.step ⟨demo_start, [], []⟩ stalled_cycles).sys.hw).map some
      ∧ (Sync.run Pipeline.step ⟨demo_start, [], []⟩ stalled_cycles).handshakes.length = 1 := by
  have hinit : Pipeline.init ⟨demo_start, [], []⟩ := ⟨_, ⟨_, _, rfl⟩, rfl⟩
  have hreach : Sync.Reach Pipeline.init Pipeline.step Pipeline.env
      (Sync.run Pipeline.step ⟨demo_start, [], []⟩ stalled_cycles) :=
    .run (.reset hinit) (by decide +kernel)
  exact ⟨(task_pipeline hreach).1, by decide +kernel⟩

end MpqEngine

end Pspin
