/-
One message queue: its `mpq_t` record, its packet FIFO and its metadata word, run
beside a log of the messages it got and the tasks it sent.

The log is a ghost. It splits the HERs into messages at the EOM flags, and records
for every grant what was sent and for every feedback which task it answers. `Inv`
relates the two sides. The heart of it is `sent`: what the queue has sent is all
tasks of the earlier messages and then the part of the current message's plan that
the state and the length name (`served`). The EOM packet is in the FIFO but not in
the length while a completion is owed (`held`).

The three events `feedback`, `grant` and `her` have one preservation lemma each, split
on the seven states. `MpqCycle` puts them together.
-/
import Mathlib.Data.Finset.Card
import Mathlib.Data.Finset.Range
import Pspin.MpqFsm
import Pspin.MpqMessage

set_option autoImplicit false

namespace Pspin

open Message

/-- What the FIFO engine holds of a packet: where it lies in L2, and how long it is. -/
structure mpq_pkt_t where
  pkt_addr : mem_addr_t
  pkt_size : mem_size_t
deriving DecidableEq

/-- The packet of a HER: its address, and the bytes to transfer. -/
def pkt_of (h : her_descr_t) : mpq_pkt_t := ⟨h.her_addr, h.xfer_size⟩

/-! ## The log -/

/-- The messages of a queue, the tasks it sent and which of them, by position, have
their feedback. -/
structure Log where
  past : List (List her_descr_t)
  cur : List her_descr_t
  sent : List sent_t
  answered : Finset ℕ

namespace Log

/-- No HER yet, and nothing sent. -/
def empty : Log := ⟨[], [], [], ∅⟩

/-- A HER continues the current message, or starts the next one behind an EOM. -/
def her (h : her_descr_t) (l : Log) : Log :=
  if closed l.cur then { l with past := l.past ++ [l.cur], cur := [h] }
  else { l with cur := l.cur ++ [h] }

@[simp] theorem her_sent (h : her_descr_t) (l : Log) : (l.her h).sent = l.sent := by
  unfold her
  split_ifs <;> rfl

@[simp] theorem her_answered (h : her_descr_t) (l : Log) : (l.her h).answered = l.answered := by
  unfold her
  split_ifs <;> rfl

/-- A task goes out; its number is its place in `sent`. -/
def send (t : sent_t) (l : Log) : Log := { l with sent := l.sent ++ [t] }

/-- The feedback of task `k` has come back. -/
def answer (k : ℕ) (l : Log) : Log := { l with answered := insert k l.answered }

/-- Task `k` waits for its feedback. -/
def Outstanding (l : Log) (k : ℕ) : Prop := k < l.sent.length ∧ k ∉ l.answered

instance (l : Log) (k : ℕ) : Decidable (l.Outstanding k) := inferInstanceAs (Decidable (_ ∧ _))

/-- The tasks that wait for their feedback. -/
def outstanding (l : Log) : Finset ℕ := Finset.range l.sent.length \ l.answered

/-- Everything the earlier messages call for. -/
def base (i : Fin NUM_MPQ) (l : Log) : List sent_t := l.past.flatMap (tasks i)

/-- Everything the messages so far call for. -/
def owed (i : Fin NUM_MPQ) (l : Log) : List sent_t := l.base i ++ tasks i l.cur

end Log

/-! ## The queue -/

/-- One queue with everything that belongs to it: the registers of its FSM, its packets, the
context of its message, and the log of what went in and out. -/
@[ext] structure Queue where
  mpq : mpq_t
  fifo : List mpq_pkt_t
  mpq_meta : mpq_meta_t
  log : Log

/-- A grant takes the packet out of the FIFO: every payload but that of an EOM packet
which still owes a completion, and the completion itself. -/
def last_carrier (q : mpq_t) : Bool :=
  (q.state == .Payload && !(q.eom_seen && q.length == 1 && q.has_completion))
    || q.state == .Completion

namespace Queue

/-- The packet whose handlers run next. A queue without packets shows the zeros of the memory. -/
def head (q : Queue) : mpq_pkt_t := q.fifo.head?.getD ⟨0, 0⟩

/-- What a grant sends. -/
def next_task (i : Fin NUM_MPQ) (q : Queue) : sent_t :=
  ⟨q.mpq.state, handler_task i q.mpq_meta q.head.pkt_addr q.head.pkt_size q.mpq.state
    (last_carrier q.mpq)⟩

/-- A cycle with a feedback for the queue: only the FSM sees it. -/
def feedback (k : ℕ) (q : Queue) : Queue :=
  { q with mpq := mpq_fsm .feedback q.mpq, log := q.log.answer k }

/-- A cycle in which the arbiter takes the queue: a task goes out, and the packet leaves the FIFO
with its last task. -/
def grant (i : Fin NUM_MPQ) (q : Queue) : Queue :=
  { q with
    mpq := mpq_fsm .sent q.mpq
    fifo := if last_carrier q.mpq then q.fifo.tail else q.fifo
    log := q.log.send (q.next_task i) }

/-- A cycle with a HER for the queue. The context is written by the first HER of a message only, so
a later one cannot change the handlers of an open message. -/
def her (h : her_descr_t) (q : Queue) : Queue where
  mpq := mpq_fsm (.her h) q.mpq
  fifo := q.fifo ++ [pkt_of h]
  mpq_meta := if mpq_busy q.mpq then q.mpq_meta else h.mpq_meta
  log := q.log.her h

/-! ## The invariant -/

/-- The packets in the FIFO: the EOM packet stays until its completion is sent. -/
def held (q : mpq_t) : ℕ :=
  q.length + if q.has_completion && (q.state == .PayloadDraining || q.state == .Completion)
    then 1 else 0

/-- The part of the current plan that has been sent. -/
def served (q : mpq_t) (cur : List her_descr_t) : List plan_t :=
  match q.state with
  | .Free | .CompletionRunning => plan cur
  | .Header => []
  | _ => header_part cur ++ payload_part (cur.length - q.length)

/-- The tasks of the current message that must have been answered by now. -/
def settled (q : mpq_t) (cur : List her_descr_t) : ℕ :=
  match q.state with
  | .Header | .HeaderRunning => 0
  | _ => (header_part cur).length

/-- What each state says about counters and message. -/
def Phase (q : mpq_t) (cur : List her_descr_t) : Prop :=
  match q.state with
  | .Free => q.length = 0 ∧ q.in_flight = 0 ∧ (cur = [] ∨ closed cur = true)
  | .Header => q.length = cur.length ∧ q.in_flight = 0 ∧ has_header cur = true
  | .HeaderRunning => q.length = cur.length ∧ q.in_flight = 1 ∧ has_header cur = true
  | .Payload => q.length ≤ cur.length ∧ (closed cur = true → 0 < q.length)
  | .PayloadDraining => q.length = 0 ∧ 0 < q.in_flight ∧ closed cur = true
  | .Completion =>
    q.length = 0 ∧ q.in_flight = 0 ∧ closed cur = true ∧ has_completion cur = true
  | .CompletionRunning =>
    q.length = 0 ∧ q.in_flight = 1 ∧ closed cur = true ∧ has_completion cur = true

/-- What holds of a queue in every reachable state: its registers are what the log of its message
says, and the FIFO holds the packets that are not yet done with. -/
structure Inv (i : Fin NUM_MPQ) (q : Queue) : Prop where
  phase : Phase q.mpq q.log.cur
  busy : q.mpq.state ≠ .Free → q.log.cur ≠ []
  first : q.mpq.state ≠ .Free → q.log.cur.head?.map (·.mpq_meta) = some q.mpq_meta
  completion : q.mpq.state ≠ .Free → q.mpq.has_completion = has_completion q.log.cur
  eom_seen : q.mpq.eom_seen = (q.mpq.state != .Free && closed q.log.cur)
  fifo : q.fifo = (q.log.cur.drop (q.log.cur.length - held q.mpq)).map pkt_of
  sent : q.log.sent = q.log.base i ++ tasks_for i q.log.cur (served q.mpq q.log.cur)
  answered_lt : ∀ k ∈ q.log.answered, k < q.log.sent.length
  in_flight : q.mpq.in_flight + q.log.answered.card = q.log.sent.length
  settled : ∀ k < (q.log.base i).length + settled q.mpq q.log.cur, k ∈ q.log.answered
  past : ∀ m ∈ q.log.past, m ≠ [] ∧ closed m = true
  length_lt : q.mpq.length < 2 ^ MPQ_CNT_W
  in_flight_lt : q.mpq.in_flight < 2 ^ MPQ_CNT_W

namespace Inv

variable {i : Fin NUM_MPQ} {q : Queue}

/-- A free queue has forgotten the end of the message before. -/
theorem free_eom_seen (h : Inv i q) (hq : q.mpq.state = .Free) : q.mpq.eom_seen = false := by
  rw [h.eom_seen, hq]
  rfl

/-- A task waits for its feedback exactly when the counter is not zero. -/
theorem in_flight_pos (h : Inv i q) {k : ℕ} (hk : q.log.Outstanding k) : 0 < q.mpq.in_flight := by
  have hlt : q.log.answered.card < q.log.sent.length := by
    rw [← Finset.card_range q.log.sent.length]
    refine Finset.card_lt_card ⟨fun j hj => Finset.mem_range.mpr (h.answered_lt j hj), fun hsub => ?_⟩
    exact hk.2 (hsub (Finset.mem_range.mpr hk.1))
  have := h.in_flight
  omega

/-- With the counter at zero every task is answered. -/
theorem answered_all (h : Inv i q) (h0 : q.mpq.in_flight = 0) {k : ℕ} (hk : k < q.log.sent.length) :
    k ∈ q.log.answered := by
  by_contra hn
  have := h.in_flight_pos ⟨hk, hn⟩
  omega

/-- The queue never holds more packets than its message has had. -/
theorem held_le (h : Inv i q) : held q.mpq ≤ q.log.cur.length := by
  have hph := h.phase
  unfold Phase at hph
  unfold held
  cases hq : q.mpq.state with
  | Free => simp [hq] at hph; simp [hph]
  | Header => simp [hq] at hph; simp [hph]
  | HeaderRunning => simp [hq] at hph; simp [hph]
  | Payload => simp [hq] at hph; simpa using hph.1
  | PayloadDraining | Completion =>
    have hlen := List.length_pos_of_ne_nil (h.busy (by simp [hq]))
    simp [hq] at hph
    rw [hph.1]
    split_ifs <;> omega
  | CompletionRunning => simp [hq] at hph; simp [hph]

/-- The FIFO holds the packets the counter names, and the EOM packet a completion waits for. -/
theorem length_fifo (h : Inv i q) : q.fifo.length = held q.mpq := by
  have := h.held_le
  rw [h.fifo, List.length_map, List.length_drop]
  omega

end Inv

/-! ## A feedback -/

section Feedback

variable {i : Fin NUM_MPQ} {q : Queue} {k : ℕ}

@[simp] theorem length_feedback (m : mpq_t) : (mpq_fsm .feedback m).length = m.length := by
  simp [mpq_fsm, mpq_event_t.feedback]

@[simp] theorem in_flight_feedback (m : mpq_t) :
    (mpq_fsm .feedback m).in_flight = Counter.dec MPQ_CNT_W m.in_flight := by
  simp [mpq_fsm, mpq_event_t.feedback]

@[simp] theorem has_completion_feedback (m : mpq_t) :
    (mpq_fsm .feedback m).has_completion = m.has_completion := by
  simp [mpq_fsm, mpq_event_t.feedback]

/-- The end of the message is forgotten only with the message. -/
theorem eom_seen_feedback (m : mpq_t) : (mpq_fsm .feedback m).eom_seen
    = ((mpq_fsm .feedback m).state != .Free && m.eom_seen) := mpq_fsm_eom_seen rfl

/-- The feedback that moves a queue on, and the states it moves between. -/
theorem state_feedback (m : mpq_t) :
    (mpq_fsm .feedback m).state = m.state
      ∨ (m.state = .HeaderRunning ∧ (mpq_fsm .feedback m).state = .Payload)
      ∨ (m.state = .PayloadDraining ∧ m.in_flight = 1
          ∧ (mpq_fsm .feedback m).state = if m.has_completion then .Completion else .Free)
      ∨ (m.state = .CompletionRunning ∧ (mpq_fsm .feedback m).state = .Free) := by
  cases hm : m.state <;> simp [mpq_fsm, mpq_event_t.feedback, hm]
  by_cases h1 : m.in_flight = 1 <;> simp [h1]

theorem not_free_feedback {m : mpq_t} (hs : (mpq_fsm .feedback m).state ≠ .Free) :
    m.state ≠ .Free := by
  intro hc
  rcases state_feedback m with he | ⟨hq, -⟩ | ⟨hq, -, -⟩ | ⟨hq, -⟩
  · exact hs (he.trans hc)
  all_goals exact absurd (hq.symm.trans hc) (by simp)

/-- A feedback frees no packet: that happened when the packet's last task went out. -/
theorem held_feedback (m : mpq_t) : held (mpq_fsm .feedback m) = held m := by
  unfold held
  rw [length_feedback, has_completion_feedback]
  rcases state_feedback m with he | ⟨hq, he⟩ | ⟨hq, -, he⟩ | ⟨hq, he⟩
  · rw [he]
  · simp [hq, he]
  · cases hc : m.has_completion <;> simp [hq, he, hc]
  · simp [hq, he]

theorem Inv.served_feedback (h : Inv i q) :
    served (mpq_fsm .feedback q.mpq) q.log.cur = served q.mpq q.log.cur := by
  unfold served
  rw [length_feedback]
  rcases state_feedback q.mpq with he | ⟨hq, he⟩ | ⟨hq, -, he⟩ | ⟨hq, he⟩
  · rw [he]
  · rw [hq, he]
  · have hph := h.phase
    simp only [Phase, hq] at hph
    have hc := h.completion (by simp [hq])
    rw [hq, he]
    cases hm : q.mpq.has_completion with
    | true => rfl
    | false =>
        -- without a completion the last payload ends the message
        rw [hm] at hc
        simp [hph.1, plan_no_completion hc.symm]
  · rw [hq, he]

/-- The tasks that the phase counts as answered are answered. Where the feedback moves the phase,
it is the one of the last task that was out. -/
theorem Inv.settled_feedback (h : Inv i q) (hk : q.log.Outstanding k) :
    ∀ j < (q.log.base i).length + Queue.settled (mpq_fsm .feedback q.mpq) q.log.cur,
      j ∈ insert k q.log.answered := by
  intro j hj
  rcases state_feedback q.mpq with he | ⟨hq, he⟩ | ⟨hq, -, he⟩ | ⟨hq, he⟩
  · refine Finset.mem_insert_of_mem (h.settled j ?_)
    simpa only [Queue.settled, he] using hj
  · -- the header was the only task in flight
    have hph := h.phase
    simp only [Phase, hq] at hph
    have hlen : q.log.sent.length = (q.log.base i).length + (header_part q.log.cur).length := by
      rw [h.sent, List.length_append, length_tasks_for (h.busy (by simp [hq])), served, hq]
      simp [hph.1]
    simp only [Queue.settled, he] at hj
    by_contra hn
    rw [Finset.mem_insert, not_or] at hn
    have htwo : (insert j (insert k q.log.answered)).card ≤ q.log.sent.length := by
      rw [← Finset.card_range q.log.sent.length]
      refine Finset.card_le_card fun x hx => Finset.mem_range.mpr ?_
      rcases Finset.mem_insert.mp hx with rfl | hx
      · omega
      · rcases Finset.mem_insert.mp hx with rfl | hx
        · exact hk.1
        · exact h.answered_lt x hx
    rw [Finset.card_insert_of_notMem (by simp [hn]), Finset.card_insert_of_notMem hk.2] at htwo
    have := h.in_flight
    omega
  · refine Finset.mem_insert_of_mem (h.settled j ?_)
    have hlast : (if q.mpq.has_completion then mpq_state_t.Completion else .Free) ≠ .Header
        ∧ (if q.mpq.has_completion then mpq_state_t.Completion else .Free) ≠ .HeaderRunning := by
      split_ifs <;> simp
    rw [Queue.settled, hq]
    unfold Queue.settled at hj
    rw [he] at hj
    split at hj <;> simp_all
  · refine Finset.mem_insert_of_mem (h.settled j ?_)
    simpa only [Queue.settled, he, hq] using hj

/-- The phases one by one: the feedback of a header opens the payload phase, and the last feedback
of a drained message leads to completion or frees the queue. -/
theorem Inv.phase_feedback (h : Inv i q) (hpos : 0 < q.mpq.in_flight) :
    Phase (mpq_fsm .feedback q.mpq) q.log.cur := by
  have hdec := Counter.dec_eq hpos h.in_flight_lt
  have hph := h.phase
  unfold Phase
  rw [length_feedback, in_flight_feedback, hdec]
  cases hq : q.mpq.state with
  | Free | Header | Completion =>
    -- nothing is in flight in these states, so no feedback can be due
    simp only [Phase, hq] at hph
    omega
  | HeaderRunning =>
    simp only [Phase, hq] at hph
    have hs : (mpq_fsm .feedback q.mpq).state = .Payload := by
      simp [mpq_fsm, mpq_event_t.feedback, hq]
    have := List.length_pos_of_ne_nil (h.busy (by simp [hq]))
    rw [hs]
    exact ⟨by omega, fun _ => by omega⟩
  | Payload =>
    simp only [Phase, hq] at hph
    have hs : (mpq_fsm .feedback q.mpq).state = .Payload := by
      simp [mpq_fsm, mpq_event_t.feedback, hq]
    rw [hs]
    exact hph
  | PayloadDraining =>
    simp only [Phase, hq] at hph
    have hc := h.completion (by simp [hq])
    -- the last feedback of the payload decides between the completion and the end
    by_cases h1 : q.mpq.in_flight = 1
    · cases hm : q.mpq.has_completion with
      | true =>
          have hs : (mpq_fsm .feedback q.mpq).state = .Completion := by
            simp [mpq_fsm, mpq_event_t.feedback, hq, h1, hm]
          rw [hs]
          exact ⟨hph.1, by omega, hph.2.2, hc.symm.trans hm⟩
      | false =>
          have hs : (mpq_fsm .feedback q.mpq).state = .Free := by
            simp [mpq_fsm, mpq_event_t.feedback, hq, h1, hm]
          rw [hs]
          exact ⟨hph.1, by omega, Or.inr hph.2.2⟩
    · have hs : (mpq_fsm .feedback q.mpq).state = .PayloadDraining := by
        simp [mpq_fsm, mpq_event_t.feedback, hq, h1]
      rw [hs]
      exact ⟨hph.1, by omega, hph.2.2⟩
  | CompletionRunning =>
    simp only [Phase, hq] at hph
    have hs : (mpq_fsm .feedback q.mpq).state = .Free := by
      simp [mpq_fsm, mpq_event_t.feedback, hq]
    rw [hs]
    exact ⟨hph.1, by omega, Or.inr hph.2.2.1⟩

/-- **A feedback keeps the invariant.** -/
theorem Inv.feedback (h : Inv i q) (hk : q.log.Outstanding k) : Inv i (q.feedback k) where
  phase := h.phase_feedback (h.in_flight_pos hk)
  busy := fun hs => h.busy (not_free_feedback hs)
  first := fun hs => h.first (not_free_feedback hs)
  completion := fun hs => by
    rw [Queue.feedback, has_completion_feedback]
    exact h.completion (not_free_feedback hs)
  eom_seen := by
    rw [Queue.feedback, eom_seen_feedback, h.eom_seen]
    by_cases hs : (mpq_fsm .feedback q.mpq).state = .Free
    · simp [hs]
    · have hn : (q.mpq.state != .Free) = true := bne_iff_ne.mpr (not_free_feedback hs)
      rw [hn, Bool.true_and, Log.answer]
  fifo := by
    rw [Queue.feedback, held_feedback]
    exact h.fifo
  sent := by
    rw [Queue.feedback, Log.answer, h.served_feedback]
    exact h.sent
  answered_lt := by
    intro j hj
    rcases Finset.mem_insert.mp hj with rfl | hj
    · exact hk.1
    · exact h.answered_lt j hj
  in_flight := by
    -- the task answered now was outstanding, so the counter does not wrap
    have hpos := h.in_flight_pos hk
    have hcard : (insert k q.log.answered).card = q.log.answered.card + 1 :=
      Finset.card_insert_of_notMem hk.2
    have := h.in_flight
    show (mpq_fsm .feedback q.mpq).in_flight + (insert k q.log.answered).card = q.log.sent.length
    rw [in_flight_feedback, Counter.dec_eq hpos h.in_flight_lt, hcard]
    omega
  settled := h.settled_feedback hk
  past := h.past
  length_lt := by
    rw [Queue.feedback, length_feedback]
    exact h.length_lt
  in_flight_lt := by
    rw [Queue.feedback, in_flight_feedback]
    exact Counter.dec_lt _ _

end Feedback

/-! ## A grant -/

section Grant

variable {i : Fin NUM_MPQ} {q : Queue}

@[simp] theorem in_flight_sent (m : mpq_t) :
    (mpq_fsm .sent m).in_flight = Counter.inc MPQ_CNT_W m.in_flight := by
  simp [mpq_fsm, mpq_event_t.sent]

@[simp] theorem has_completion_sent (m : mpq_t) :
    (mpq_fsm .sent m).has_completion = m.has_completion := by
  simp [mpq_fsm, mpq_event_t.sent]

/-- Sending keeps the mark of the end, unless it ends the message. -/
theorem eom_seen_sent (m : mpq_t) : (mpq_fsm .sent m).eom_seen
    = ((mpq_fsm .sent m).state != .Free && m.eom_seen) := mpq_fsm_eom_seen rfl

/-- The three grants: what they do to state and length. -/
theorem state_sent {m : mpq_t} (hv : mpq_valid m = true) :
    (m.state = .Header ∧ (mpq_fsm .sent m).state = .HeaderRunning
        ∧ (mpq_fsm .sent m).length = m.length)
      ∨ (m.state = .Payload ∧ 0 < m.length
          ∧ (mpq_fsm .sent m).state
            = (if m.eom_seen && m.length == 1 then .PayloadDraining else .Payload)
          ∧ (mpq_fsm .sent m).length = Counter.dec MPQ_CNT_W m.length)
      ∨ (m.state = .Completion ∧ (mpq_fsm .sent m).state = .CompletionRunning
          ∧ (mpq_fsm .sent m).length = m.length) := by
  rcases mpq_valid_iff.mp hv with hq | ⟨hq, hl⟩ | hq <;>
    simp [mpq_fsm, mpq_event_t.sent, hq]
  exact hl

/-- Only a queue with a message asks for the arbiter. -/
theorem busy_of_valid {m : mpq_t} (hv : mpq_valid m = true) : m.state ≠ .Free := by
  intro hc
  rw [mpq_valid_iff, hc] at hv
  simp at hv

/-- A grant never frees the queue: the task that was just sent is outstanding. -/
theorem not_free_sent {m : mpq_t} (hv : mpq_valid m = true) : (mpq_fsm .sent m).state ≠ .Free := by
  rcases state_sent hv with ⟨-, he, -⟩ | ⟨-, -, he, -⟩ | ⟨-, he, -⟩
  · simp [he]
  · rw [he]
    split_ifs <;> simp
  · simp [he]

/-- The entry of the plan a grant works off: its packet is the front of the FIFO. -/
def next_entry (m : mpq_t) (cur : List her_descr_t) : plan_t := ⟨m.state, cur.length - held m⟩

/-- Before the header handler ran, all packets are held. -/
theorem held_of_header {m : mpq_t} (hq : m.state = .Header) : held m = m.length := by
  simp [held, hq]

/-- While payload handlers go out, the packets in the FIFO are the ones without a task. -/
theorem held_of_payload {m : mpq_t} (hq : m.state = .Payload) : held m = m.length := by
  simp [held, hq]

/-- The completion handler runs on the last packet, which was kept for it. -/
theorem Inv.held_of_completion (h : Inv i q) (hq : q.mpq.state = .Completion) :
    held q.mpq = 1 := by
  have hph := h.phase
  simp only [Phase, hq] at hph
  have hc := h.completion (by simp [hq])
  simp [held, hq, hph.1, hc, hph.2.2.2]

/-- A queue that asks for the arbiter has a packet to show. -/
theorem Inv.held_pos (h : Inv i q) (hv : mpq_valid q.mpq = true) : 0 < held q.mpq := by
  rcases mpq_valid_iff.mp hv with hq | ⟨hq, hl⟩ | hq
  · have hph := h.phase
    simp only [Phase, hq] at hph
    rw [held_of_header hq, hph.1]
    exact List.length_pos_of_ne_nil (h.busy (by simp [hq]))
  · rwa [held_of_payload hq]
  · rw [h.held_of_completion hq]
    exact Nat.one_pos

/-- A grant finds a packet in the FIFO. -/
theorem Inv.fifo_ne_nil (h : Inv i q) (hv : mpq_valid q.mpq = true) : q.fifo ≠ [] := by
  have := h.held_pos hv
  rw [← h.length_fifo] at this
  exact List.ne_nil_of_length_pos this

/-- A grant adds the task that the phase asks for, at the end. -/
theorem Inv.served_sent (h : Inv i q) (hv : mpq_valid q.mpq = true) :
    served (mpq_fsm .sent q.mpq) q.log.cur
      = served q.mpq q.log.cur ++ [next_entry q.mpq q.log.cur] := by
  have hph := h.phase
  have hle := h.held_le
  rcases state_sent hv with ⟨hq, he, hl⟩ | ⟨hq, hpos, he, hl⟩ | ⟨hq, he, hl⟩
  · simp only [Phase, hq] at hph
    rw [served, he, served, hq, hl, next_entry, held_of_header hq, hph.1, Nat.sub_self,
      payload_part_zero, List.append_nil, header_part, if_pos hph.2.2, hq, List.nil_append]
  · -- one more payload, whether it is the last one or not
    have hsub : q.log.cur.length - (q.mpq.length - 1)
        = q.log.cur.length - q.mpq.length + 1 := by
      rw [held_of_payload hq] at hle
      omega
    have hrun : served (mpq_fsm .sent q.mpq) q.log.cur = header_part q.log.cur
        ++ payload_part (q.log.cur.length - (mpq_fsm .sent q.mpq).length) := by
      rw [served, he]
      split_ifs <;> rfl
    rw [hrun, hl, Counter.dec_eq hpos h.length_lt, hsub, payload_part_succ, ← List.append_assoc,
      served, hq, next_entry, held_of_payload hq, hq]
  · simp only [Phase, hq] at hph
    rw [served, he, served, hq, hph.1, Nat.sub_zero, plan_completion hph.2.2.1 hph.2.2.2, next_entry,
      h.held_of_completion hq, hq]

/-- The trigger flag the engine computes is the one the plan wants: the task is the
last one to carry its packet. -/
theorem Inv.last_carrier_eq (h : Inv i q) (hv : mpq_valid q.mpq = true) :
    ((carriers q.log.cur (next_entry q.mpq q.log.cur).pkt).getLast?
      == some (next_entry q.mpq q.log.cur)) = last_carrier q.mpq := by
  have hne := h.busy (busy_of_valid hv)
  have hc := h.completion (busy_of_valid hv)
  have heom := h.eom_seen
  have hph := h.phase
  have hle := h.held_le
  unfold next_entry
  rcases mpq_valid_iff.mp hv with hq | ⟨hq, hl⟩ | hq
  · simp only [Phase, hq] at hph
    rw [held_of_header hq, hph.1, Nat.sub_self, hq, header_not_last hne]
    simp [last_carrier, hq]
  · -- a packet leaves with its payload handler, but the last one stays for a completion
    rw [held_of_payload hq] at hle ⊢
    have hlt : q.log.cur.length - q.mpq.length < q.log.cur.length := by omega
    have hlast : decide (q.log.cur.length - q.mpq.length + 1 = q.log.cur.length)
        = decide (q.mpq.length = 1) := decide_eq_decide.mpr (by omega)
    rw [hq, show (mpq_state_t.Payload != .Free) = true from rfl, Bool.true_and] at heom
    rw [hq, payload_last hlt, hlast]
    simp only [last_carrier, hq, heom, hc, beq_eq_decide]
    cases closed q.log.cur <;> simp
  · simp only [Phase, hq] at hph
    rw [h.held_of_completion hq, hq, completion_last hne hph.2.2.1 hph.2.2.2]
    simp [last_carrier, hq]

/-- **What a grant sends is the next task of the plan.** -/
theorem Inv.next_task_eq (h : Inv i q) (hv : mpq_valid q.mpq = true) :
    [q.next_task i] = tasks_for i q.log.cur [next_entry q.mpq q.log.cur] := by
  have hne := h.busy (busy_of_valid hv)
  have hfirst := h.first (busy_of_valid hv)
  have hlast := h.last_carrier_eq hv
  have hlt : q.log.cur.length - held q.mpq < q.log.cur.length := by
    have := h.held_pos hv
    have := h.held_le
    omega
  have hhead : q.head = pkt_of (q.log.cur.get ⟨_, hlt⟩) := by
    rw [Queue.head, h.fifo, List.drop_eq_getElem_cons hlt]
    rfl
  generalize hcur : q.log.cur = cur at *
  obtain ⟨h0, hs, rfl⟩ := List.exists_cons_of_ne_nil hne
  have hmeta : h0.mpq_meta = q.mpq_meta := by simpa using hfirst
  rw [tasks_for, List.map_singleton, next_task, task_of, hlast, hhead, hmeta]
  simp only [next_entry]
  rw [List.getD_eq_getElem _ _ hlt]
  rfl

/-- The packet goes with its last carrier, and with no other task. -/
theorem Inv.held_sent (h : Inv i q) (hv : mpq_valid q.mpq = true) :
    held (mpq_fsm .sent q.mpq) = held q.mpq - if last_carrier q.mpq then 1 else 0 := by
  rcases state_sent hv with ⟨hq, he, hl⟩ | ⟨hq, hpos, he, hl⟩ | ⟨hq, he, hl⟩
  · simp [held, last_carrier, hq, he, hl]
  · rw [Counter.dec_eq hpos h.length_lt] at hl
    by_cases hlast : (q.mpq.eom_seen && q.mpq.length == 1) = true
    · rw [if_pos hlast] at he
      obtain ⟨hs, h1⟩ : q.mpq.eom_seen = true ∧ q.mpq.length = 1 := by simpa using hlast
      cases hc : q.mpq.has_completion <;> simp [held, last_carrier, hq, he, hl, hs, hc, h1]
    · rw [if_neg hlast] at he
      rw [Bool.not_eq_true] at hlast
      simp [held, last_carrier, hq, he, hl, hlast]
  · have h1 := h.held_of_completion hq
    rw [h1]
    have hph := h.phase
    simp only [Phase, hq] at hph
    simp [held, last_carrier, hq, he, hl, hph.1]

/-- A task that has just been sent is not answered. -/
theorem Inv.settled_sent (hv : mpq_valid q.mpq = true) :
    Queue.settled (mpq_fsm .sent q.mpq) q.log.cur = Queue.settled q.mpq q.log.cur := by
  unfold Queue.settled
  rcases state_sent hv with ⟨hq, he, -⟩ | ⟨hq, -, he, -⟩ | ⟨hq, he, -⟩
  · rw [hq, he]
  · rw [hq, he]
    split_ifs <;> rfl
  · rw [hq, he]

/-- The phases one by one. The bound on `in_flight` keeps its increment from wrapping, which would
look like a queue without outstanding tasks. -/
theorem Inv.phase_sent (h : Inv i q) (hv : mpq_valid q.mpq = true)
    (hlt : q.mpq.in_flight + 1 < 2 ^ MPQ_CNT_W) :
    Phase (mpq_fsm .sent q.mpq) q.log.cur := by
  have hph := h.phase
  have heom := h.eom_seen
  unfold Phase
  rw [in_flight_sent, Counter.inc_eq hlt]
  rcases state_sent hv with ⟨hq, he, hl⟩ | ⟨hq, hpos, he, hl⟩ | ⟨hq, he, hl⟩
  · simp only [Phase, hq] at hph
    rw [he, hl]
    exact ⟨hph.1, by omega, hph.2.2⟩
  · simp only [Phase, hq] at hph
    rw [hq, show (mpq_state_t.Payload != mpq_state_t.Free) = true from rfl, Bool.true_and] at heom
    rw [he, hl, Counter.dec_eq hpos h.length_lt, heom]
    -- the last payload handler of a closed message drains the queue
    by_cases hlast : closed q.log.cur = true ∧ q.mpq.length = 1
    · rw [if_pos (by simpa using hlast)]
      exact ⟨by omega, by omega, hlast.1⟩
    · rw [if_neg (by simpa using hlast)]
      refine ⟨by omega, fun hc => ?_⟩
      have : q.mpq.length ≠ 1 := fun h1 => hlast ⟨hc, h1⟩
      omega
  · simp only [Phase, hq] at hph
    rw [he, hl]
    exact ⟨hph.1, by omega, hph.2.2⟩

/-- **A grant keeps the invariant.** -/
theorem Inv.grant (h : Inv i q) (hv : mpq_valid q.mpq = true)
    (hlt : q.mpq.in_flight + 1 < 2 ^ MPQ_CNT_W) : Inv i (q.grant i) where
  phase := h.phase_sent hv hlt
  busy := fun _ => h.busy (busy_of_valid hv)
  first := fun _ => h.first (busy_of_valid hv)
  completion := fun _ => by
    rw [Queue.grant, has_completion_sent]
    exact h.completion (busy_of_valid hv)
  eom_seen := by
    have hs : ((mpq_fsm .sent q.mpq).state != .Free) = true := bne_iff_ne.mpr (not_free_sent hv)
    have hn : (q.mpq.state != .Free) = true := bne_iff_ne.mpr (busy_of_valid hv)
    rw [Queue.grant, eom_seen_sent, h.eom_seen, hs, hn]
    rfl
  fifo := by
    have hpos := h.held_pos hv
    have hle := h.held_le
    show (if last_carrier q.mpq then q.fifo.tail else q.fifo)
      = (q.log.cur.drop (q.log.cur.length - held (mpq_fsm .sent q.mpq))).map pkt_of
    -- the FIFO holds the packets not yet served, and a last carrier frees its packet
    rw [h.held_sent hv, h.fifo]
    split_ifs
    · rw [← List.map_tail, List.tail_drop]
      congr 2
      omega
    · rfl
  sent := by
    show q.log.sent ++ [q.next_task i] = q.log.base i
      ++ tasks_for i q.log.cur (served (mpq_fsm .sent q.mpq) q.log.cur)
    rw [h.served_sent hv, tasks_for_append, ← h.next_task_eq hv, h.sent, List.append_assoc]
  answered_lt := by
    intro j hj
    show j < (q.log.sent ++ [q.next_task i]).length
    have := h.answered_lt j hj
    rw [List.length_append]
    omega
  in_flight := by
    have := h.in_flight
    show (mpq_fsm .sent q.mpq).in_flight + q.log.answered.card
      = (q.log.sent ++ [q.next_task i]).length
    rw [in_flight_sent, Counter.inc_eq hlt, List.length_append, List.length_singleton]
    omega
  settled := by
    intro j hj
    refine h.settled j ?_
    rw [← Inv.settled_sent hv]
    exact hj
  past := h.past
  length_lt := by
    show (mpq_fsm .sent q.mpq).length < _
    -- only a payload handler counts the length down
    rcases state_sent hv with ⟨-, -, hl⟩ | ⟨-, -, -, hl⟩ | ⟨-, -, hl⟩
    · exact hl ▸ h.length_lt
    · exact hl ▸ Counter.dec_lt _ _
    · exact hl ▸ h.length_lt
  in_flight_lt := by
    rw [Queue.grant, in_flight_sent]
    exact Counter.inc_lt _ _

end Grant

/-! ## A request -/

section Her

variable {i : Fin NUM_MPQ} {q : Queue} {h0 : her_descr_t}

/-- The messages of a queue come one at a time: a HER arrives at a free queue, or
continues a message that is still open. -/
def Accepts (q : Queue) : Prop :=
  q.mpq.state = .Free ∨ (q.log.cur ≠ [] ∧ closed q.log.cur = false)

instance (q : Queue) : Decidable q.Accepts := inferInstanceAs (Decidable (_ ∨ _))

@[simp] theorem length_her (m : mpq_t) :
    (mpq_fsm (.her h0) m).length = Counter.inc MPQ_CNT_W m.length := by
  simp [mpq_fsm, mpq_event_t.her]

@[simp] theorem in_flight_her (m : mpq_t) :
    (mpq_fsm (.her h0) m).in_flight = m.in_flight := by
  simp [mpq_fsm, mpq_event_t.her]

/-- Behind the last message the log starts a new one. -/
theorem Inv.log_her_first (h : Inv i q) (hq : q.mpq.state = .Free) (h0 : her_descr_t) :
    (q.log.her h0).cur = [h0] ∧ (q.log.her h0).base i = q.log.sent
      ∧ ∀ m ∈ (q.log.her h0).past, m ≠ [] ∧ closed m = true := by
  have hsent := h.sent
  rw [served, hq] at hsent
  have hph := h.phase
  simp only [Phase, hq] at hph
  -- a free queue has either finished a message or never seen one
  by_cases hc : closed q.log.cur = true
  · have hne : q.log.cur ≠ [] := by
      rintro hnil
      rw [hnil] at hc
      exact absurd hc (by simp [closed])
    rw [Log.her, if_pos hc]
    refine ⟨rfl, ?_, ?_⟩
    · rw [hsent, Log.base, List.flatMap_append, List.flatMap_singleton]
      rfl
    · intro m hm
      rcases List.mem_append.mp hm with hm | hm
      · exact h.past m hm
      · obtain rfl := List.mem_singleton.mp hm
        exact ⟨hne, hc⟩
  · have hnil : q.log.cur = [] := hph.2.2.resolve_right hc
    rw [Log.her, if_neg hc]
    refine ⟨?_, ?_, h.past⟩
    · rw [hnil, List.nil_append]
    · rw [hsent, hnil]
      exact (List.append_nil _).symm

/-! ### What a HER leaves alone -/

/-- A HER changes nothing for the tasks that are answered. -/
theorem Inv.answered_lt_her (h : Inv i q) (h0 : her_descr_t) :
    ∀ k ∈ (q.log.her h0).answered, k < (q.log.her h0).sent.length := by
  rw [Log.her_answered, Log.her_sent]
  exact h.answered_lt

/-- Nor for the number of tasks that are out. -/
theorem Inv.balance_her (h : Inv i q) (h0 : her_descr_t) :
    (mpq_fsm (.her h0) q.mpq).in_flight + (q.log.her h0).answered.card
      = (q.log.her h0).sent.length := by
  rw [in_flight_her, Log.her_answered, Log.her_sent]
  exact h.in_flight

/-- The counter of the packets stays in its width, as any counter does. -/
theorem length_her_lt (m : mpq_t) : (mpq_fsm (.her h0) m).length < 2 ^ MPQ_CNT_W := by
  rw [length_her]
  exact Counter.inc_lt _ _

/-- And so does that of the tasks, which a HER does not touch. -/
theorem Inv.in_flight_her_lt (h : Inv i q) (h0 : her_descr_t) :
    (mpq_fsm (.her h0) q.mpq).in_flight < 2 ^ MPQ_CNT_W := by
  rw [in_flight_her]
  exact h.in_flight_lt

/-! ### The first HER of a message -/

section First

variable {m : mpq_t}

/-- The handler header address of the first HER decides where the message starts. -/
theorem state_her_first (hq : m.state = .Free) : (mpq_fsm (.her h0) m).state
    = if h0.mpq_meta.hh_addr != 0 then .Header else .Payload := by
  simp [mpq_fsm, mpq_event_t.her, hq]

/-- The first HER takes the queue, whatever handlers it asks for. -/
theorem not_free_her_first (hq : m.state = .Free) : (mpq_fsm (.her h0) m).state ≠ .Free := by
  rw [state_her_first hq]
  split_ifs <;> simp

/-- The completion handler is that of the first HER. -/
theorem has_completion_her_first (hq : m.state = .Free) :
    (mpq_fsm (.her h0) m).has_completion = has_completion [h0] := by
  simp [mpq_fsm, mpq_event_t.her, hq, has_completion]

theorem held_her_first (hq : m.state = .Free) (hlen : (mpq_fsm (.her h0) m).length = 1) :
    held (mpq_fsm (.her h0) m) = 1 := by
  unfold held
  rw [hlen, state_her_first hq]
  split_ifs <;> simp_all

/-- Nothing of the new message has been sent. -/
theorem served_her_first (hq : m.state = .Free) (hlen : (mpq_fsm (.her h0) m).length = 1) :
    served (mpq_fsm (.her h0) m) [h0] = [] := by
  unfold served
  rw [state_her_first hq, hlen]
  by_cases hh : (h0.mpq_meta.hh_addr != 0) = true
  · rw [if_pos hh]
  · have hnone : header_part [h0] = [] := if_neg hh
    rw [if_neg hh, hnone]
    rfl

/-- Nor has any of its tasks to be answered. -/
theorem settled_her_first (hq : m.state = .Free) :
    Queue.settled (mpq_fsm (.her h0) m) [h0] = 0 := by
  unfold Queue.settled
  rw [state_her_first hq]
  by_cases hh : (h0.mpq_meta.hh_addr != 0) = true
  · rw [if_pos hh]
  · have hnone : header_part [h0] = [] := if_neg hh
    rw [if_neg hh, hnone]
    rfl

/-- The message starts with its header handler, or with the payload handlers if it has none. -/
theorem phase_her_first (hq : m.state = .Free) (hlen : (mpq_fsm (.her h0) m).length = 1)
    (hfl : m.in_flight = 0) : Phase (mpq_fsm (.her h0) m) [h0] := by
  rw [Phase, state_her_first hq, hlen, in_flight_her]
  by_cases hh : (h0.mpq_meta.hh_addr != 0) = true
  · rw [if_pos hh]
    exact ⟨rfl, hfl, by simpa [has_header] using hh⟩
  · rw [if_neg hh]
    exact ⟨le_refl _, fun _ => Nat.one_pos⟩

end First

/-- The first HER of a message. -/
theorem Inv.her_first (h : Inv i q) (hq : q.mpq.state = .Free)
    (hlt : q.mpq.length + 1 < 2 ^ MPQ_CNT_W) : Inv i (q.her h0) := by
  have hph := h.phase
  simp only [Phase, hq] at hph
  obtain ⟨hlen, hfl, -⟩ := hph
  obtain ⟨hcur, hbase, hpast⟩ := h.log_her_first hq h0
  have hone : (mpq_fsm (.her h0) q.mpq).length = 1 := by
    rw [length_her, Counter.inc_eq hlt, hlen]
  refine
    { phase := ?_, busy := ?_, first := ?_, completion := ?_, eom_seen := ?_, fifo := ?_,
      sent := ?_, answered_lt := h.answered_lt_her h0, in_flight := h.balance_her h0,
      settled := ?_, past := hpast, length_lt := length_her_lt _,
      in_flight_lt := h.in_flight_her_lt h0 }
  · show Phase (mpq_fsm (.her h0) q.mpq) (q.log.her h0).cur
    rw [hcur]
    exact phase_her_first hq hone hfl
  · intro _
    show (q.log.her h0).cur ≠ []
    rw [hcur]
    exact List.cons_ne_nil _ _
  · intro _
    show (q.log.her h0).cur.head?.map (·.mpq_meta)
      = some (if mpq_busy q.mpq then q.mpq_meta else h0.mpq_meta)
    rw [hcur, mpq_busy, hq]
    rfl
  · intro _
    show (mpq_fsm (.her h0) q.mpq).has_completion = has_completion (q.log.her h0).cur
    rw [has_completion_her_first hq, hcur]
  · show (mpq_fsm (.her h0) q.mpq).eom_seen = ((mpq_fsm (.her h0) q.mpq).state != .Free
      && closed (q.log.her h0).cur)
    have hbusy : (mpq_fsm (.her h0) q.mpq).state ≠ .Free := not_free_her_first hq
    rw [mpq_fsm_eom_seen_busy hbusy, h.free_eom_seen hq, Bool.or_false, bne_iff_ne.mpr hbusy, hcur,
      Bool.true_and]
    rfl
  · show q.fifo ++ [pkt_of h0] = ((q.log.her h0).cur.drop
      ((q.log.her h0).cur.length - held (mpq_fsm (.her h0) q.mpq))).map pkt_of
    have hnil : q.fifo = [] := by
      rw [← List.length_eq_zero_iff, h.length_fifo, held, hlen, hq]
      simp
    rw [hcur, held_her_first hq hone, hnil]
    rfl
  · show (q.log.her h0).sent = (q.log.her h0).base i ++ tasks_for i (q.log.her h0).cur
      (served (mpq_fsm (.her h0) q.mpq) (q.log.her h0).cur)
    rw [hcur, served_her_first hq hone, hbase, Log.her_sent]
    exact (List.append_nil _).symm
  · intro k hk
    -- the messages before are complete, and the queue waits for none of their tasks
    have hsum : ((q.log.her h0).base i).length
        + Queue.settled (mpq_fsm (.her h0) q.mpq) (q.log.her h0).cur = q.log.sent.length := by
      rw [hbase, hcur, settled_her_first hq, Nat.add_zero]
    have hk' : k < q.log.sent.length := hsum ▸ hk
    show k ∈ (q.log.her h0).answered
    rw [Log.her_answered]
    exact h.answered_all hfl hk'

/-! ### A further HER of an open message -/

/-- An open message has not reached its EOM packet. -/
theorem Inv.state_of_open (h : Inv i q) (hq : q.mpq.state ≠ .Free)
    (ho : closed q.log.cur = false) :
    q.mpq.state = .Header ∨ q.mpq.state = .HeaderRunning ∨ q.mpq.state = .Payload := by
  have hph := h.phase
  cases hs : q.mpq.state with
  | Free => exact absurd hs hq
  | Header => exact Or.inl rfl
  | HeaderRunning => exact Or.inr (Or.inl rfl)
  | Payload => exact Or.inr (Or.inr rfl)
  | PayloadDraining | Completion | CompletionRunning =>
    simp only [Phase, hs, ho] at hph
    simp at hph

section More

variable {m : mpq_t} {cur : List her_descr_t}

/-- A further packet does not move the FSM: it only queues up. -/
theorem state_her_more
    (hst : m.state = .Header ∨ m.state = .HeaderRunning ∨ m.state = .Payload) :
    (mpq_fsm (.her h0) m).state = m.state := by
  rcases hst with hs | hs | hs <;> simp [mpq_fsm, mpq_event_t.her, hs]

/-- Nor does it change whether there will be a completion. -/
theorem has_completion_her_more
    (hst : m.state = .Header ∨ m.state = .HeaderRunning ∨ m.state = .Payload) :
    (mpq_fsm (.her h0) m).has_completion = m.has_completion := by
  rcases hst with hs | hs | hs <;> simp [mpq_fsm, mpq_event_t.her, hs]

/-- What is settled depends on the packets before. -/
theorem settled_her_more
    (hst : m.state = .Header ∨ m.state = .HeaderRunning ∨ m.state = .Payload)
    (hne : cur ≠ []) :
    Queue.settled (mpq_fsm (.her h0) m) (cur ++ [h0]) = Queue.settled m cur := by
  rw [Queue.settled, Queue.settled, state_her_more hst, header_part_append hne]

/-- What has been sent is part of what an open message calls for so far. -/
theorem served_subset
    (hst : m.state = .Header ∨ m.state = .HeaderRunning ∨ m.state = .Payload) :
    served m cur ⊆ header_part cur ++ payload_part cur.length := by
  have hpay : payload_part (cur.length - m.length) ⊆ payload_part cur.length :=
    List.map_subset _ (List.range_subset.mpr (Nat.sub_le _ _))
  unfold served
  rcases hst with hs | hs | hs <;> rw [hs]
  · exact List.nil_subset _
  all_goals exact List.append_subset.mpr ⟨List.subset_append_left _ _,
    List.subset_append_of_subset_right _ hpay⟩

/-- The new packet is held behind the others. -/
theorem held_her_more
    (hst : m.state = .Header ∨ m.state = .HeaderRunning ∨ m.state = .Payload)
    (hlen : (mpq_fsm (.her h0) m).length = m.length + 1) :
    held (mpq_fsm (.her h0) m) = held m + 1 := by
  unfold held
  rw [hlen, state_her_more hst, has_completion_her_more hst]
  omega

/-- The packet that came is one more to send, and the part sent is the same. -/
theorem served_her_more
    (hst : m.state = .Header ∨ m.state = .HeaderRunning ∨ m.state = .Payload)
    (hlen : (mpq_fsm (.her h0) m).length = m.length + 1) (hne : cur ≠ []) :
    served (mpq_fsm (.her h0) m) (cur ++ [h0]) = served m cur := by
  have hsub : (cur ++ [h0]).length - (m.length + 1) = cur.length - m.length := by
    rw [List.length_append, List.length_singleton]
    omega
  unfold served
  rw [state_her_more hst, hlen, hsub, header_part_append hne]
  rcases hst with hs | hs | hs <;> rw [hs]

/-- The phase of an open message stays what it was, with one packet more to serve. -/
theorem phase_her_more
    (hst : m.state = .Header ∨ m.state = .HeaderRunning ∨ m.state = .Payload)
    (hlen : (mpq_fsm (.her h0) m).length = m.length + 1) (hne : cur ≠ []) (hph : Phase m cur) :
    Phase (mpq_fsm (.her h0) m) (cur ++ [h0]) := by
  rw [Phase, state_her_more hst, hlen, in_flight_her, List.length_append, List.length_singleton,
    has_header_append hne, has_completion_append hne]
  rcases hst with hs | hs | hs <;> simp only [Phase, hs] at hph <;> rw [hs]
  · exact ⟨by omega, hph.2⟩
  · exact ⟨by omega, hph.2⟩
  · exact ⟨by omega, fun _ => Nat.succ_pos _⟩

end More

/-- A further HER of an open message. -/
theorem Inv.her_more (h : Inv i q) (hq : q.mpq.state ≠ .Free) (hne : q.log.cur ≠ [])
    (ho : closed q.log.cur = false) (hlt : q.mpq.length + 1 < 2 ^ MPQ_CNT_W) :
    Inv i (q.her h0) := by
  have hst := h.state_of_open hq ho
  have hlen : (mpq_fsm (.her h0) q.mpq).length = q.mpq.length + 1 := by
    rw [length_her, Counter.inc_eq hlt]
  have hlog : q.log.her h0 = { q.log with cur := q.log.cur ++ [h0] } := by
    rw [Log.her, ho, if_neg Bool.false_ne_true]
  refine
    { phase := ?_, busy := ?_, first := ?_, completion := ?_, eom_seen := ?_, fifo := ?_,
      sent := ?_, answered_lt := h.answered_lt_her h0, in_flight := h.balance_her h0,
      settled := ?_, past := ?_, length_lt := length_her_lt _,
      in_flight_lt := h.in_flight_her_lt h0 }
  · show Phase (mpq_fsm (.her h0) q.mpq) (q.log.her h0).cur
    rw [hlog]
    exact phase_her_more hst hlen hne h.phase
  · intro _
    show (q.log.her h0).cur ≠ []
    rw [hlog]
    exact List.append_ne_nil_of_left_ne_nil hne _
  · intro _
    show (q.log.her h0).cur.head?.map (·.mpq_meta)
      = some (if mpq_busy q.mpq then q.mpq_meta else h0.mpq_meta)
    have hb : mpq_busy q.mpq = true := bne_iff_ne.mpr hq
    rw [hlog, hb, if_pos rfl, List.head?_append_of_ne_nil _ hne]
    exact h.first hq
  · intro _
    show (mpq_fsm (.her h0) q.mpq).has_completion = has_completion (q.log.her h0).cur
    rw [hlog, has_completion_her_more hst, has_completion_append hne]
    exact h.completion hq
  · show (mpq_fsm (.her h0) q.mpq).eom_seen = ((mpq_fsm (.her h0) q.mpq).state != .Free
      && closed (q.log.her h0).cur)
    have hbusy : (mpq_fsm (.her h0) q.mpq).state ≠ .Free := by rwa [state_her_more hst]
    rw [hlog, mpq_fsm_eom_seen_busy hbusy, bne_iff_ne.mpr hbusy, closed_concat, h.eom_seen, ho,
      Bool.and_false, Bool.or_false]
    rfl
  · show q.fifo ++ [pkt_of h0] = ((q.log.her h0).cur.drop
      ((q.log.her h0).cur.length - held (mpq_fsm (.her h0) q.mpq))).map pkt_of
    -- the packet goes behind those that wait already
    have hsub : (q.log.cur ++ [h0]).length - (held q.mpq + 1)
        = q.log.cur.length - held q.mpq := by
      rw [List.length_append, List.length_singleton]
      omega
    rw [hlog, held_her_more hst hlen, hsub, List.drop_append_of_le_length (Nat.sub_le _ _),
      List.map_append, h.fifo, List.map_singleton]
  · show (q.log.her h0).sent = (q.log.her h0).base i ++ tasks_for i (q.log.her h0).cur
      (served (mpq_fsm (.her h0) q.mpq) (q.log.her h0).cur)
    rw [hlog, served_her_more hst hlen hne, tasks_for_concat hne ho (served_subset hst)]
    exact h.sent
  · intro k hk
    show k ∈ (q.log.her h0).answered
    rw [Log.her_answered]
    refine h.settled k ?_
    have hk' : k < ((q.log.her h0).base i).length
      + Queue.settled (mpq_fsm (.her h0) q.mpq) (q.log.her h0).cur := hk
    rw [hlog, settled_her_more hst hne] at hk'
    exact hk'
  · show ∀ m ∈ (q.log.her h0).past, m ≠ [] ∧ closed m = true
    rw [hlog]
    exact h.past

/-- **A request keeps the invariant.** -/
theorem Inv.her (h : Inv i q) (ha : q.Accepts) (hlt : q.mpq.length + 1 < 2 ^ MPQ_CNT_W) :
    Inv i (q.her h0) := by
  by_cases hq : q.mpq.state = .Free
  · exact h.her_first hq hlt
  · obtain ⟨hne, ho⟩ := ha.resolve_left hq
    exact h.her_more hq hne ho hlt

end Her

end Queue

end Pspin
