/-
`mpq_fsm`: the combinational next state of one message queue.

A queue can see three events in one cycle: a new handler execution request, the
grant of its next task, and a feedback. The engine instantiates the FSM once for
each event source, with all three event inputs connected.

`mpq_fsm_seq` takes the cycle apart: on the event patterns a queue can really see,
the three events together do what the feedback, then the grant, then the request
do one after another. The proofs about runs look at one event at a time.
-/
import Pspin.Config
import Pspin.Counter

set_option autoImplicit false

namespace Pspin

/-- The event inputs of `mpq_fsm`, and the facts about the new HER. -/
structure mpq_event_t where
  her_new_i : Bool
  task_sent_i : Bool
  feedback_i : Bool
  her_new_has_hh_i : Bool
  her_new_has_th_i : Bool
  her_new_is_eom_i : Bool
deriving DecidableEq

namespace mpq_event_t

/-- Something happens to the queue. -/
def update_o (e : mpq_event_t) : Bool := e.her_new_i || e.task_sent_i || e.feedback_i

/-- The same cycle with the feedback alone. -/
def only_feedback (e : mpq_event_t) : mpq_event_t :=
  { e with her_new_i := false, task_sent_i := false }

/-- The same cycle with the grant alone. -/
def only_sent (e : mpq_event_t) : mpq_event_t :=
  { e with her_new_i := false, feedback_i := false }

/-- The same cycle with the request alone. -/
def only_her (e : mpq_event_t) : mpq_event_t :=
  { e with task_sent_i := false, feedback_i := false }

end mpq_event_t

/-- One queue asks for a grant. -/
def mpq_valid (q : mpq_t) : Bool :=
  q.state == .Header || (q.state == .Payload && decide (0 < q.length)) || q.state == .Completion

/-- The queue has a message. -/
def mpq_busy (q : mpq_t) : Bool := q.state != .Free

namespace mpq_fsm

variable (e : mpq_event_t) (q : mpq_t)

@[simp] def length : ℕ :=
  let pushing_her := e.her_new_i
  let popping_her := e.task_sent_i && q.state == .Payload
  if pushing_her && !popping_her then Counter.inc MPQ_CNT_W q.length
  else if !pushing_her && popping_her then Counter.dec MPQ_CNT_W q.length
  else q.length

@[simp] def in_flight : ℕ :=
  if e.task_sent_i && !e.feedback_i then Counter.inc MPQ_CNT_W q.in_flight
  else if !e.task_sent_i && e.feedback_i then Counter.dec MPQ_CNT_W q.in_flight
  else q.in_flight

@[simp] def state : mpq_state_t :=
  match q.state with
  | .Free =>
    if e.her_new_i then (if e.her_new_has_hh_i then .Header else .Payload) else .Free
  | .Header => if e.task_sent_i then .HeaderRunning else .Header
  | .HeaderRunning => if e.feedback_i then .Payload else .HeaderRunning
  | .Payload =>
    if e.task_sent_i && q.eom_seen && q.length == 1 then .PayloadDraining else .Payload
  | .PayloadDraining =>
    if e.feedback_i && q.in_flight == 1 then (if q.has_completion then .Completion else .Free)
    else .PayloadDraining
  | .Completion => if e.task_sent_i then .CompletionRunning else .Completion
  | .CompletionRunning => if e.feedback_i then .Free else .CompletionRunning

@[simp] def has_completion : Bool :=
  if q.state == .Free && e.her_new_i then e.her_new_has_th_i else q.has_completion

/-- Set by the EOM, and cleared on the way to `Free`. -/
@[simp] def eom_seen : Bool :=
  if state e q == .Free then false
  else if e.her_new_i && e.her_new_is_eom_i then true else q.eom_seen

end mpq_fsm

/-- The combinational block of `mpq_fsm`: the registers of a queue after the events of a cycle. -/
def mpq_fsm (e : mpq_event_t) (q : mpq_t) : mpq_t where
  state := mpq_fsm.state e q
  length := mpq_fsm.length e q
  in_flight := mpq_fsm.in_flight e q
  has_completion := mpq_fsm.has_completion e q
  eom_seen := mpq_fsm.eom_seen e q

/-! ## Taking a cycle apart -/

/-- The event patterns a queue sees while its message keeps the protocol: a grant only
where the queue asks for one, a feedback only with a task in flight, and a request only
to a free queue or behind a message still open. -/
structure mpq_event_t.Fits (e : mpq_event_t) (q : mpq_t) : Prop where
  sent : e.task_sent_i = true → mpq_valid q = true
  feedback : e.feedback_i = true → 0 < q.in_flight
  idle : q.state = .Free ∨ q.state = .Header ∨ q.state = .Completion → q.in_flight = 0
  her : e.her_new_i = true → q.state = .Free
    ∨ ((q.state = .Header ∨ q.state = .HeaderRunning ∨ q.state = .Payload) ∧ q.eom_seen = false)
  length_lt : q.length < 2 ^ MPQ_CNT_W
  in_flight_lt : q.in_flight < 2 ^ MPQ_CNT_W

/-- The phases in which a queue asks for the arbiter. -/
theorem mpq_valid_iff {q : mpq_t} : mpq_valid q = true
    ↔ q.state = .Header ∨ (q.state = .Payload ∧ 0 < q.length) ∨ q.state = .Completion := by
  simp [mpq_valid, or_assoc]

section Seq

variable {e : mpq_event_t} {q : mpq_t}

/-- Where nothing is in flight no feedback comes. -/
theorem mpq_event_t.Fits.no_feedback (h : e.Fits q)
    (hq : q.state = .Free ∨ q.state = .Header ∨ q.state = .Completion) : e.feedback_i = false := by
  by_contra hf
  rw [Bool.not_eq_false] at hf
  have h0 := h.idle hq
  have h1 := h.feedback hf
  omega

theorem mpq_event_t.Fits.no_sent (h : e.Fits q) (hq : mpq_valid q = false) :
    e.task_sent_i = false := by
  by_contra hs
  rw [Bool.not_eq_false] at hs
  rw [h.sent hs] at hq
  exact absurd hq (by decide)

/-- A message that has ended gets no further packet. -/
theorem mpq_event_t.Fits.no_her (h : e.Fits q) (hq : q.state = .PayloadDraining
    ∨ q.state = .Completion ∨ q.state = .CompletionRunning) : e.her_new_i = false := by
  by_contra hh
  rw [Bool.not_eq_false] at hh
  rcases h.her hh with hf | ⟨ho, -⟩ <;> rcases hq with hq | hq | hq <;> simp_all

/-- In the payload phase all three events can come in one cycle. One after the other they do the
same: first the feedback, then the grant, then the HER. -/
theorem mpq_fsm_seq_payload (h : e.Fits q) (hq : q.state = .Payload) : mpq_fsm e q
    = mpq_fsm e.only_her (mpq_fsm e.only_sent (mpq_fsm e.only_feedback q)) := by
  have hlen := Counter.inc_dec h.length_lt
  have hfl := Counter.inc_dec h.in_flight_lt
  -- the EOM arrives behind the last payload, never in the cycle that sends it
  have hopen : e.her_new_i = true → q.eom_seen = false := by
    intro hh
    rcases h.her hh with hc | ⟨-, hc⟩
    · rw [hq] at hc
      exact absurd hc (by simp)
    · exact hc
  obtain ⟨her, sent, fb, hh, th, eom⟩ := e
  obtain ⟨state, length, in_flight, hc, seen⟩ := q
  simp only at hlen hfl hopen hq
  subst hq
  by_cases hlast : seen = true ∧ length = 1
  · obtain ⟨rfl, rfl⟩ := hlast
    obtain rfl : her = false := by
      by_contra hc
      exact absurd (hopen (by simpa using hc)) (by simp)
    cases sent <;> cases fb <;>
      simp [mpq_fsm, mpq_event_t.only_her, mpq_event_t.only_sent, mpq_event_t.only_feedback, hfl]
  · cases sent <;> cases fb <;> cases her <;>
      simp [mpq_fsm, mpq_event_t.only_her, mpq_event_t.only_sent, mpq_event_t.only_feedback,
        hlast, hlen, hfl]

/-- **One cycle is three.** On the events a queue can see, the FSM does what the
feedback, the grant and the request do one after another. -/
theorem mpq_fsm_seq (h : e.Fits q) (hfree : q.state = .Free → q.eom_seen = false) : mpq_fsm e q
    = mpq_fsm e.only_her (mpq_fsm e.only_sent (mpq_fsm e.only_feedback q)) := by
  -- `Payload` is the one state in which all three events can meet
  by_cases hq : q.state = .Payload
  · exact mpq_fsm_seq_payload h hq
  obtain ⟨her, sent, fb, hh, th, eom⟩ := e
  obtain ⟨state, length, in_flight, hc, seen⟩ := q
  unfold mpq_event_t.only_her mpq_event_t.only_sent mpq_event_t.only_feedback
  cases state with
  | Free =>
      obtain rfl : fb = false := h.no_feedback (Or.inl rfl)
      obtain rfl : sent = false := h.no_sent rfl
      obtain rfl : seen = false := hfree rfl
      cases her <;> cases hh <;> rfl
  | Header =>
      obtain rfl : fb = false := h.no_feedback (Or.inr (Or.inl rfl))
      cases sent <;> cases her <;> simp [mpq_fsm]
  | HeaderRunning =>
      obtain rfl : sent = false := h.no_sent rfl
      cases fb <;> cases her <;> simp [mpq_fsm]
  | Payload => exact absurd rfl hq
  | PayloadDraining =>
      obtain rfl : sent = false := h.no_sent rfl
      obtain rfl : her = false := h.no_her (Or.inl rfl)
      by_cases hone : in_flight = 1
      · cases fb <;> cases hc <;> simp [mpq_fsm, hone]
      · cases fb <;> simp [mpq_fsm, hone]
  | Completion =>
      obtain rfl : fb = false := h.no_feedback (Or.inr (Or.inr rfl))
      obtain rfl : her = false := h.no_her (Or.inr (Or.inl rfl))
      cases sent <;> simp [mpq_fsm]
  | CompletionRunning =>
      obtain rfl : sent = false := h.no_sent rfl
      obtain rfl : her = false := h.no_her (Or.inr (Or.inr rfl))
      cases fb <;> simp [mpq_fsm]

end Seq

/-! ## One event at a time -/

namespace mpq_event_t

/-- A cycle with nothing but a feedback, a grant, or the request `h`. -/
def feedback : mpq_event_t := ⟨false, false, true, false, false, false⟩

/-- A grant and nothing else. -/
def sent : mpq_event_t := ⟨false, true, false, false, false, false⟩

/-- A HER and nothing else. -/
def her (h : her_descr_t) : mpq_event_t :=
  ⟨true, false, false, h.mpq_meta.hh_addr != 0, h.mpq_meta.th_addr != 0, h.eom⟩

end mpq_event_t

section Single

variable {e : mpq_event_t} {q : mpq_t}

/-- A cycle without an event changes nothing. -/
theorem mpq_fsm_idle (hfree : q.state = .Free → q.eom_seen = false) (hh : e.her_new_i = false)
    (hs : e.task_sent_i = false) (hf : e.feedback_i = false) : mpq_fsm e q = q := by
  obtain ⟨state, length, in_flight, hc, seen⟩ := q
  cases state <;> simp_all [mpq_fsm]

theorem mpq_fsm_only_feedback (hfree : q.state = .Free → q.eom_seen = false) :
    mpq_fsm e.only_feedback q = if e.feedback_i then mpq_fsm .feedback q else q := by
  split_ifs with hf
  · simp [mpq_fsm, mpq_event_t.only_feedback, mpq_event_t.feedback, hf]
  · exact mpq_fsm_idle hfree rfl rfl (by simpa [mpq_event_t.only_feedback] using hf)

theorem mpq_fsm_only_sent (hfree : q.state = .Free → q.eom_seen = false) :
    mpq_fsm e.only_sent q = if e.task_sent_i then mpq_fsm .sent q else q := by
  split_ifs with hs
  · simp [mpq_fsm, mpq_event_t.only_sent, mpq_event_t.sent, hs]
  · exact mpq_fsm_idle hfree rfl (by simpa [mpq_event_t.only_sent] using hs) rfl

/-- Without a request the EOM flag stays, and is cleared on the way to `Free`. -/
theorem mpq_fsm_eom_seen (hh : e.her_new_i = false) :
    (mpq_fsm e q).eom_seen = ((mpq_fsm e q).state != .Free && q.eom_seen) := by
  show mpq_fsm.eom_seen e q = (mpq_fsm.state e q != .Free && q.eom_seen)
  rw [mpq_fsm.eom_seen, hh, Bool.false_and, if_neg Bool.false_ne_true]
  by_cases hs : mpq_fsm.state e q = .Free
  · rw [hs]
    rfl
  · rw [if_neg (by simpa only [beq_iff_eq] using hs), bne_iff_ne.mpr hs, Bool.true_and]

/-- In use the EOM flag is set by the EOM and stays. -/
theorem mpq_fsm_eom_seen_busy (hs : (mpq_fsm e q).state ≠ .Free) :
    (mpq_fsm e q).eom_seen = (e.her_new_i && e.her_new_is_eom_i || q.eom_seen) := by
  have hs' : ¬ (mpq_fsm.state e q == .Free) = true := fun hc => hs (beq_iff_eq.mp hc)
  show mpq_fsm.eom_seen e q = _
  rw [mpq_fsm.eom_seen, if_neg hs']
  cases e.her_new_i && e.her_new_is_eom_i <;> rfl

end Single

end Pspin
