/-
Who holds a packet, whatever the messages are.

The invariant of `MpqQueue` needs one message at a time on a queue. What is here does
not: a HER may arrive in any state of its queue, also behind the EOM of another message.
Still the counters count (`Tally`), and every packet is in exactly one pair of hands:
in the FIFO, or with one task that waits for its feedback and will trigger the packet's
(`custody`). A task that does not trigger has its packet at the front of the FIFO
(`Parked`), so whoever uses a packet shows in its custody.
-/
import Mathlib.Data.List.Count
import Pspin.MpqCycle

set_option autoImplicit false

namespace Pspin

/-! ## The counters -/

/-- What a state says about the counters, without any message. -/
def Stage (q : mpq_t) : Prop :=
  match q.state with
  | .Free => q.in_flight = 0
  | .Header => q.in_flight = 0 ∧ 0 < q.length
  | .HeaderRunning => q.in_flight = 1 ∧ 0 < q.length
  | .Payload => True
  | .PayloadDraining => 0 < q.in_flight
  | .Completion => q.in_flight = 0 ∧ q.has_completion = true
  | .CompletionRunning => q.in_flight = 1

/-- A completion is only waited for where the message has one. -/
theorem Stage.completion {q : mpq_t} (h : Stage q) (hq : q.state = .Completion) :
    q.has_completion = true := by
  rw [Stage, hq] at h
  exact h.2

/-- The grant of a cycle was asked for, and the length has room. Nothing is said about
feedbacks. -/
structure mpq_event_t.Asked (e : mpq_event_t) (q : mpq_t) : Prop where
  sent : e.task_sent_i = true → mpq_valid q = true
  room : e.her_new_i = true → q.length + 1 < 2 ^ MPQ_CNT_W
  length_lt : q.length < 2 ^ MPQ_CNT_W

/-- The events of a cycle respect the counters. -/
structure mpq_event_t.Counted (e : mpq_event_t) (q : mpq_t) : Prop where
  sent : e.task_sent_i = true → mpq_valid q = true
  feedback : e.feedback_i = true → 0 < q.in_flight
  bound : e.task_sent_i = true →
    q.in_flight + 1 < 2 ^ MPQ_CNT_W + if e.feedback_i then 1 else 0
  room : e.her_new_i = true → q.length + 1 < 2 ^ MPQ_CNT_W
  length_lt : q.length < 2 ^ MPQ_CNT_W
  in_flight_lt : q.in_flight < 2 ^ MPQ_CNT_W

section Counters

variable {e : mpq_event_t} {q : mpq_t}

theorem mpq_event_t.Counted.asked (h : e.Counted q) : e.Asked q := ⟨h.sent, h.room, h.length_lt⟩

/-- The length counts the requests and the payload grants, and does not wrap. -/
theorem mpq_fsm_length (h : e.Asked q) :
    (mpq_fsm e q).length + (if e.task_sent_i && q.state == .Payload then 1 else 0)
      = q.length + if e.her_new_i then 1 else 0 := by
  have hpop : (e.task_sent_i && q.state == .Payload) = true → 0 < q.length := by
    rw [Bool.and_eq_true, beq_iff_eq]
    rintro ⟨hs, hq⟩
    have hv := mpq_valid_iff.mp (h.sent hs)
    simpa [hq] using hv
  have hroom := h.room
  show mpq_fsm.length e q + _ = _
  unfold mpq_fsm.length
  generalize (e.task_sent_i && q.state == .Payload) = pop at hpop ⊢
  generalize e.her_new_i = her at hroom ⊢
  cases her
  · cases pop
    · rfl
    · have hdec := Counter.dec_eq (hpop rfl) h.length_lt
      have hpos := hpop rfl
      simp only [Bool.false_and, Bool.not_false, Bool.and_self, if_true, hdec]
      exact Nat.sub_add_cancel hpos
  · cases pop
    · exact Counter.inc_eq (hroom rfl)
    · -- a packet in and a packet out: the length stays
      rfl

/-- The counter of the tasks in flight counts the grants and the feedbacks. -/
theorem mpq_fsm_in_flight (h : e.Counted q) :
    (mpq_fsm e q).in_flight + (if e.feedback_i then 1 else 0)
      = q.in_flight + if e.task_sent_i then 1 else 0 := by
  have hpos := h.feedback
  have hbound := h.bound
  show mpq_fsm.in_flight e q + _ = _
  unfold mpq_fsm.in_flight
  generalize e.feedback_i = fb at hpos hbound ⊢
  generalize e.task_sent_i = sent at hbound ⊢
  cases fb
  · cases sent
    · rfl
    · exact Counter.inc_eq (hbound rfl)
  · cases sent
    · have hdec := Counter.dec_eq (hpos rfl) h.in_flight_lt
      simp only [Bool.false_and, Bool.not_false, Bool.and_self, if_true, hdec]
      exact Nat.sub_add_cancel (hpos rfl)
    · rfl

/-- The packets in the FIFO: one less for a last carrier, one more for a request. -/
theorem mpq_fsm_held (h : e.Asked q) (hst : q.state = .Completion → q.has_completion = true) :
    Queue.held (mpq_fsm e q) + (if e.task_sent_i && last_carrier q then 1 else 0)
      = Queue.held q + if e.her_new_i then 1 else 0 := by
  have hlen := mpq_fsm_length h
  have hval := h.sent
  have hc : (mpq_fsm e q).has_completion = mpq_fsm.has_completion e q := rfl
  have hs : (mpq_fsm e q).state = mpq_fsm.state e q := rfl
  unfold Queue.held last_carrier
  rw [hc, hs]
  unfold mpq_valid at hval
  cases hq : q.state with
  | Free | Header | HeaderRunning | CompletionRunning =>
    -- no packet is parked, before or after
    simp only [hq] at hlen hval
    simp [hq] at hlen hval ⊢
    split_ifs <;> simp_all
  | Payload =>
    simp only [hq] at hlen hval
    by_cases hlast : e.task_sent_i = true ∧ q.eom_seen = true ∧ q.length = 1
    · obtain ⟨hsent, heom, hone⟩ := hlast
      simp [hq, hsent, heom, hone] at hlen ⊢
      cases q.has_completion <;> simp <;> omega
    · have hstay : (e.task_sent_i && q.eom_seen && q.length == 1) = false := by
        rw [Bool.eq_false_iff]
        simpa [and_assoc] using hlast
      cases hsent : e.task_sent_i
      · simp [hq, hsent] at hlen ⊢
        exact hlen
      · rw [hsent, Bool.true_and] at hstay
        simp [hq, hsent, hstay] at hlen ⊢
        exact hlen
  | PayloadDraining =>
    simp only [hq] at hlen hval
    simp [hq] at hlen hval ⊢
    cases hm : q.has_completion <;> split_ifs <;> simp_all
  | Completion =>
    simp only [hq] at hlen hval
    simp [hq, hst hq] at hlen ⊢
    split_ifs <;> simp_all

/-- With nothing in flight there is no feedback. -/
theorem mpq_event_t.Counted.no_feedback (h : e.Counted q) (hz : q.in_flight = 0) :
    e.feedback_i = false := by
  rw [Bool.eq_false_iff]
  intro hc
  have := h.feedback hc
  omega

/-- A queue that does not ask is not granted. -/
theorem mpq_event_t.Counted.not_sent (h : e.Counted q) (hv : mpq_valid q = false) :
    e.task_sent_i = false := by
  rw [Bool.eq_false_iff]
  intro hc
  have hask := h.sent hc
  rw [hv] at hask
  exact Bool.false_ne_true hask

/-- What the states say survives a cycle. -/
theorem mpq_fsm_stage (h : e.Counted q) (hst : Stage q) : Stage (mpq_fsm e q) := by
  have hlen := mpq_fsm_length h.asked
  have hfl := mpq_fsm_in_flight h
  have hs : (mpq_fsm e q).state = mpq_fsm.state e q := rfl
  have hc : (mpq_fsm e q).has_completion = mpq_fsm.has_completion e q := rfl
  unfold Stage at hst ⊢
  rw [hs, hc]
  generalize mpq_fsm e q = d at hlen hfl ⊢
  unfold mpq_fsm.state mpq_fsm.has_completion
  cases hq : q.state with
  | Free =>
      simp only [hq] at hlen hst ⊢
      rw [h.not_sent (by simp [mpq_valid, hq])] at hlen hfl
      rw [h.no_feedback hst] at hfl
      cases hh : e.her_new_i
      · simpa [hh, hst] using hfl
      · cases e.her_new_has_hh_i
        · trivial
        · simp [hh, hst] at hlen hfl ⊢
          omega
  | Header =>
      simp only [hq] at hlen hst ⊢
      rw [h.no_feedback hst.1] at hfl
      cases hsent : e.task_sent_i <;> simp [hsent, hst.1] at hlen hfl ⊢ <;> omega
  | HeaderRunning =>
      simp only [hq] at hlen hst ⊢
      rw [h.not_sent (by simp [mpq_valid, hq])] at hlen hfl
      cases hf : e.feedback_i
      · simp [hf, hst.1] at hlen hfl ⊢
        omega
      · trivial
  | Payload =>
      simp only [hq] at hlen hst ⊢
      cases hlast : (e.task_sent_i && q.eom_seen && q.length == 1)
      · trivial
      · -- a task is on its way, whatever feedback came
        have hsent : e.task_sent_i = true := by simp_all
        have hfb := h.feedback
        simp only [hsent, if_true] at hfl ⊢
        split_ifs at hfl <;> simp at hfl ⊢
        · have := hfb ‹_›
          omega
        · omega
  | PayloadDraining =>
      simp only [hq] at hlen hst ⊢
      rw [h.not_sent (by simp [mpq_valid, hq])] at hlen hfl
      by_cases hend : (e.feedback_i && q.in_flight == 1) = true
      · rw [Bool.and_eq_true, beq_iff_eq] at hend
        simp only [hend.1, hend.2, if_true] at hfl ⊢
        cases hm : q.has_completion <;> simp at hfl ⊢ <;> simp_all
      · -- other feedbacks are still to come
        rw [if_neg hend]
        rw [Bool.and_eq_true, beq_iff_eq, not_and] at hend
        cases hf : e.feedback_i
        · simp [hf] at hfl ⊢
          omega
        · have := hend hf
          simp [hf] at hfl ⊢
          omega
  | Completion =>
      simp only [hq] at hlen hst ⊢
      rw [h.no_feedback hst.1] at hfl
      cases hsent : e.task_sent_i <;> simp [hsent, hst] at hfl ⊢ <;> omega
  | CompletionRunning =>
      simp only [hq] at hlen hst ⊢
      rw [h.not_sent (by simp [mpq_valid, hq])] at hlen hfl
      cases hf : e.feedback_i <;> simp [hf, hst] at hfl ⊢ <;> omega

/-- A queue that is not granted keeps asking. -/
theorem mpq_fsm_valid (h : e.Asked q) (hs : e.task_sent_i = false)
    (hv : mpq_valid q = true) : mpq_valid (mpq_fsm e q) = true := by
  have hlen := mpq_fsm_length h
  have hstate : (mpq_fsm e q).state = mpq_fsm.state e q := rfl
  rw [hs, Bool.false_and, if_neg Bool.false_ne_true] at hlen
  rw [mpq_valid_iff, hstate]
  rcases mpq_valid_iff.mp hv with hq | ⟨hq, hpos⟩ | hq
  · exact Or.inl (by simp [hq, hs])
  · exact Or.inr (Or.inl ⟨by simp [hq, hs], by omega⟩)
  · exact Or.inr (Or.inr (by simp [hq, hs]))

end Counters

/-! ## Waiting tasks -/

namespace Log

variable {p : sent_t → Bool} {l : Log}

/-- The tasks that wait for their feedback, of those `p` picks. -/
def waiting (p : sent_t → Bool) (l : Log) : Finset ℕ :=
  l.outstanding.filter fun n => (l.sent[n]?).any p

theorem mem_waiting {n : ℕ} :
    n ∈ l.waiting p ↔ n ∉ l.answered ∧ ∃ t, l.sent[n]? = some t ∧ p t = true := by
  unfold waiting outstanding
  rw [Finset.mem_filter, Finset.mem_sdiff, Finset.mem_range, Option.any_eq_true]
  constructor
  · rintro ⟨⟨-, hn⟩, t, ht, hp⟩
    exact ⟨hn, t, ht, hp⟩
  · rintro ⟨hn, t, ht, hp⟩
    exact ⟨⟨(List.getElem?_eq_some_iff.mp ht).1, hn⟩, t, ht, hp⟩

@[simp] theorem waiting_her (h : her_descr_t) : (l.her h).waiting p = l.waiting p := by
  simp [waiting, outstanding]

/-- A feedback ends the wait of its task. -/
theorem card_waiting_answer {n : ℕ} (hn : l.Outstanding n) :
    ((l.answer n).waiting p).card + (if (l.sent[n]?).any p then 1 else 0)
      = (l.waiting p).card := by
  have herase : (l.answer n).waiting p = (l.waiting p).erase n := by
    ext k
    rw [Finset.mem_erase, mem_waiting, mem_waiting, answer, Finset.mem_insert, not_or, and_assoc]
  rw [herase]
  split_ifs with ht
  · obtain ⟨t, ht, hp⟩ := (Option.any_eq_true _ _).mp ht
    exact Finset.card_erase_add_one (mem_waiting.mpr ⟨hn.2, t, ht, hp⟩)
  · rw [Finset.erase_eq_of_notMem, Nat.add_zero]
    rw [mem_waiting]
    rintro ⟨-, t, ht', hp⟩
    exact ht ((Option.any_eq_true _ _).mpr ⟨t, ht', hp⟩)

/-- A grant adds a task that waits. -/
theorem card_waiting_send (hlt : ∀ k ∈ l.answered, k < l.sent.length) (t : sent_t) :
    ((l.send t).waiting p).card = (l.waiting p).card + if p t then 1 else 0 := by
  have hnew : l.sent.length ∉ l.answered := fun hc => lt_irrefl _ (hlt _ hc)
  have hout : l.sent.length ∉ l.waiting p := by
    rw [mem_waiting]
    rintro ⟨-, t', ht', -⟩
    exact lt_irrefl _ (List.getElem?_eq_some_iff.mp ht').1
  have hins : (l.send t).waiting p
      = if p t then insert l.sent.length (l.waiting p) else l.waiting p := by
    ext k
    have hmem : k ∈ (l.send t).waiting p
        ↔ k ∈ l.waiting p ∨ (k = l.sent.length ∧ p t = true) := by
      rw [mem_waiting, mem_waiting, send]
      -- old numbers keep their task, the new one has `t`, beyond there is nothing
      rcases Nat.lt_trichotomy k l.sent.length with hk | rfl | hk
      · rw [List.getElem?_append_left hk]
        simp [hk.ne]
      · simp [hnew]
      · rw [List.getElem?_eq_none (by simp; omega), List.getElem?_eq_none (by omega)]
        simp [hk.ne']
    rw [hmem]
    split_ifs with hp
    · rw [Finset.mem_insert, and_iff_left hp, or_comm]
    · rw [Bool.not_eq_true] at hp
      simp [hp]
  rw [hins]
  split_ifs
  · exact Finset.card_insert_of_notMem hout
  · rfl

end Log

/-! ## One cycle of a queue, without the protocol -/

namespace Queue

variable {i : Fin NUM_MPQ} {q : Queue} {e : Events} {m : mpq_event_t}

/-- The counters of a queue count its packets and its tasks. -/
structure Tally (q : Queue) : Prop where
  stage : Stage q.mpq
  fifo : q.fifo.length = held q.mpq
  free_eom_seen : q.mpq.state = .Free → q.mpq.eom_seen = false
  answered_lt : ∀ k ∈ q.log.answered, k < q.log.sent.length
  in_flight : q.mpq.in_flight + q.log.answered.card = q.log.sent.length
  length_lt : q.mpq.length < 2 ^ MPQ_CNT_W
  in_flight_lt : q.mpq.in_flight < 2 ^ MPQ_CNT_W

theorem clock_sent : (q.clock i m e).log.sent
    = if e.sent then q.log.sent ++ [q.next_task i] else q.log.sent := by
  unfold clock
  cases e.feedback <;> cases e.sent <;> cases e.her <;> simp [Log.answer, Log.send]

theorem clock_answered : (q.clock i m e).log.answered
    = match e.feedback with
      | some k => insert k q.log.answered
      | none => q.log.answered := by
  unfold clock
  cases e.feedback <;> cases e.sent <;> cases e.her <;> simp [Log.answer, Log.send]

theorem length_clock_sent :
    (q.clock i m e).log.sent.length = q.log.sent.length + if e.sent then 1 else 0 := by
  rw [clock_sent]
  split_ifs
  · rw [List.length_append, List.length_singleton]
  · rfl

theorem card_clock_answered (ok : Fair q e) : (q.clock i m e).log.answered.card
    = q.log.answered.card + if e.feedback.isSome then 1 else 0 := by
  rw [clock_answered]
  cases hf : e.feedback with
  | none => rfl
  | some k => exact Finset.card_insert_of_notMem (ok.feedback k hf).2

theorem length_clock_fifo (hne : e.sent = true → q.fifo ≠ []) :
    (q.clock i m e).fifo.length + (if e.sent && last_carrier q.mpq then 1 else 0)
      = q.fifo.length + if e.her.isSome then 1 else 0 := by
  have hpop : (e.sent && last_carrier q.mpq) = true → 0 < q.fifo.length := by
    rw [Bool.and_eq_true]
    exact fun hp => List.length_pos_iff.mpr (hne hp.1)
  have hher : (e.her.map pkt_of).toList.length = if e.her.isSome then 1 else 0 := by
    cases e.her <;> rfl
  unfold clock
  rw [List.length_append, hher]
  by_cases hp : (e.sent && last_carrier q.mpq) = true
  · have := hpop hp
    rw [if_pos hp, if_pos hp, List.length_tail]
    omega
  · rw [if_neg hp, if_neg hp, Nat.add_zero]

namespace Tally

theorem in_flight_pos (h : Tally q) {k : ℕ} (hk : q.log.Outstanding k) : 0 < q.mpq.in_flight := by
  have hsub : insert k q.log.answered ⊆ Finset.range q.log.sent.length := by
    intro j hj
    rcases Finset.mem_insert.mp hj with rfl | hj
    · exact Finset.mem_range.mpr hk.1
    · exact Finset.mem_range.mpr (h.answered_lt j hj)
  have hcard := Finset.card_le_card hsub
  rw [Finset.card_insert_of_notMem hk.2, Finset.card_range] at hcard
  have := h.in_flight
  omega

/-- With one task in flight, that one is all that is outstanding. -/
theorem outstanding_unique (h : Tally q) (h1 : q.mpq.in_flight = 1) {j k : ℕ}
    (hj : q.log.Outstanding j) (hk : q.log.Outstanding k) : j = k := by
  by_contra hne
  have hsub : insert j (insert k q.log.answered) ⊆ Finset.range q.log.sent.length := by
    intro x hx
    rcases Finset.mem_insert.mp hx with rfl | hx
    · exact Finset.mem_range.mpr hj.1
    · rcases Finset.mem_insert.mp hx with rfl | hx
      · exact Finset.mem_range.mpr hk.1
      · exact Finset.mem_range.mpr (h.answered_lt x hx)
  have hcard := Finset.card_le_card hsub
  have hjn : j ∉ insert k q.log.answered := by
    rw [Finset.mem_insert, not_or]
    exact ⟨hne, hj.2⟩
  rw [Finset.card_insert_of_notMem hjn, Finset.card_insert_of_notMem hk.2, Finset.card_range]
    at hcard
  have := h.in_flight
  omega

theorem length_le_fifo (h : Tally q) : q.mpq.length ≤ q.fifo.length := by
  rw [h.fifo, held]
  exact Nat.le_add_right _ _

theorem counted (h : Tally q) (ok : Fair q e) (hm : e.Drives m) : m.Counted q.mpq where
  sent := fun hs => ok.sent (hm.sent ▸ hs)
  feedback := by
    intro hf
    rw [hm.feedback, Option.isSome_iff_exists] at hf
    obtain ⟨k, hk⟩ := hf
    exact h.in_flight_pos (ok.feedback k hk)
  bound := by
    intro hs
    rw [hm.feedback]
    exact ok.bound (hm.sent ▸ hs)
  room := by
    intro hh
    rw [hm.her, Option.isSome_iff_exists] at hh
    obtain ⟨x, hx⟩ := hh
    have := ok.room x hx
    have := h.length_le_fifo
    omega
  length_lt := h.length_lt
  in_flight_lt := h.in_flight_lt

theorem clock_mpq (h : Tally q) : (q.clock i m e).mpq = mpq_fsm m q.mpq := by
  by_cases hu : m.update_o = true
  · exact if_pos hu
  · have hidle := hu
    simp only [mpq_event_t.update_o, Bool.or_eq_true, not_or, Bool.not_eq_true] at hidle
    rw [mpq_fsm_idle h.free_eom_seen hidle.1.1 hidle.1.2 hidle.2]
    exact if_neg hu

/-- A queue that may be granted has a packet. -/
theorem fifo_ne_nil (h : Tally q) (hv : mpq_valid q.mpq = true) : q.fifo ≠ [] := by
  have hst := h.stage
  rw [← List.length_pos_iff, h.fifo, held]
  unfold Stage at hst
  rcases mpq_valid_iff.mp hv with hq | ⟨-, hpos⟩ | hq
  · simp only [hq] at hst
    omega
  · omega
  · simp only [hq] at hst
    simp [hq, hst.2]

/-- **The counters go on counting.** -/
theorem clock (h : Tally q) (ok : Fair q e) (hm : e.Drives m) : Tally (q.clock i m e) := by
  have hcnt := h.counted ok hm
  have hlen := mpq_fsm_length hcnt.asked
  have hfl := mpq_fsm_in_flight hcnt
  have hheld := mpq_fsm_held hcnt.asked h.stage.completion
  have hin := h.in_flight
  refine ⟨?_, ?_, ?_, ?_, ?_, ?_, ?_⟩
  · rw [h.clock_mpq]
    exact mpq_fsm_stage hcnt h.stage
  · have hfifo := length_clock_fifo (i := i) (m := m) fun hs => h.fifo_ne_nil (ok.sent hs)
    rw [hm.sent, hm.her, ← h.fifo] at hheld
    rw [h.clock_mpq]
    omega
  · intro hfree
    rw [h.clock_mpq] at hfree ⊢
    have hfree' : mpq_fsm.state m q.mpq = .Free := hfree
    show mpq_fsm.eom_seen m q.mpq = false
    rw [mpq_fsm.eom_seen, hfree']
    rfl
  · intro k hk
    rw [length_clock_sent]
    rw [clock_answered] at hk
    -- an answer names a task sent before this cycle
    cases hf : e.feedback with
    | none =>
        rw [hf] at hk
        exact Nat.lt_add_right _ (h.answered_lt k hk)
    | some n =>
        rw [hf] at hk
        rcases Finset.mem_insert.mp hk with rfl | hk
        · exact Nat.lt_add_right _ (ok.feedback _ hf).1
        · exact Nat.lt_add_right _ (h.answered_lt k hk)
  · rw [h.clock_mpq, length_clock_sent, card_clock_answered ok]
    rw [hm.feedback, hm.sent] at hfl
    omega
  · rw [h.clock_mpq]
    have hroom := hcnt.room
    have := h.length_lt
    split_ifs at hlen with _ hh hh
    · have := hroom hh
      omega
    · omega
    · have := hroom hh
      omega
    · omega
  · -- a HER is only accepted with room for one more packet
    rw [h.clock_mpq]
    have hbound := hcnt.bound
    have := h.in_flight_lt
    split_ifs at hfl hbound with _ hs hs
    · have := hbound hs
      omega
    · omega
    · have := hbound hs
      omega
    · omega

end Tally

/-! ## Custody -/

/-- The feedback of the task gives packet `a` back. -/
def gives_back (a : mem_addr_t) (t : sent_t) : Bool :=
  t.task.trigger_feedback && t.task.pkt_addr == a

/-- How often packet `a` is held: by the FIFO, or by a task that will give it back. -/
def custody (q : Queue) (a : mem_addr_t) : ℕ :=
  q.fifo.countP (·.pkt_addr == a) + (q.log.waiting (gives_back a)).card

/-- The feedback of the cycle gives packet `a` back. -/
def Events.gives (e : Events) (q : Queue) (a : mem_addr_t) : Bool :=
  e.feedback.any fun n => (q.log.sent[n]?).any (gives_back a)

/-- The HER of the cycle brings packet `a`. -/
def Events.brings (e : Events) (a : mem_addr_t) : Bool := e.her.any (·.her_addr == a)

theorem gives_back_next_task (a : mem_addr_t) :
    gives_back a (q.next_task i) = (last_carrier q.mpq && q.head.pkt_addr == a) := rfl

/-- The waiting tasks of a cycle: one feedback less, one grant more. -/
theorem card_waiting_clock (h : Tally q) (ok : Fair q e) (p : sent_t → Bool) :
    ((q.clock i m e).log.waiting p).card
        + (if e.feedback.any fun n => (q.log.sent[n]?).any p then 1 else 0)
      = (q.log.waiting p).card + if e.sent && p (q.next_task i) then 1 else 0 := by
  -- the feedback first, then the grant; the request does not touch them
  have hfed : ∃ l : Log, l.sent = q.log.sent
      ∧ (∀ k ∈ l.answered, k < l.sent.length)
      ∧ (l.waiting p).card + (if e.feedback.any fun n => (q.log.sent[n]?).any p then 1 else 0)
        = (q.log.waiting p).card
      ∧ (q.clock i m e).log.waiting p
        = (if e.sent then l.send (q.next_task i) else l).waiting p := by
    cases hf : e.feedback with
    | none =>
        refine ⟨q.log, rfl, h.answered_lt, rfl, ?_⟩
        unfold clock
        rw [hf]
        cases e.her <;> simp
    | some n =>
        refine ⟨q.log.answer n, rfl, ?_, Log.card_waiting_answer (ok.feedback n hf), ?_⟩
        · intro k hk
          rcases Finset.mem_insert.mp hk with rfl | hk
          · exact (ok.feedback _ hf).1
          · exact h.answered_lt k hk
        · unfold clock
          rw [hf]
          cases e.her <;> simp
  obtain ⟨l, -, hlt, hcard, hclock⟩ := hfed
  rw [hclock, ← hcard]
  by_cases hs : e.sent = true
  · rw [if_pos hs, hs, Bool.true_and, Log.card_waiting_send hlt]
    omega
  · rw [if_neg hs, Bool.eq_false_iff.mpr hs, Bool.false_and, if_neg Bool.false_ne_true, Nat.add_zero]

/-- The packets at address `a` in the FIFO: the grant of a last carrier takes one out. -/
theorem countP_clock (a : mem_addr_t) (hne : e.sent = true → q.fifo ≠ []) :
    (q.clock i m e).fifo.countP (·.pkt_addr == a)
        + (if e.sent && gives_back a (q.next_task i) then 1 else 0)
      = q.fifo.countP (·.pkt_addr == a) + if e.brings a then 1 else 0 := by
  have hher : (e.her.map pkt_of).toList.countP (·.pkt_addr == a)
      = if e.brings a then 1 else 0 := by
    unfold Events.brings
    cases e.her with
    | none => rfl
    | some x => exact List.countP_singleton
  unfold clock
  rw [List.countP_append, hher, gives_back_next_task]
  by_cases hp : (e.sent && last_carrier q.mpq) = true
  · rw [if_pos hp, ← Bool.and_assoc, hp, Bool.true_and]
    rw [Bool.and_eq_true] at hp
    obtain ⟨x, l, hl⟩ := List.exists_cons_of_ne_nil (hne hp.1)
    rw [head, hl, List.tail_cons, List.head?_cons, Option.getD_some, List.countP_cons]
    omega
  · rw [if_neg hp, ← Bool.and_assoc, Bool.eq_false_iff.mpr hp, Bool.false_and,
      if_neg Bool.false_ne_true, Nat.add_zero]

/-- **Custody is conserved.** A packet comes with its HER and goes with the feedback of
the task that triggers; a grant only passes it on. -/
theorem Tally.custody_clock (h : Tally q) (ok : Fair q e) (a : mem_addr_t) :
    (q.clock i m e).custody a + (if e.gives q a then 1 else 0)
      = q.custody a + if e.brings a then 1 else 0 := by
  have hwait := card_waiting_clock (i := i) (m := m) h ok (gives_back a)
  have hfifo := countP_clock (i := i) (m := m) a fun hs => h.fifo_ne_nil (ok.sent hs)
  unfold custody Events.gives
  omega

/-! ## Parked packets -/

/-- A waiting task that does not trigger has its packet at the front of the FIFO, and the
queue sends nothing before that task is answered. -/
def Parked (q : Queue) : Prop :=
  ∀ n t, q.log.Outstanding n → q.log.sent[n]? = some t → t.task.trigger_feedback = false →
    (q.mpq.state = .HeaderRunning ∨ (q.mpq.state = .PayloadDraining ∧ q.mpq.has_completion = true))
      ∧ q.fifo.head?.map (·.pkt_addr) = some t.task.pkt_addr

/-- A grant that takes no packet out of the FIFO leads to a state that waits. -/
theorem parks_of_not_last (hs : m.task_sent_i = true) (hv : mpq_valid q.mpq = true)
    (hl : last_carrier q.mpq = false) :
    (mpq_fsm m q.mpq).state = .HeaderRunning
      ∨ ((mpq_fsm m q.mpq).state = .PayloadDraining ∧ (mpq_fsm m q.mpq).has_completion = true) := by
  rcases mpq_valid_iff.mp hv with hq | ⟨hq, -⟩ | hq
  · exact Or.inl (by simp [mpq_fsm, hq, hs])
  · unfold last_carrier at hl
    simp [hq] at hl
    exact Or.inr (by simp [mpq_fsm, hq, hs, hl])
  · unfold last_carrier at hl
    simp [hq] at hl

/-- A waiting state without a feedback for its last task stays. -/
theorem Tally.parked_state (h : Tally q) (ok : Fair q e) (hm : e.Drives m) {n : ℕ}
    (hn : q.log.Outstanding n) (hne : e.feedback ≠ some n)
    (hq : q.mpq.state = .HeaderRunning
      ∨ (q.mpq.state = .PayloadDraining ∧ q.mpq.has_completion = true)) :
    (mpq_fsm m q.mpq).state = q.mpq.state
      ∧ (mpq_fsm m q.mpq).has_completion = q.mpq.has_completion := by
  have hst := h.stage
  unfold Stage at hst
  -- a feedback here would be for the only task in flight
  have hone : q.mpq.in_flight = 1 → m.feedback_i = false := by
    intro h1
    rw [hm.feedback]
    cases hf : e.feedback with
    | none => rfl
    | some k => exact absurd (hf.trans (congrArg some
        (h.outstanding_unique h1 (ok.feedback k hf) hn))) hne
  rcases hq with hq | ⟨hq, hc⟩
  · simp only [hq] at hst
    simp [mpq_fsm, hq, hone hst.1]
  · by_cases h1 : q.mpq.in_flight = 1
    · simp [mpq_fsm, hq, hone h1]
    · simp [mpq_fsm, hq, h1]

theorem Tally.parked_clock (h : Tally q) (ok : Fair q e) (hm : e.Drives m) (hp : Parked q) :
    Parked (q.clock i m e) := by
  intro n t hn ht htrig
  obtain ⟨hlt, hna⟩ := hn
  rw [clock_sent] at ht
  rw [length_clock_sent] at hlt
  rw [clock_answered] at hna
  have hwait : n ∉ q.log.answered ∧ e.feedback ≠ some n := by
    cases hf : e.feedback with
    | none =>
        rw [hf] at hna
        exact ⟨hna, by simp⟩
    | some k =>
        rw [hf, Finset.mem_insert, not_or] at hna
        exact ⟨hna.2, fun hc => hna.1 (Option.some.inj hc).symm⟩
  rcases Nat.lt_or_ge n q.log.sent.length with hold | hnew
  · -- an old task: the queue waits for it
    have ht' : q.log.sent[n]? = some t := by
      split_ifs at ht
      · rwa [List.getElem?_append_left hold] at ht
      · exact ht
    obtain ⟨hstate, hhead⟩ := hp n t ⟨hold, hwait.1⟩ ht' htrig
    obtain ⟨hs, hc⟩ := h.parked_state ok hm ⟨hold, hwait.1⟩ hwait.2 hstate
    have hsent : e.sent = false := by
      rw [Bool.eq_false_iff]
      intro hc'
      rcases mpq_valid_iff.mp (ok.sent hc') with hq | ⟨hq, -⟩ | hq <;> simp [hq] at hstate
    constructor
    · rw [h.clock_mpq, hs, hc]
      exact hstate
    · unfold Queue.clock
      rw [hsent, Bool.false_and, if_neg Bool.false_ne_true]
      rw [List.head?_append]
      cases hq : q.fifo.head? with
      | none => exact absurd hhead (by simp [hq])
      | some x =>
          rw [hq] at hhead
          exact hhead
  · -- the task of this cycle's grant
    by_cases hs : e.sent = true
    · rw [if_pos hs] at ht hlt
      obtain rfl : n = q.log.sent.length := by omega
      rw [List.getElem?_concat_length, Option.some.injEq] at ht
      subst ht
      have hl : last_carrier q.mpq = false := htrig
      constructor
      · rw [h.clock_mpq]
        exact parks_of_not_last (hm.sent.trans hs) (ok.sent hs) hl
      · obtain ⟨x, l, hfifo⟩ := List.exists_cons_of_ne_nil (h.fifo_ne_nil (ok.sent hs))
        unfold Queue.clock
        rw [hl, Bool.and_false, if_neg Bool.false_ne_true, hfifo]
        show some x.pkt_addr = some q.head.pkt_addr
        rw [head, hfifo]
        rfl
    · rw [if_neg hs] at hlt
      omega

/-- **Whoever uses a packet holds it.** Where nobody has custody of a packet, it is in no
FIFO and no task that waits for its feedback carries it. -/
theorem Parked.not_used (hp : Parked q) {a : mem_addr_t} (h0 : q.custody a = 0) :
    (∀ x ∈ q.fifo, x.pkt_addr ≠ a)
      ∧ ∀ n t, q.log.Outstanding n → q.log.sent[n]? = some t → t.task.pkt_addr ≠ a := by
  unfold custody at h0
  have hfifo : ∀ x ∈ q.fifo, x.pkt_addr ≠ a := by
    have hcount : q.fifo.countP (·.pkt_addr == a) = 0 := by omega
    rw [List.countP_eq_zero] at hcount
    exact fun x hx => by simpa using hcount x hx
  refine ⟨hfifo, ?_⟩
  intro n t hn ht ha
  cases htrig : t.task.trigger_feedback
  · -- parked: the packet is the head of the FIFO
    obtain ⟨-, hhead⟩ := hp n t hn ht htrig
    obtain ⟨x, hx, hxa⟩ := Option.map_eq_some_iff.mp hhead
    exact hfifo x (List.mem_of_mem_head? hx) (hxa.trans ha)
  · have hmem : n ∈ q.log.waiting (gives_back a) := by
      refine Log.mem_waiting.mpr ⟨hn.2, t, ht, ?_⟩
      rw [gives_back, htrig, Bool.true_and, beq_iff_eq]
      exact ha
    have := Finset.card_pos.mpr ⟨n, hmem⟩
    omega

/-! ## Packet sizes -/

/-- The sizes the queue goes on with are sizes that `f` allows for the packets. -/
structure Sized (f : mem_addr_t → mem_size_t → Prop) (q : Queue) : Prop where
  fifo : ∀ x ∈ q.fifo, f x.pkt_addr x.pkt_size
  waiting : ∀ n t, q.log.Outstanding n → q.log.sent[n]? = some t →
    f t.task.pkt_addr t.task.pkt_size

variable {f g : mem_addr_t → mem_size_t → Prop}

/-- Only the packets in custody matter. -/
theorem Sized.mono (hs : Sized f q) (hp : Parked q)
    (hfg : ∀ a n, 0 < q.custody a → f a n → g a n) : Sized g q where
  fifo := by
    intro x hx
    refine hfg _ _ (Nat.pos_of_ne_zero fun h0 => ?_) (hs.fifo x hx)
    exact (hp.not_used h0).1 x hx rfl
  waiting := by
    intro n t hn ht
    refine hfg _ _ (Nat.pos_of_ne_zero fun h0 => ?_) (hs.waiting n t hn ht)
    exact (hp.not_used h0).2 n t hn ht rfl

/-- **The size of a packet travels** from its HER to the FIFO and from there to every task
on it. -/
theorem Tally.sized_clock (h : Tally q) (ok : Fair q e) (hs : Sized f q)
    (hher : ∀ x, e.her = some x → f x.her_addr x.xfer_size) : Sized f (q.clock i m e) where
  fifo := by
    intro x hx
    unfold Queue.clock at hx
    rcases List.mem_append.mp hx with hx | hx
    · apply hs.fifo
      split_ifs at hx
      · exact List.mem_of_mem_tail hx
      · exact hx
    · obtain ⟨y, hy, rfl⟩ := Option.map_eq_some_iff.mp (Option.mem_toList.mp hx)
      exact hher y hy
  waiting := by
    intro n t hn ht
    obtain ⟨hlt, hna⟩ := hn
    rw [clock_sent] at ht
    rw [length_clock_sent] at hlt
    have hna' : n ∉ q.log.answered := by
      rw [clock_answered] at hna
      cases hf : e.feedback with
      | none =>
          rw [hf] at hna
          exact hna
      | some k =>
          rw [hf, Finset.mem_insert, not_or] at hna
          exact hna.2
    by_cases hsent : e.sent = true
    · rw [if_pos hsent] at ht hlt
      rcases Nat.lt_or_ge n q.log.sent.length with hold | hnew
      · rw [List.getElem?_append_left hold] at ht
        exact hs.waiting n t ⟨hold, hna'⟩ ht
      · -- the task of this cycle's grant is on the packet at the front
        obtain rfl : n = q.log.sent.length := by omega
        rw [List.getElem?_concat_length, Option.some.injEq] at ht
        subst ht
        obtain ⟨x, l, hfifo⟩ := List.exists_cons_of_ne_nil (h.fifo_ne_nil (ok.sent hsent))
        have hhead : q.head = x := by
          rw [head, hfifo]
          rfl
        have hx := hs.fifo x (hfifo ▸ List.mem_cons_self)
        rw [← hhead] at hx
        exact hx
    · rw [if_neg hsent] at ht hlt
      exact hs.waiting n t ⟨hlt, hna'⟩ ht

end Queue

end Pspin
