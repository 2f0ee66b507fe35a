/-
A cycle of one message queue.

The engine shows a queue up to three events at once. `mpq_fsm_seq` takes the FSM
apart, and `Queue.cycle` is the feedback, the grant and the request one after another.
Here the two are the same: under the protocol `Ok` the FSM computes the record of
`Queue.cycle`, and its FIFO, metadata and log change as the engine changes them.
-/
import Pspin.MpqQueue

set_option autoImplicit false

namespace Pspin.Queue

open Message

/-! ## Events -/

variable {i : Fin NUM_MPQ} {q : Queue}

/-- What one cycle brings to a queue: the position of the task a feedback answers, a
grant, a new HER. -/
structure Events where
  feedback : Option ℕ
  sent : Bool
  her : Option her_descr_t

/-- A cycle, one event after another. -/
def cycle (i : Fin NUM_MPQ) (e : Events) (q : Queue) : Queue :=
  let q1 := match e.feedback with
    | some k => q.feedback k
    | none => q
  let q2 := if e.sent then q1.grant i else q1
  match e.her with
  | some h => q2.her h
  | none => q2

/-- A cycle as the engine makes it: all events meet in the FSM inputs `m`, and the FIFO,
the metadata and the log look at the queue as it was before. -/
def clock (i : Fin NUM_MPQ) (m : mpq_event_t) (e : Events) (q : Queue) : Queue where
  mpq := if m.update_o then mpq_fsm m q.mpq else q.mpq
  fifo := (if e.sent && last_carrier q.mpq then q.fifo.tail else q.fifo)
    ++ (e.her.map pkt_of).toList
  mpq_meta := match e.her with
    | some x => if mpq_busy q.mpq then q.mpq_meta else x.mpq_meta
    | none => q.mpq_meta
  log :=
    let l1 := match e.feedback with
      | some k => q.log.answer k
      | none => q.log
    let l2 := if e.sent then l1.send (q.next_task i) else l1
    match e.her with
    | some x => l2.her x
    | none => l2

/-- What the surroundings of a queue keep whatever the messages are. -/
structure Fair (q : Queue) (e : Events) : Prop where
  feedback : ∀ k, e.feedback = some k → q.log.Outstanding k
  sent : e.sent = true → mpq_valid q.mpq = true
  /-- the bound on the tasks in flight, after the cycle -/
  bound : e.sent = true →
    q.mpq.in_flight + 1 < 2 ^ MPQ_CNT_W + if e.feedback.isSome then 1 else 0
  room : ∀ h, e.her = some h → q.fifo.length + 1 < 2 ^ MPQ_CNT_W

/-- With the protocol: a HER continues an open message or finds the queue free. -/
structure Ok (q : Queue) (e : Events) : Prop extends Fair q e where
  her : ∀ h, e.her = some h → q.Accepts

/-- The FSM inputs `m` are those of the cycle `e`. -/
structure Events.Drives (e : Events) (m : mpq_event_t) : Prop where
  feedback : m.feedback_i = e.feedback.isSome
  sent : m.task_sent_i = e.sent
  her : m.her_new_i = e.her.isSome
  flags : ∀ h, e.her = some h → m.only_her = .her h

variable {e : Events}

/-- A queue that asks for a grant still does after a feedback. -/
theorem Inv.valid_feedback (h : Inv i q) {k : ℕ} (hk : q.log.Outstanding k)
    (hv : mpq_valid q.mpq = true) : mpq_valid (mpq_fsm .feedback q.mpq) = true := by
  have hpos := h.in_flight_pos hk
  have hph := h.phase
  rcases mpq_valid_iff.mp hv with hq | ⟨hq, hl⟩ | hq
  · simp only [Phase, hq] at hph
    omega
  · have hs : (mpq_fsm .feedback q.mpq).state = .Payload := by
      simp [mpq_fsm, mpq_event_t.feedback, hq]
    rw [mpq_valid_iff, length_feedback]
    exact Or.inr (Or.inl ⟨hs, hl⟩)
  · simp only [Phase, hq] at hph
    omega

/-- Which states an open message can be in. -/
theorem Inv.open_state (h : Inv i q) (hne : q.log.cur ≠ []) (ho : closed q.log.cur = false) :
    q.mpq.state = .Header ∨ q.mpq.state = .HeaderRunning ∨ q.mpq.state = .Payload := by
  have hph := h.phase
  cases hs : q.mpq.state with
  | Free =>
      simp only [Phase, hs, ho] at hph
      simp [hne] at hph
  | Header => exact Or.inl rfl
  | HeaderRunning => exact Or.inr (Or.inl rfl)
  | Payload => exact Or.inr (Or.inr rfl)
  | PayloadDraining | Completion | CompletionRunning =>
    simp only [Phase, hs, ho] at hph
    simp at hph

/-- In `Free`, `Header` and `Completion` nothing is in flight. -/
theorem Inv.idle (h : Inv i q)
    (hq : q.mpq.state = .Free ∨ q.mpq.state = .Header ∨ q.mpq.state = .Completion) :
    q.mpq.in_flight = 0 := by
  have hph := h.phase
  rcases hq with hs | hs | hs <;> simp only [Phase, hs] at hph
  · exact hph.2.1
  · exact hph.2.1
  · exact hph.2.1

theorem Inv.length_le_fifo (h : Inv i q) : q.mpq.length ≤ q.fifo.length := by
  rw [h.length_fifo, held]
  exact Nat.le_add_right _ _

/-- The FSM sees an event pattern that fits. -/
theorem Inv.fits (h : Inv i q) (ok : Ok q e) {m : mpq_event_t} (hm : e.Drives m) :
    m.Fits q.mpq where
  sent := fun hs => ok.sent (hm.sent ▸ hs)
  feedback := by
    intro hf
    rw [hm.feedback, Option.isSome_iff_exists] at hf
    obtain ⟨k, hk⟩ := hf
    exact h.in_flight_pos (ok.feedback k hk)
  idle := h.idle
  her := by
    intro hh
    rw [hm.her, Option.isSome_iff_exists] at hh
    obtain ⟨x, hx⟩ := hh
    rcases ok.her x hx with hf | ⟨hne, ho⟩
    · exact Or.inl hf
    · refine Or.inr ⟨h.open_state hne ho, ?_⟩
      rw [h.eom_seen, ho, Bool.and_false]
  length_lt := h.length_lt
  in_flight_lt := h.in_flight_lt

/-- The queue after the feedback of a cycle, and after its grant. -/
def fed (e : Events) (q : Queue) : Queue :=
  match e.feedback with
  | some k => q.feedback k
  | none => q

def fed_sent (i : Fin NUM_MPQ) (e : Events) (q : Queue) : Queue :=
  if e.sent then (q.fed e).grant i else q.fed e

theorem Inv.fed (h : Inv i q) (ok : Ok q e) : Inv i (q.fed e) := by
  unfold Queue.fed
  split
  · exact h.feedback (ok.feedback _ ‹_›)
  · exact h

theorem Inv.fed_valid (h : Inv i q) (ok : Ok q e) (hs : e.sent = true) :
    mpq_valid (q.fed e).mpq = true := by
  unfold Queue.fed
  split
  · exact h.valid_feedback (ok.feedback _ ‹_›) (ok.sent hs)
  · exact ok.sent hs

theorem Inv.fed_in_flight (h : Inv i q) (ok : Ok q e) (hs : e.sent = true) :
    (q.fed e).mpq.in_flight + 1 < 2 ^ MPQ_CNT_W := by
  have hb := ok.bound hs
  unfold Queue.fed
  split
  · rename_i k hk
    have hpos := h.in_flight_pos (ok.feedback k hk)
    rw [hk, Option.isSome_some, if_pos rfl] at hb
    rw [Queue.feedback, in_flight_feedback, Counter.dec_eq hpos h.in_flight_lt]
    omega
  · rename_i hk
    rw [hk, Option.isSome_none, if_neg Bool.false_ne_true] at hb
    exact hb

theorem Inv.fed_sent (h : Inv i q) (ok : Ok q e) : Inv i (q.fed_sent i e) := by
  unfold Queue.fed_sent
  split_ifs with hs
  · exact (h.fed ok).grant (h.fed_valid ok hs) (h.fed_in_flight ok hs)
  · exact h.fed ok

theorem fed_cur : (q.fed e).log.cur = q.log.cur ∧ (q.fed e).fifo = q.fifo := by
  unfold Queue.fed
  split <;> exact ⟨rfl, rfl⟩

theorem fed_sent_cur : (q.fed_sent i e).log.cur = q.log.cur := by
  unfold Queue.fed_sent
  split_ifs
  · exact fed_cur.1
  · exact fed_cur.1

theorem length_fifo_fed_sent : (q.fed_sent i e).fifo.length ≤ q.fifo.length := by
  unfold Queue.fed_sent
  split_ifs
  · rw [Queue.grant, fed_cur.2]
    split_ifs
    · rw [List.length_tail]
      exact Nat.sub_le _ _
    · exact le_refl _
  · rw [fed_cur.2]

theorem Inv.fed_sent_accepts (h : Inv i q) (ok : Ok q e) (ha : q.Accepts) :
    (q.fed_sent i e).Accepts := by
  rcases ha with hq | ⟨hne, ho⟩
  · -- a free queue sees neither of the two earlier events
    have hs : e.sent = false := by
      by_contra hc
      exact busy_of_valid (ok.sent (by simpa using hc)) hq
    have hf : e.feedback = none := by
      by_contra hc
      obtain ⟨k, hk⟩ := Option.ne_none_iff_exists'.mp hc
      have := h.in_flight_pos (ok.feedback k hk)
      have := h.idle (Or.inl hq)
      omega
    rw [Queue.fed_sent, hs, if_neg Bool.false_ne_true, Queue.fed, hf]
    exact Or.inl hq
  · refine Or.inr ?_
    rw [fed_sent_cur]
    exact ⟨hne, ho⟩

theorem Inv.fed_sent_room (h : Inv i q) (ok : Ok q e) {x : her_descr_t} (hx : e.her = some x) :
    (q.fed_sent i e).mpq.length + 1 < 2 ^ MPQ_CNT_W := by
  have hroom := ok.room x hx
  have hle := (h.fed_sent ok).length_le_fifo
  have hfl := length_fifo_fed_sent (i := i) (q := q) (e := e)
  omega

theorem cycle_eq : q.cycle i e = match e.her with
    | some x => (q.fed_sent i e).her x
    | none => q.fed_sent i e := rfl

/-- **The step lemma of a queue.** -/
theorem Inv.cycle (h : Inv i q) (ok : Ok q e) : Inv i (q.cycle i e) := by
  rw [cycle_eq]
  split
  · rename_i x hx
    exact (h.fed_sent ok).her (h.fed_sent_accepts ok (ok.her x hx)) (h.fed_sent_room ok hx)
  · exact h.fed_sent ok

/-- The FSM, with the events of a cycle on its inputs, computes the next record. -/
theorem Inv.cycle_mpq (h : Inv i q) (ok : Ok q e) {m : mpq_event_t} (hm : e.Drives m) :
    (q.cycle i e).mpq = mpq_fsm m q.mpq := by
  have h1 : (q.fed e).mpq = mpq_fsm m.only_feedback q.mpq := by
    rw [mpq_fsm_only_feedback h.free_eom_seen, hm.feedback, Queue.fed]
    cases e.feedback <;> rfl
  have h2 : (q.fed_sent i e).mpq = mpq_fsm m.only_sent (q.fed e).mpq := by
    rw [mpq_fsm_only_sent (h.fed ok).free_eom_seen, hm.sent, Queue.fed_sent]
    cases e.sent <;> rfl
  have h3 : (q.cycle i e).mpq = mpq_fsm m.only_her (q.fed_sent i e).mpq := by
    rw [cycle_eq]
    cases hx : e.her with
    | some x => rw [hm.flags x hx]; rfl
    | none =>
        refine (mpq_fsm_idle (h.fed_sent ok).free_eom_seen ?_ rfl rfl).symm
        show m.her_new_i = false
        rw [hm.her, hx]
        rfl
  rw [mpq_fsm_seq (h.fits ok hm) h.free_eom_seen, h3, h2, h1]

/-- A feedback changes nothing that the grant of the same cycle looks at. -/
theorem Inv.fed_same (h : Inv i q) (ok : Ok q e) (hs : e.sent = true) :
    (q.fed e).mpq.state = q.mpq.state ∧ last_carrier (q.fed e).mpq = last_carrier q.mpq := by
  unfold Queue.fed
  split
  · rename_i k hk
    have hpos := h.in_flight_pos (ok.feedback k hk)
    rcases mpq_valid_iff.mp (ok.sent hs) with hq | ⟨hq, -⟩ | hq
    · have := h.idle (Or.inr (Or.inl hq))
      omega
    · have hst : (mpq_fsm .feedback q.mpq).state = .Payload := by
        simp [mpq_fsm, mpq_event_t.feedback, hq]
      refine ⟨hst.trans hq.symm, ?_⟩
      rw [Queue.feedback, last_carrier, hst, eom_seen_feedback, hst, length_feedback,
        has_completion_feedback, last_carrier, hq]
      rfl
    · have := h.idle (Or.inr (Or.inr hq))
      omega
  · exact ⟨rfl, rfl⟩

theorem fed_meta : (q.fed e).mpq_meta = q.mpq_meta := by
  unfold Queue.fed
  split <;> rfl

theorem fed_sent_meta : (q.fed_sent i e).mpq_meta = q.mpq_meta := by
  unfold Queue.fed_sent
  split_ifs <;> exact fed_meta

theorem Inv.fed_next_task (h : Inv i q) (ok : Ok q e) (hs : e.sent = true) :
    (q.fed e).next_task i = q.next_task i := by
  obtain ⟨hst, hlast⟩ := h.fed_same ok hs
  rw [next_task, hst, hlast, fed_meta, head, fed_cur.2]
  rfl

/-- What a cycle does to the FIFO. -/
theorem Inv.cycle_fifo (h : Inv i q) (ok : Ok q e) : (q.cycle i e).fifo
    = (if e.sent && last_carrier q.mpq then q.fifo.tail else q.fifo)
      ++ (e.her.map pkt_of).toList := by
  have hsent : (q.fed_sent i e).fifo
      = if e.sent && last_carrier q.mpq then q.fifo.tail else q.fifo := by
    unfold Queue.fed_sent
    by_cases hs : e.sent = true
    · rw [if_pos hs, hs, Bool.true_and, Queue.grant, (h.fed_same ok hs).2, fed_cur.2]
    · rw [if_neg hs, fed_cur.2, Bool.eq_false_iff.mpr hs, Bool.false_and, if_neg Bool.false_ne_true]
  rw [cycle_eq, ← hsent]
  cases e.her with
  | some x => rfl
  | none => exact (List.append_nil _).symm

/-- What a cycle does to the metadata: the HER that takes a free queue sets it. -/
theorem Inv.cycle_meta (h : Inv i q) (ok : Ok q e) : (q.cycle i e).mpq_meta
    = match e.her with
      | some x => if mpq_busy q.mpq then q.mpq_meta else x.mpq_meta
      | none => q.mpq_meta := by
  rw [cycle_eq]
  cases hx : e.her with
  | none => exact fed_sent_meta
  | some x =>
      have hacc := ok.her x hx
      have hbusy : mpq_busy (q.fed_sent i e).mpq = mpq_busy q.mpq := by
        rcases hacc with hq | ⟨hne, ho⟩
        · rcases h.fed_sent_accepts ok (Or.inl hq) with hq' | ⟨hne', ho'⟩
          · rw [mpq_busy, mpq_busy, hq, hq']
          · -- a free queue has no open message
            rw [fed_sent_cur] at hne' ho'
            rcases h.open_state hne' ho' with hc | hc | hc <;> rw [hq] at hc <;> simp at hc
        · have hin : q.mpq.state ≠ .Free := by
            rcases h.open_state hne ho with hc | hc | hc <;> simp [hc]
          have hout : (q.fed_sent i e).mpq.state ≠ .Free := by
            have hcur : (q.fed_sent i e).log.cur = q.log.cur := fed_sent_cur
            rcases (h.fed_sent ok).open_state (hcur ▸ hne) (hcur ▸ ho) with hc | hc | hc <;>
              simp [hc]
          rw [mpq_busy, mpq_busy, bne_iff_ne.mpr hin, bne_iff_ne.mpr hout]
      show (if mpq_busy (q.fed_sent i e).mpq then (q.fed_sent i e).mpq_meta else x.mpq_meta) = _
      rw [hbusy, fed_sent_meta]

/-- What a cycle does to the log. -/
theorem Inv.cycle_log (h : Inv i q) (ok : Ok q e) : (q.cycle i e).log
    = (let l1 := match e.feedback with
        | some k => q.log.answer k
        | none => q.log
      let l2 := if e.sent then l1.send (q.next_task i) else l1
      match e.her with
      | some x => l2.her x
      | none => l2) := by
  have hfed : (q.fed e).log = match e.feedback with
      | some k => q.log.answer k
      | none => q.log := by
    unfold Queue.fed
    cases e.feedback <;> rfl
  have hsent : (q.fed_sent i e).log
      = if e.sent then (q.fed e).log.send (q.next_task i) else (q.fed e).log := by
    unfold Queue.fed_sent
    by_cases hs : e.sent = true
    · rw [if_pos hs, if_pos hs, Queue.grant, h.fed_next_task ok hs]
    · rw [if_neg hs, if_neg hs]
  rw [cycle_eq]
  simp only [← hfed, ← hsent]
  cases e.her <;> rfl

/-- **The engine's cycle is the three events in turn.** -/
theorem Inv.clock_eq_cycle (h : Inv i q) (ok : Ok q e) {m : mpq_event_t} (hm : e.Drives m) :
    q.clock i m e = q.cycle i e := by
  refine Queue.ext ?_ (h.cycle_fifo ok).symm (h.cycle_meta ok).symm (h.cycle_log ok).symm
  rw [h.cycle_mpq ok hm]
  by_cases hu : m.update_o = true
  · exact if_pos hu
  · have hidle := hu
    simp only [mpq_event_t.update_o, Bool.or_eq_true, not_or, Bool.not_eq_true] at hidle
    rw [mpq_fsm_idle h.free_eom_seen hidle.1.1 hidle.1.2 hidle.2]
    exact if_neg hu

end Pspin.Queue
