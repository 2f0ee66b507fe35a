/-
The life of a packet in L2, between `NICInbound` and `mpq_engine`.

The two run side by side. After an edge the model sees the feedback lines of the new
cycle and drives a HER; the next edge ends the cycle for the engine, with that HER and
that feedback. The model looks at the address lines alone: what it finds there is
returned, whether a feedback is valid and triggers or not.

Every HER the model drives gets a ticket. `returned` notes for each return the ticket,
whether the cycle had a triggering feedback, and whether the packet was still in use;
`triggers` notes the tickets of the triggering feedbacks. `Lifetime` is what should come
out, `packet_lifetime_iff` says in which runs it does, and `returned_by_header` is one
in which it does not. The messages may be any: nothing here needs one message at a time.
-/
import Pspin.MpqRuns
import Pspin.NicInbound

set_option autoImplicit false

namespace Pspin.NicFeedback

open NicInbound (Params incoming_her_t app_calls posedge before_feedback)
open MpqEngine (mpq_idx mpq_full_o nic_feedback_valid_o her_new)

/-- A cycle: the application's calls, the AXI answer, the feedback lines with the task a
valid feedback answers, and the scheduler's ready. -/
structure CycleInput where
  packets : List incoming_her_t
  eos : Bool
  pspin_active_i : Bool
  write_completed : Bool
  sim_time : ℕ
  feedback_valid_i : Bool
  feedback_i : feedback_descr_t
  fb_task : ℕ
  task_ready_i : Bool

/-- A return of L2 space, with the call of the callback. -/
structure return_t where
  ticket : ℕ
  triggered : Bool
  in_use : Bool
deriving DecidableEq

structure Sys where
  nic : NicInbound.State
  eng : MpqEngine.Sys
  ticket : mem_addr_t → ℕ
  hers : ℕ
  returned : List return_t
  triggers : List ℕ

/-! ## Tickets

A map of entries, where every entry put in gets the next number. -/

section Tickets

variable {α β : Type*} [DecidableEq α] {m : α → Option β} {ticket : α → ℕ} {issued : ℕ}
  {returned : List ℕ}

/-- Every number issued is returned, once, or belongs to exactly one entry of the map. -/
structure Tickets (m : α → Option β) (ticket : α → ℕ) (issued : ℕ) (returned : List ℕ) : Prop where
  live : ∀ a, (m a).isSome = true → ticket a < issued ∧ ticket a ∉ returned
  inj : ∀ a b, (m a).isSome = true → (m b).isSome = true → ticket a = ticket b → a = b
  lt : ∀ t ∈ returned, t < issued
  once : returned.Nodup
  kept : ∀ t < issued, t ∉ returned → ∃ a, (m a).isSome = true ∧ ticket a = t

theorem Tickets.issue (h : Tickets m ticket issued returned) {a : α} (ha : m a = none) (e : β) :
    Tickets (Function.update m a (some e)) (Function.update ticket a issued) (issued + 1)
      returned where
  live := by
    intro b hb
    by_cases hba : b = a
    · rw [hba, Function.update_self]
      exact ⟨Nat.lt_succ_self _, fun hc => lt_irrefl _ (h.lt _ hc)⟩
    · rw [Function.update_of_ne hba] at hb ⊢
      exact ⟨Nat.lt_succ_of_lt (h.live b hb).1, (h.live b hb).2⟩
  inj := by
    intro b c hb hc heq
    -- the new ticket is above all the earlier ones
    by_cases hba : b = a
    · by_cases hca : c = a
      · rw [hba, hca]
      · rw [Function.update_of_ne hca] at hc heq
        rw [hba, Function.update_self] at heq
        exact absurd heq (h.live c hc).1.ne'
    · by_cases hca : c = a
      · rw [Function.update_of_ne hba] at hb heq
        rw [hca, Function.update_self] at heq
        exact absurd heq (h.live b hb).1.ne
      · rw [Function.update_of_ne hba] at hb heq
        rw [Function.update_of_ne hca] at hc heq
        exact h.inj b c hb hc heq
  lt := fun t ht => Nat.lt_succ_of_lt (h.lt t ht)
  once := h.once
  kept := by
    intro t ht hn
    -- `a` was free, so the holder of an older ticket is another address
    rcases Nat.lt_succ_iff_lt_or_eq.mp ht with hlt | rfl
    · obtain ⟨b, hb, hbt⟩ := h.kept t hlt hn
      have hba : b ≠ a := by
        rintro rfl
        rw [ha] at hb
        exact absurd hb (by simp)
      refine ⟨b, ?_, ?_⟩
      · rwa [Function.update_of_ne hba]
      · rwa [Function.update_of_ne hba]
    · refine ⟨a, ?_, Function.update_self ..⟩
      rw [Function.update_self]
      rfl

theorem Tickets.give_back (h : Tickets m ticket issued returned) {a : α}
    (ha : (m a).isSome = true) :
    Tickets (Function.update m a none) ticket issued (returned ++ [ticket a]) where
  live := by
    intro b hb
    by_cases hba : b = a
    · rw [hba, Function.update_self] at hb
      exact absurd hb (by simp)
    · rw [Function.update_of_ne hba] at hb
      refine ⟨(h.live b hb).1, ?_⟩
      rw [List.mem_append, List.mem_singleton, not_or]
      -- no two addresses hold one ticket
      exact ⟨(h.live b hb).2, fun hc => hba (h.inj b a hb ha hc)⟩
  inj := by
    intro b c hb hc heq
    by_cases hba : b = a
    · rw [hba, Function.update_self] at hb
      exact absurd hb (by simp)
    · by_cases hca : c = a
      · rw [hca, Function.update_self] at hc
        exact absurd hc (by simp)
      · rw [Function.update_of_ne hba] at hb
        rw [Function.update_of_ne hca] at hc
        exact h.inj b c hb hc heq
  lt := by
    intro t ht
    rcases List.mem_append.mp ht with ht | ht
    · exact h.lt t ht
    · rw [List.mem_singleton.mp ht]
      exact (h.live a ha).1
  once := by
    -- a live ticket has not been returned yet
    rw [List.nodup_append]
    refine ⟨h.once, List.nodup_singleton _, ?_⟩
    intro t ht t' ht' heq
    rw [List.mem_singleton.mp ht'] at heq
    exact (h.live a ha).2 (heq ▸ ht)
  kept := by
    intro t ht hn
    rw [List.mem_append, List.mem_singleton, not_or] at hn
    obtain ⟨b, hb, hbt⟩ := h.kept t ht hn.1
    have hba : b ≠ a := by
      rintro rfl
      exact hn.2 hbt.symm
    refine ⟨b, ?_, hbt⟩
    rwa [Function.update_of_ne hba]

end Tickets

namespace Sys

/-! ## A cycle -/

variable (p : Params) (s : Sys) (i : CycleInput)

/-- The ports of the model after the edge. -/
def ports : NicInbound.Input where
  pspin_active_i := i.pspin_active_i
  her_ready_i := !mpq_full_o s.eng.hw (mpq_idx s.nic.her_o.msgid)
  feedback_her_addr_i := i.feedback_i.pkt_addr
  feedback_her_size_i := i.feedback_i.pkt_size
  write_completed := i.write_completed
  sim_time := i.sim_time

/-- The model's `posedge`, if no assertion fails. -/
def nic_posedge : Option NicInbound.State :=
  posedge p (app_calls s.nic i.packets i.eos) (ports s i)

def nic_d : NicInbound.State := (nic_posedge p s i).getD s.nic

/-- The ports of the engine at the next edge. The model is always ready for feedbacks. -/
def eng_input : MpqEngine.SysInput where
  her_valid_i := (nic_d p s i).her_valid_o
  her_i := (nic_d p s i).her_o
  feedback_valid_i := i.feedback_valid_i
  feedback_i := i.feedback_i
  task_ready_i := i.task_ready_i
  nic_feedback_ready_i := true
  fb_task := i.fb_task

/-- The packet on the address lines is in the map when `feedback_progress` looks. -/
def shown : Bool :=
  i.pspin_active_i && (before_feedback p (app_calls s.nic i.packets i.eos) (ports s i)).any
    fun s' => (s'.pktmap i.feedback_i.pkt_addr).isSome

/-- A HER on the lines is a new one: it has the next ticket. -/
def ticket_d : mem_addr_t → ℕ :=
  if (nic_d p s i).her_valid_o then Function.update s.ticket (nic_d p s i).her_o.her_addr s.hers
  else s.ticket

def step : Sys :=
  let eng := s.eng.step (eng_input p s i)
  let a := i.feedback_i.pkt_addr
  let valid := nic_feedback_valid_o (eng_input p s i).toInput
  { nic := nic_d p s i
    eng := eng
    ticket := ticket_d p s i
    hers := s.hers + if (nic_d p s i).her_valid_o then 1 else 0
    returned := s.returned
      ++ if shown p s i then [⟨ticket_d p s i a, valid, decide (eng.in_use a)⟩] else []
    triggers := s.triggers ++ if valid then [ticket_d p s i a] else [] }

def init (s : Sys) : Prop :=
  ∃ her_o eng ticket, MpqEngine.Sys.init eng ∧ s = ⟨NicInbound.reset her_o, eng, ticket, 0, [], []⟩

/-- No assertion fails; PsPIN is active once a HER is driven or a feedback comes; each
feedback answers a task that was sent and has none yet, and at most 255 tasks wait. -/
def env : Prop :=
  (nic_posedge p s i).isSome = true
    ∧ (s.nic.her_valid_o = true ∨ i.feedback_valid_i = true → i.pspin_active_i = true)
    ∧ s.eng.FeedbackEnv (eng_input p s i)

/-- The address lines show a packet of the map only with a triggering feedback. -/
def Good : Prop :=
  shown p s i = true → (i.feedback_valid_i && i.feedback_i.trigger_feedback) = true

instance : Decidable (env p s i) := inferInstanceAs (Decidable (_ ∧ _ ∧ _))

instance : Decidable (Good p s i) := inferInstanceAs (Decidable (_ → _))

variable {p s i}

/-- The tickets of the packets returned. -/
def tickets_returned (s : Sys) : List ℕ := s.returned.map (·.ticket)

/-- A packet is returned in the cycle of its triggering feedback, once, when nothing uses
it any more, and until then it is in the map. -/
structure Lifetime (s : Sys) : Prop where
  triggered : ∀ r ∈ s.returned, r.triggered = true
  unused : ∀ r ∈ s.returned, r.in_use = false
  exactly : s.tickets_returned = s.triggers
  once : s.tickets_returned.Nodup
  mapped : ∀ t < s.hers, t ∉ s.triggers → ∃ a, (s.nic.pktmap a).isSome = true ∧ s.ticket a = t

/-! ## What a cycle does to the map -/

/-- The map when `feedback_progress` looks at it, and after the cycle. -/
theorem pktmap_cases (he : env p s i) : ∃ m : mem_addr_t → Option NicInbound.pktentry_t,
    (((nic_d p s i).her_valid_o = false ∧ m = s.nic.pktmap)
      ∨ ((nic_d p s i).her_valid_o = true ∧ s.nic.pktmap (nic_d p s i).her_o.her_addr = none
        ∧ ∃ e, m = Function.update s.nic.pktmap (nic_d p s i).her_o.her_addr (some e)))
    ∧ shown p s i = (i.pspin_active_i && (m i.feedback_i.pkt_addr).isSome)
    ∧ (nic_d p s i).pktmap = if shown p s i
        then Function.update m i.feedback_i.pkt_addr none else m := by
  obtain ⟨hsome, hactive, -⟩ := he
  have happ := (NicInbound.app_calls_port s.nic i.packets i.eos).1
  obtain ⟨nic', hnic⟩ := Option.isSome_iff_exists.mp hsome
  have hd : nic_d p s i = nic' := by
    rw [nic_d, hnic, Option.getD_some]
  rw [hd]
  unfold nic_posedge posedge at hnic
  by_cases hact : i.pspin_active_i = true
  · have hact' : (ports s i).pspin_active_i = true := hact
    rw [if_pos hact'] at hnic
    obtain ⟨nic₂, hbefore, hfeedback⟩ := Option.bind_eq_some_iff.mp hnic
    have hshown : shown p s i = (nic₂.pktmap i.feedback_i.pkt_addr).isSome := by
      rw [shown, hact, hbefore, Option.any_some, Bool.true_and]
    obtain ⟨nic₁, hpackets, hher⟩ := Option.bind_eq_some_iff.mp hbefore
    obtain ⟨-, -, hmap₁, -⟩ := NicInbound.progress_packets_port hpackets
    obtain ⟨hvalid₃, hher₃, -, hmap₃⟩ := NicInbound.feedback_progress_port hfeedback
    rw [happ.pktmap] at hmap₁
    refine ⟨nic₂.pktmap, ?_, by rw [hact, Bool.true_and, hshown], ?_⟩
    · rw [hvalid₃, hher₃]
      rcases NicInbound.her_progress_cases hher with ⟨-, rfl⟩ | ⟨her, rest, -, -, hnone, hv, ho, -, hm⟩
      · exact Or.inl ⟨rfl, hmap₁⟩
      · rw [ho, hmap₁] at *
        exact Or.inr ⟨hv, hnone, _, hm⟩
    · rw [hmap₃]
      split_ifs with hs
      · rfl
      · rw [hshown, Option.not_isSome_iff_eq_none] at hs
        exact Function.update_eq_self_iff.mpr hs.symm
  · -- PsPIN is not active: the edge does nothing
    have hoff : i.pspin_active_i = false := Bool.not_eq_true _ ▸ hact
    have hact' : ¬ (ports s i).pspin_active_i = true := hact
    rw [if_neg hact'] at hnic
    obtain rfl := Option.some.inj hnic
    have hshown : shown p s i = false := by
      rw [shown, hoff, Bool.false_and]
    refine ⟨s.nic.pktmap, Or.inl ⟨?_, rfl⟩, ?_, ?_⟩
    · rw [happ.her_valid_o]
      by_contra hv
      exact hact (hactive (Or.inl (Bool.eq_true_of_not_eq_false hv)))
    · rw [hshown, hoff, Bool.false_and]
    · rw [hshown, happ.pktmap, if_neg Bool.false_ne_true]

/-! ## The invariant -/

/-- Every packet in use is in the map, and only one hand holds it. -/
structure Inv (s : Sys) : Prop where
  balance : s.eng.Balance
  tickets : Tickets s.nic.pktmap s.ticket s.hers s.tickets_returned
  single : ∀ a, s.eng.custody a ≤ 1
  mapped : ∀ a, 0 < s.eng.custody a → (s.nic.pktmap a).isSome = true

theorem tickets_returned_step : (step p s i).tickets_returned = s.tickets_returned
    ++ if shown p s i then [ticket_d p s i i.feedback_i.pkt_addr] else [] := by
  unfold tickets_returned step
  rw [List.map_append]
  split_ifs <;> rfl

theorem tickets_step (h : Tickets s.nic.pktmap s.ticket s.hers s.tickets_returned)
    (he : env p s i) : Tickets (step p s i).nic.pktmap (step p s i).ticket (step p s i).hers
      (step p s i).tickets_returned := by
  obtain ⟨m, hm, hshown, hmap⟩ := pktmap_cases he
  have hdriven : Tickets m (step p s i).ticket (step p s i).hers s.tickets_returned := by
    unfold step ticket_d
    rcases hm with ⟨hv, rfl⟩ | ⟨hv, hnone, e, rfl⟩
    · rw [hv]
      exact h
    · rw [hv]
      exact h.issue hnone e
  have hnic : (step p s i).nic.pktmap = (nic_d p s i).pktmap := rfl
  rw [tickets_returned_step, hnic, hmap]
  by_cases hs : shown p s i = true
  · rw [if_pos hs, if_pos hs]
    apply hdriven.give_back
    rw [hshown, Bool.and_eq_true] at hs
    exact hs.2
  · rw [if_neg hs, if_neg hs, List.append_nil]
    exact hdriven

/-- A feedback that triggers, in the words of the ports. -/
theorem triggers_iff {a : mem_addr_t} : MpqEngine.Sys.triggers (eng_input p s i).toInput a = true
    ↔ (i.feedback_valid_i && i.feedback_i.trigger_feedback) = true ∧ i.feedback_i.pkt_addr = a := by
  have hnew : MpqEngine.feedback_new (eng_input p s i).toInput = i.feedback_valid_i :=
    Bool.and_true _
  unfold MpqEngine.Sys.triggers
  rw [hnew, ← Bool.and_assoc, Bool.and_eq_true, beq_iff_eq]
  rfl

/-- **A triggering feedback is shown in the map**, and ends the custody of its packet. -/
theorem shown_of_trigger (h : Inv s) (he : env p s i)
    (ht : (i.feedback_valid_i && i.feedback_i.trigger_feedback) = true) :
    shown p s i = true ∧ (step p s i).eng.custody i.feedback_i.pkt_addr = 0 := by
  have htrig := triggers_iff (p := p) (s := s).mpr ⟨ht, rfl⟩
  have hpos := MpqEngine.Sys.custody_pos he.2.2 htrig
  have hin := h.mapped _ hpos
  have hstep := MpqEngine.Sys.custody_step h.balance he.2.2 i.feedback_i.pkt_addr
  have hone := h.single i.feedback_i.pkt_addr
  rw [if_pos htrig] at hstep
  rw [Bool.and_eq_true] at ht
  have hactive := he.2.1 (Or.inr ht.1)
  obtain ⟨m, hm, hshown, -⟩ := pktmap_cases he
  have hcust : (step p s i).eng.custody i.feedback_i.pkt_addr
      = (s.eng.step (eng_input p s i)).custody i.feedback_i.pkt_addr := rfl
  rw [hshown, hactive, Bool.true_and, hcust]
  rcases hm with ⟨hv, rfl⟩ | ⟨hv, hnone, e, rfl⟩
  · -- no HER in this cycle
    have hher : her_new s.eng.hw (eng_input p s i).toInput = false := by
      have hv' : (eng_input p s i).her_valid_i = false := hv
      rw [her_new, hv', Bool.false_and]
    rw [hher, Bool.false_and, if_neg Bool.false_ne_true] at hstep
    exact ⟨hin, by omega⟩
  · -- the HER is for another packet: this one was in the map
    have hne : i.feedback_i.pkt_addr ≠ (nic_d p s i).her_o.her_addr := by
      intro hc
      rw [hc, hnone] at hin
      exact absurd hin (by simp)
    have hher : ((eng_input p s i).her_i.her_addr == i.feedback_i.pkt_addr) = false := by
      rw [beq_eq_false_iff_ne]
      exact hne.symm
    rw [hher, Bool.and_false, if_neg Bool.false_ne_true] at hstep
    rw [Function.update_of_ne hne]
    exact ⟨hin, by omega⟩

/-- A good cycle keeps the invariant. -/
theorem inv_step (h : Inv s) (he : env p s i) (hg : Good p s i) : Inv (step p s i) := by
  have hstep := MpqEngine.Sys.custody_step h.balance he.2.2
  obtain ⟨m, hm, hshown, hmap⟩ := pktmap_cases he
  -- a HER is for a packet nobody held
  have hfresh : ∀ a, (her_new s.eng.hw (eng_input p s i).toInput
      && (eng_input p s i).her_i.her_addr == a) = true → s.eng.custody a = 0 ∧ (m a).isSome = true := by
    intro a ha
    rw [Bool.and_eq_true, her_new, Bool.and_eq_true, beq_iff_eq] at ha
    have ha' : (nic_d p s i).her_o.her_addr = a := ha.2
    rcases hm with ⟨hv, -⟩ | ⟨-, hnone, e, rfl⟩
    · exact absurd (hv.symm.trans ha.1.1) Bool.false_ne_true
    · rw [ha'] at hnone ⊢
      refine ⟨?_, by rw [Function.update_self]; rfl⟩
      by_contra hc
      have hin := h.mapped a (Nat.pos_of_ne_zero hc)
      rw [hnone] at hin
      exact absurd hin (by simp)
  refine ⟨MpqEngine.Sys.balance_step h.balance he.2.2, tickets_step h.tickets he, ?_, ?_⟩
  · intro a
    have hone := h.single a
    have hcust := hstep a
    show (s.eng.step (eng_input p s i)).custody a ≤ 1
    split_ifs at hcust with _ hher hher
    · have := (hfresh a hher).1
      omega
    · omega
    · have := (hfresh a hher).1
      omega
    · omega
  · intro a hpos
    have hcust := hstep a
    have hpos' : 0 < (s.eng.step (eng_input p s i)).custody a := hpos
    have hin : (m a).isSome = true := by
      by_cases hher : (her_new s.eng.hw (eng_input p s i).toInput
          && (eng_input p s i).her_i.her_addr == a) = true
      · exact (hfresh a hher).2
      · rw [if_neg hher] at hcust
        have hold := h.mapped a (by omega)
        rcases hm with ⟨-, rfl⟩ | ⟨-, -, e, rfl⟩
        · exact hold
        · by_cases haa : a = (nic_d p s i).her_o.her_addr
          · rw [haa, Function.update_self]
            rfl
          · rwa [Function.update_of_ne haa]
    show ((nic_d p s i).pktmap a).isSome = true
    rw [hmap]
    split_ifs with hs
    · -- a return ends the custody of its own packet only
      have hne : a ≠ i.feedback_i.pkt_addr := by
        rintro rfl
        have := (shown_of_trigger h he (hg hs)).2
        omega
      rwa [Function.update_of_ne hne]
    · exact hin

/-! ## The life of a packet -/

theorem Lifetime.step_iff (h : Inv s) (he : env p s i) (hl : Lifetime s) :
    Lifetime (step p s i) ↔ Good p s i := by
  have hreturned : (step p s i).returned = s.returned ++ if shown p s i
      then [⟨ticket_d p s i i.feedback_i.pkt_addr,
        i.feedback_valid_i && i.feedback_i.trigger_feedback,
        decide ((step p s i).eng.in_use i.feedback_i.pkt_addr)⟩] else [] := rfl
  constructor
  · -- a bad return is noted
    intro hl' hs
    have := hl'.triggered
    rw [hreturned, if_pos hs] at this
    exact this _ (List.mem_append_right _ (List.mem_singleton_self _))
  · intro hg
    have hinv := inv_step h he hg
    have htriggers : (step p s i).triggers = s.triggers
        ++ if shown p s i then [ticket_d p s i i.feedback_i.pkt_addr] else [] := by
      have hshown : shown p s i = (i.feedback_valid_i && i.feedback_i.trigger_feedback) :=
        Bool.eq_iff_iff.mpr ⟨hg, fun ht => (shown_of_trigger h he ht).1⟩
      rw [hshown]
      rfl
    have hexactly : (step p s i).tickets_returned = (step p s i).triggers := by
      rw [tickets_returned_step, htriggers, hl.exactly]
    refine ⟨?_, ?_, hexactly, hinv.tickets.once, ?_⟩
    · intro r hr
      rw [hreturned] at hr
      rcases List.mem_append.mp hr with hr | hr
      · exact hl.triggered r hr
      · obtain ⟨hs, hr⟩ := List.mem_ite_nil_right.mp hr
        rw [List.mem_singleton.mp hr]
        exact hg hs
    · intro r hr
      rw [hreturned] at hr
      rcases List.mem_append.mp hr with hr | hr
      · exact hl.unused r hr
      · obtain ⟨hs, hr⟩ := List.mem_ite_nil_right.mp hr
        rw [List.mem_singleton.mp hr]
        have hzero := (shown_of_trigger h he (hg hs)).2
        exact decide_eq_false (MpqEngine.Sys.not_in_use hinv.balance hzero)
    · rw [← hexactly]
      exact hinv.tickets.kept

theorem inv_init {s : Sys} (h : init s) : Inv s := by
  obtain ⟨her_o, eng, ticket, heng, rfl⟩ := h
  have hbalance := MpqEngine.Sys.balance_init heng
  obtain ⟨pkts, metas, rfl⟩ := heng
  have hzero : ∀ a, MpqEngine.Sys.custody
      ⟨MpqEngine.reset pkts metas, fun _ => Log.empty, fun _ => []⟩ a = 0 := by
    intro a
    refine Finset.sum_eq_zero fun k _ => ?_
    have hfifo : (MpqEngine.Sys.queue
        ⟨MpqEngine.reset pkts metas, fun _ => Log.empty, fun _ => []⟩ k).fifo = [] :=
      MpqEngine.Sys.fifo_init pkts k
    rw [Queue.custody, hfifo]
    rfl
  refine ⟨hbalance, ?_, fun a => ?_, fun a ha => ?_⟩
  · exact ⟨fun a ha => absurd ha (by simp [NicInbound.reset]),
      fun a b ha => absurd ha (by simp [NicInbound.reset]), fun t ht => absurd ht List.not_mem_nil,
      List.nodup_nil, fun t ht => absurd ht (Nat.not_lt_zero t)⟩
  · exact (hzero a).trans_le (Nat.zero_le 1)
  · rw [hzero a] at ha
    exact absurd ha (Nat.lt_irrefl 0)

theorem Lifetime.init {s : Sys} (h : Sys.init s) : Lifetime s := by
  obtain ⟨her_o, eng, ticket, -, rfl⟩ := h
  exact ⟨fun r hr => absurd hr List.not_mem_nil, fun r hr => absurd hr List.not_mem_nil, rfl,
    List.nodup_nil, fun t ht => absurd ht (Nat.not_lt_zero t)⟩

/-- **The life of a packet.** In every run, each packet is returned in the cycle of its
triggering feedback, once and with nothing left to run on it, if and only if in no cycle
the address lines show a packet of the map without a triggering feedback. -/
theorem packet_lifetime_iff {is : List CycleInput} (h : init s)
    (ha : Sync.Allowed (step p) (env p) s is) :
    Sync.Always (step p) Lifetime s is ↔ Sync.Allowed (step p) (Good p) s is :=
  Sync.always_iff (fun _ _ => inv_step) (fun _ _ hi he hl => hl.step_iff hi he) (inv_init h)
    (Lifetime.init h) ha

/-! One packet, with and without a header handler. The cycles are: the packet arrives,
its write completes and the HER is taken, a grant, and the feedback of the task sent. -/

def demo_params : Params := ⟨0x1c000000, 0x100000⟩

def demo_meta (hh_addr : mem_addr_t) : mpq_meta_t where
  handler_mem_addr := 0
  handler_mem_size := 0
  host_mem_addr := 0
  host_mem_size := 0
  hh_addr := hh_addr
  hh_size := 4
  ph_addr := 0x20
  ph_size := 4
  th_addr := 0
  th_size := 0
  scratchpad_addr := fun _ => 0
  scratchpad_size := fun _ => 0

def demo_start : Sys where
  nic := NicInbound.reset ⟨0, false, 0, 0, 0, demo_meta 0⟩
  eng := ⟨MpqEngine.reset ⟨fun _ => ⟨0, 0⟩, 0, ⟨0, 0⟩⟩
    ⟨fun _ => demo_meta 0, 0, demo_meta 0⟩, fun _ => Log.empty, fun _ => []⟩
  ticket := fun _ => 0
  hers := 0
  returned := []
  triggers := []

def demo_packet (hh_addr : mem_addr_t) : incoming_her_t where
  her := { (⟨1, true, 0, 64, 64, demo_meta hh_addr⟩ : her_descr_t) with
    user_ptr := 0, nic_arrival_time := 0 }
  pkt_len := 64
  wait_cycles := 0

/-- A cycle without a feedback: the lines show zero. -/
def demo_cycle (packets : List incoming_her_t) (write_completed : Bool) : CycleInput :=
  ⟨packets, false, true, write_completed, 0, false, ⟨0, 0, 0, false⟩, 0, true⟩

/-- The last cycle brings the feedback of the first task. -/
def demo_cycles (hh_addr : mem_addr_t) (trigger : Bool) : List CycleInput :=
  [demo_cycle [demo_packet hh_addr] false, demo_cycle [] true, demo_cycle [] false,
    ⟨[], false, true, false, 0, true, ⟨0x1c000000, 64, 1, trigger⟩, 0, true⟩]

theorem demo_init : init demo_start := ⟨_, _, _, ⟨_, _, rfl⟩, rfl⟩

/-- Without other handlers the payload task is the only one, and triggers. -/
theorem packet_lifetime_iff_demo :
    Sync.Always (step demo_params) Lifetime demo_start (demo_cycles 0 true) :=
  (packet_lifetime_iff demo_init (by decide +kernel)).mpr (by decide +kernel)

/-- The feedback of the header task returns a packet whose payload task has not run. -/
theorem returned_by_header :
    ¬ ∀ p s is, init s → Sync.Allowed (step p) (env p) s is →
      Sync.Always (step p) Lifetime s is := by
  intro hall
  have hrun := hall demo_params demo_start (demo_cycles 0x10 false) demo_init (by decide +kernel)
  have hlost := hrun.2.2.2.2.triggered
  revert hlost
  decide +kernel

end Sys

end Pspin.NicFeedback
