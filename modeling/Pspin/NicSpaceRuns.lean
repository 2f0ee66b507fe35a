/-
The bytes of L2 over whole runs.

The space of a packet is taken by its length and given back by the size in its feedback,
which `mpq_engine` copies from the bytes to transfer. The system is that of `NicFeedback`
beside a ledger: every accepted packet with the bytes taken for it, and for every return
the bytes given back.

`Conserved` is what should hold. It needs three things of a cycle: that the two sizes fill
the same segments, that an empty ring is not cut, and that nothing comes back before its
triggering feedback. `space_conserved` shows that they are enough in every run, and
`too_few_bytes` is a run without the first.
-/
import Pspin.NicFeedback
import Pspin.NicLedger

set_option autoImplicit false

namespace Pspin.NicSpace

open NicInbound (Params packet_t write_t Ledger Fits accepting progress_axi_write_responses
  progress_incoming_packets her_progress_posedge feedback_progress round_up app_calls)
open NicFeedback (CycleInput)
open NicFeedback.Sys (ports nic_d eng_input shown ticket_d env Good)
open RingSpace.Block (Apart)

structure Sys extends NicFeedback.Sys where
  packets : List packet_t
  freed : List ℕ

namespace Sys

variable (p : Params) (s : Sys) (i : CycleInput)

/-! ## A cycle -/

/-- The state in which the model looks for a packet to accept. -/
def before_incoming : Option NicInbound.State :=
  if i.pspin_active_i then
    progress_axi_write_responses (app_calls s.nic i.packets i.eos) i.write_completed
  else none

/-- The packet accepted in the cycle. -/
def accepted : Option write_t :=
  (before_incoming s i).bind fun nic => accepting p nic i.sim_time

/-- The same with the bytes taken for it. -/
def taken : Option packet_t :=
  (before_incoming s i).bind fun nic =>
    (accepting p nic i.sim_time).map
      (·.packet p (progress_incoming_packets p nic i.sim_time).tail_ptr)

/-- The bytes given back are those that `free_pkt_space` makes of the size on the lines. -/
def step : Sys where
  toSys := NicFeedback.Sys.step p s.toSys i
  packets := s.packets ++ (taken p s i).toList
  freed := s.freed ++ if shown p s.toSys i then [round_up i.feedback_i.pkt_size.toNat] else []

def init (s : Sys) : Prop := NicFeedback.Sys.init s.toSys ∧ s.packets = [] ∧ s.freed = []

/-- The surroundings are those of `NicFeedback`. -/
def allowed : Prop := env p s.toSys i

/-- An accepted packet fits, and the address lines show a packet of the map only with a
triggering feedback. -/
def Orderly : Prop := (∀ w ∈ accepted p s i, Fits p s.nic w) ∧ Good p s.toSys i

instance : Decidable (allowed p s i) := inferInstanceAs (Decidable (env _ _ _))

instance : Decidable (Orderly p s i) := inferInstanceAs (Decidable (_ ∧ _))

variable {p s i}

/-! ## What should come out -/

/-- Every return gives back the bytes taken for its packet, with its feedback and once; the
packets that are still out lie apart in the buffer; and when all feedbacks have come the
ring is empty. The packet of a ticket is the one accepted under that number. -/
structure Conserved (p : Params) (s : Sys) : Prop where
  numbered : ∀ a, (s.nic.pktmap a).isSome = true →
    ∃ x, s.packets[s.ticket a]? = some x ∧ x.her_addr = a
  bytes : List.Forall₂ (fun r n => ∃ x, s.packets[r.ticket]? = some x ∧ x.bytes = n)
    s.returned s.freed
  exactly : s.tickets_returned = s.triggers
  once : s.triggers.Nodup
  inside : ∀ t x, s.packets[t]? = some x → t ∉ s.triggers →
    (x.block p).stop ≤ p.l2_pkt_buff_size
  apart : ∀ t u x y, s.packets[t]? = some x → s.packets[u]? = some y → t ∉ s.triggers →
    u ∉ s.triggers → t ≠ u → Apart (x.block p) (y.block p)
  empty : (∀ t < s.packets.length, t ∈ s.triggers) → s.nic.in_flight_packets = 0
    ∧ s.nic.head_ptr = s.nic.tail_ptr ∧ s.nic.cut = false ∧ s.nic.free_req_queue = []

/-! ## The invariant -/

/-- The bytes to transfer of the packet at an address. -/
def size_of (packets : List packet_t) (ticket : mem_addr_t → ℕ) (a : mem_addr_t)
    (n : mem_size_t) : Prop :=
  ∃ x, packets[ticket a]? = some x ∧ x.tag = (a, n)

structure Inv (p : Params) (s : Sys) : Prop where
  life : NicFeedback.Sys.Inv s.toSys
  lifetime : NicFeedback.Sys.Lifetime s.toSys
  ledger : Ledger p s.nic s.packets s.hers s.ticket s.tickets_returned
  rounded : ∀ x ∈ s.packets, round_up x.xfer_size.toNat = x.bytes
  sized : ∀ k, (s.eng.queue k).Sized (size_of s.packets s.ticket)
  bytes : List.Forall₂ (fun r n => ∃ x, s.packets[r.ticket]? = some x ∧ x.bytes = n)
    s.returned s.freed

theorem Inv.conserved (h : Inv p s) : Conserved p s where
  numbered := h.ledger.mapped
  bytes := h.bytes
  exactly := h.lifetime.exactly
  once := h.lifetime.exactly ▸ h.lifetime.once
  inside := by
    intro t x hx ht
    rw [← h.lifetime.exactly] at ht
    exact (h.ledger.live_apart hx ht).1
  apart := by
    intro t u x y hx hy ht hu hne
    rw [← h.lifetime.exactly] at ht hu
    exact (h.ledger.live_apart hx ht).2 u y hy hu hne
  empty := by
    rw [← h.lifetime.exactly]
    exact h.ledger.empty

/-! ## The edge, part by part -/

/-- The parts of `posedge` up to the feedback, and what `NicFeedback` says about them. -/
theorem edge_parts (he : env p s.toSys i) (hactive : i.pspin_active_i = true) : ∃ n₁ n₂,
    progress_axi_write_responses (app_calls s.nic i.packets i.eos) i.write_completed = some n₁
      ∧ her_progress_posedge (progress_incoming_packets p n₁ i.sim_time) (ports s.toSys i) = some n₂
      ∧ feedback_progress p n₂ (ports s.toSys i) = some (nic_d p s.toSys i)
      ∧ shown p s.toSys i = (n₂.pktmap i.feedback_i.pkt_addr).isSome := by
  obtain ⟨nic', hnic⟩ := Option.isSome_iff_exists.mp he.1
  have hd : nic_d p s.toSys i = nic' := by
    rw [nic_d, hnic, Option.getD_some]
  have hactive' : (ports s.toSys i).pspin_active_i = true := hactive
  rw [NicFeedback.Sys.nic_posedge, NicInbound.posedge, if_pos hactive'] at hnic
  obtain ⟨n₂, hbefore, hfeedback⟩ := Option.bind_eq_some_iff.mp hnic
  have hshown : shown p s.toSys i = (n₂.pktmap i.feedback_i.pkt_addr).isSome := by
    rw [shown, hactive, hbefore, Option.any_some, Bool.true_and]
  obtain ⟨n₁', hpackets, hher⟩ := Option.bind_eq_some_iff.mp hbefore
  unfold NicInbound.progress_packets at hpackets
  split at hpackets
  · exact absurd hpackets (by simp)
  · rename_i n₁ hresp
    obtain rfl := Option.some.inj hpackets
    exact ⟨n₁, n₂, hresp, hher, hd ▸ hfeedback, hshown⟩

/-- **The ledger when the feedback lines are looked at**: the packet accepted in the cycle
has its number, the HER driven its ticket. -/
theorem ledger_driven (hp : p.l2_pkt_buff_size < 2 ^ 32) (h : Inv p s) (he : env p s.toSys i)
    (hfits : ∀ w ∈ accepted p s i, Fits p s.nic w) (hactive : i.pspin_active_i = true) :
    ∃ n₂, feedback_progress p n₂ (ports s.toSys i) = some (nic_d p s.toSys i)
      ∧ shown p s.toSys i = (n₂.pktmap i.feedback_i.pkt_addr).isSome
      ∧ Ledger p n₂ (step p s i).packets (step p s i).hers (step p s i).ticket s.tickets_returned
      ∧ (∀ x ∈ taken p s i, round_up x.xfer_size.toNat = x.bytes)
      ∧ ((nic_d p s.toSys i).her_valid_o = true → ∃ x, (step p s i).packets[s.hers]? = some x
        ∧ x.tag = ((nic_d p s.toSys i).her_o.her_addr, (nic_d p s.toSys i).her_o.xfer_size)) := by
  obtain ⟨n₁, n₂, hresp, hher, hfeedback, hshown⟩ := edge_parts he hactive
  have hbefore : before_incoming s i = some n₁ := by
    rw [before_incoming, if_pos hactive]
    exact hresp
  have happ : accepted p s i = accepting p n₁ i.sim_time := by
    rw [accepted, hbefore, Option.bind_some]
  have htaken : taken p s i = (accepting p n₁ i.sim_time).map
      (·.packet p (progress_incoming_packets p n₁ i.sim_time).tail_ptr) := by
    rw [taken, hbefore, Option.bind_some]
  -- the ring is the same until a packet is accepted
  obtain ⟨hled₀, hring₀⟩ := h.ledger.app_calls i.packets i.eos
  obtain ⟨hled₁, hring₁⟩ := hled₀.write_responses hresp
  have hfits₁ : ∀ w ∈ accepting p n₁ i.sim_time, Fits p n₁ w := by
    rw [← happ]
    exact fun w hw => (hring₀.trans hring₁).fits (hfits w hw)
  obtain ⟨hled₂, hrounded⟩ := hled₁.incoming hp h.life.tickets.lt hfits₁ rfl
  rw [← htaken] at hled₂ hrounded
  obtain ⟨hled₃, htag⟩ := hled₂.drive hher
  -- the feedback leaves the HER lines as they are
  obtain ⟨hvalid, hher_o, -, -⟩ := NicInbound.feedback_progress_port hfeedback
  rw [← hvalid, ← hher_o] at hled₃ htag
  exact ⟨n₂, hfeedback, hshown, hled₃, hrounded, htag⟩

/-- An edge without PsPIN: the calls of the application, and nothing else. -/
theorem idle (he : env p s.toSys i) (hactive : i.pspin_active_i = false) :
    nic_d p s.toSys i = app_calls s.nic i.packets i.eos ∧ (nic_d p s.toSys i).her_valid_o = false
      ∧ shown p s.toSys i = false ∧ taken p s i = none := by
  have hd : nic_d p s.toSys i = app_calls s.nic i.packets i.eos := by
    have hactive' : ¬ (ports s.toSys i).pspin_active_i = true :=
      fun hc => Bool.false_ne_true (hactive.symm.trans hc)
    rw [nic_d, NicFeedback.Sys.nic_posedge, NicInbound.posedge, if_neg hactive', Option.getD_some]
  refine ⟨hd, ?_, ?_, ?_⟩
  · rw [hd, (NicInbound.app_calls_port s.nic i.packets i.eos).1.her_valid_o]
    by_contra hv
    rw [he.2.1 (Or.inl (Bool.eq_true_of_not_eq_false hv))] at hactive
    exact Bool.false_ne_true hactive.symm
  · rw [shown, hactive, Bool.false_and]
  · rw [taken, before_incoming, hactive, if_neg Bool.false_ne_true, Option.bind_none]

/-! ## Sizes in the engine -/

/-- A packet in custody keeps its ticket: the HER of the cycle is for another address. -/
theorem ticket_kept (h : Inv p s) (he : env p s.toSys i) {a : mem_addr_t}
    (ha : 0 < s.eng.custody a) : (step p s i).ticket a = s.ticket a := by
  have hin := h.life.mapped a ha
  show ticket_d p s.toSys i a = s.ticket a
  unfold ticket_d
  obtain ⟨m, hm, -, -⟩ := NicFeedback.Sys.pktmap_cases he
  rcases hm with ⟨hv, -⟩ | ⟨hv, hnone, -⟩
  · rw [hv, if_neg Bool.false_ne_true]
  · rw [hv, if_pos rfl]
    apply Function.update_of_ne
    rintro rfl
    rw [hnone] at hin
    exact absurd hin (by simp)

/-- And its size. -/
theorem size_kept (h : Inv p s) (he : env p s.toSys i) {a : mem_addr_t} {n : mem_size_t}
    (ha : 0 < s.eng.custody a) (hs : size_of s.packets s.ticket a n) :
    size_of (step p s i).packets (step p s i).ticket a n := by
  obtain ⟨x, hx, htag⟩ := hs
  have hlt := (List.getElem?_eq_some_iff.mp hx).1
  refine ⟨x, ?_, htag⟩
  rw [ticket_kept h he ha]
  exact (List.getElem?_append_left hlt).trans hx

/-- **The queues hand on the sizes of the HERs.** -/
theorem sized_step (h : Inv p s) (he : env p s.toSys i)
    (htag : (nic_d p s.toSys i).her_valid_o = true → ∃ x, (step p s i).packets[s.hers]? = some x
      ∧ x.tag = ((nic_d p s.toSys i).her_o.her_addr, (nic_d p s.toSys i).her_o.xfer_size))
    (k : MpqEngine.mpq_idx_t) :
    ((step p s i).eng.queue k).Sized (size_of (step p s i).packets (step p s i).ticket) := by
  have hbalance := h.life.balance
  have hold : (s.eng.queue k).Sized (size_of (step p s i).packets (step p s i).ticket) := by
    refine (h.sized k).mono (hbalance.parked k) fun a n ha hs => size_kept h he ?_ hs
    exact ha.trans_le (Finset.single_le_sum (f := fun k => (s.eng.queue k).custody a)
      (fun _ _ => Nat.zero_le _) (Finset.mem_univ k))
  have hclock : (step p s i).eng.queue k = (s.eng.queue k).clock k
      (MpqEngine.mpq_events s.eng.hw (eng_input p s.toSys i).toInput k)
      (MpqEngine.queue_events s.eng.hw (eng_input p s.toSys i) k) :=
    MpqEngine.Sys.queue_clock hbalance.core k
  rw [hclock]
  refine (hbalance.tally k).sized_clock (MpqEngine.Sys.queue_fair hbalance he.2.2 k) hold ?_
  -- the HER of the cycle is the packet with the next ticket
  intro x hx
  unfold MpqEngine.queue_events at hx
  by_cases hher : MpqEngine.got_her s.eng.hw (eng_input p s.toSys i).toInput k = true
  · rw [if_pos hher] at hx
    obtain rfl := Option.some.inj hx
    have hnew := (MpqEngine.got_her_iff.mp hher).1
    have hv : (nic_d p s.toSys i).her_valid_o = true := by
      rw [MpqEngine.her_new, Bool.and_eq_true] at hnew
      exact hnew.1
    obtain ⟨y, hy, hytag⟩ := htag hv
    refine ⟨y, ?_, hytag⟩
    have hticket : (step p s i).ticket (nic_d p s.toSys i).her_o.her_addr = s.hers := by
      show ticket_d p s.toSys i _ = _
      rw [ticket_d, hv, if_pos rfl, Function.update_self]
    exact (congrArg (fun t => (step p s i).packets[t]?) hticket).trans hy
  · rw [if_neg hher] at hx
    exact absurd hx (by simp)

/-- **A feedback brings the bytes to transfer of its packet.** -/
theorem feedback_size (h : Inv p s) (he : env p s.toSys i) (hv : i.feedback_valid_i = true) :
    size_of s.packets s.ticket i.feedback_i.pkt_addr i.feedback_i.pkt_size := by
  have hnew : MpqEngine.feedback_new (eng_input p s.toSys i).toInput = true :=
    (Bool.and_true _).trans hv
  obtain ⟨hout, hans⟩ := he.2.2.1 hnew
  obtain ⟨t, ht, hfb⟩ := Option.map_eq_some_iff.mp hans
  have hfb' : MpqEngine.feedback_of t.task = i.feedback_i := hfb
  rw [← hfb']
  exact (h.sized _).waiting _ t hout ht

/-! ## The step -/

theorem rounded_step (hp : p.l2_pkt_buff_size < 2 ^ 32) (h : Inv p s) (he : env p s.toSys i)
    (hg : Orderly p s i) : ∀ x ∈ (step p s i).packets, round_up x.xfer_size.toNat = x.bytes := by
  intro x hx
  rcases List.mem_append.mp hx with hx | hx
  · exact h.rounded x hx
  · rw [Option.mem_toList] at hx
    cases hactive : i.pspin_active_i
    · rw [(idle he hactive).2.2.2] at hx
      exact absurd hx (by simp)
    · obtain ⟨n₂, -, -, -, hrounded, -⟩ := ledger_driven hp h he hg.1 hactive
      exact hrounded x hx

/-- **What a return gives back is what its packet took.** -/
theorem freed_size (hp : p.l2_pkt_buff_size < 2 ^ 32) (h : Inv p s) (he : env p s.toSys i)
    (hg : Orderly p s i) (hs : shown p s.toSys i = true) :
    ∃ x, (step p s i).packets[(step p s i).ticket i.feedback_i.pkt_addr]? = some x
      ∧ x.bytes = round_up i.feedback_i.pkt_size.toNat := by
  have htrigger := hg.2 hs
  have hpos := MpqEngine.Sys.custody_pos he.2.2
    (NicFeedback.Sys.triggers_iff (p := p) (s := s.toSys).mpr ⟨htrigger, rfl⟩)
  rw [Bool.and_eq_true] at htrigger
  obtain ⟨x, hx, htag⟩ := size_kept h he hpos (feedback_size h he htrigger.1)
  refine ⟨x, hx, ?_⟩
  rw [← rounded_step hp h he hg x (List.mem_of_getElem? hx)]
  exact congrArg (fun n : mem_size_t => round_up n.toNat) (congrArg Prod.snd htag)

/-- **The ledger after a cycle.** -/
theorem ledger_step (hp : p.l2_pkt_buff_size < 2 ^ 32) (h : Inv p s) (he : env p s.toSys i)
    (hg : Orderly p s i) :
    Ledger p (step p s i).nic (step p s i).packets (step p s i).hers (step p s i).ticket
      (step p s i).tickets_returned := by
  have hreturned := NicFeedback.Sys.tickets_returned_step (p := p) (s := s.toSys) (i := i)
  have htickets := NicFeedback.Sys.tickets_step h.life.tickets he
  show Ledger p (nic_d p s.toSys i) _ _ _ (NicFeedback.Sys.step p s.toSys i).tickets_returned
  cases hactive : i.pspin_active_i
  · -- nothing happens
    obtain ⟨hd, hv, hshown, htaken⟩ := idle he hactive
    rw [hshown, if_neg Bool.false_ne_true, List.append_nil] at hreturned
    have hpackets : (step p s i).packets = s.packets := by
      rw [step, htaken]
      exact List.append_nil _
    have hhers : (step p s i).hers = s.hers := by
      show s.hers + (if (nic_d p s.toSys i).her_valid_o then 1 else 0) = _
      rw [hv, if_neg Bool.false_ne_true, Nat.add_zero]
    have hticket : (step p s i).ticket = s.ticket := by
      show ticket_d p s.toSys i = _
      rw [ticket_d, hv, if_neg Bool.false_ne_true]
    rw [hreturned, hd, hpackets, hhers, hticket]
    exact (h.ledger.app_calls i.packets i.eos).1
  · obtain ⟨n₂, hfeedback, hshown, hled, -, -⟩ := ledger_driven hp h he hg.1 hactive
    rcases hs : shown p s.toSys i
    · -- the lines show no packet of the map
      rw [hs, if_neg Bool.false_ne_true, List.append_nil] at hreturned
      rw [hreturned]
      rcases NicInbound.feedback_ring hfeedback with ⟨-, hsame⟩ | ⟨s₁, hin, -⟩
      · rw [hsame]
        exact hled
      · exact absurd (hshown.symm.trans hs) (by
          rw [Bool.not_eq_false]
          exact hin)
    · -- the packet they show comes back
      rw [hs, if_pos rfl] at hreturned
      obtain ⟨x, hx, hbytes⟩ := freed_size hp h he hg hs
      have hnot : (step p s i).ticket i.feedback_i.pkt_addr ∉ s.tickets_returned := by
        have honce := htickets.once
        rw [hreturned, List.nodup_append] at honce
        exact fun hc => honce.2.2 _ hc _ (List.mem_singleton_self _) rfl
      have hback := hled.give_back (i := ports s.toSys i) (hshown.symm.trans hs) hnot
        (fun y hy => by
          rw [show (ports s.toSys i).feedback_her_addr_i = i.feedback_i.pkt_addr from rfl, hx,
            Option.some.injEq] at hy
          rw [← hy, hbytes]
          rfl) hfeedback
      rw [hreturned]
      exact hback

/-- The list of the returns and the bytes they gave back. -/
theorem bytes_step (hp : p.l2_pkt_buff_size < 2 ^ 32) (h : Inv p s) (he : env p s.toSys i)
    (hg : Orderly p s i) :
    List.Forall₂ (fun r n => ∃ x, (step p s i).packets[r.ticket]? = some x ∧ x.bytes = n)
      (step p s i).returned (step p s i).freed := by
  have hold : List.Forall₂ (fun r n => ∃ x, (step p s i).packets[r.ticket]? = some x ∧ x.bytes = n)
      s.returned s.freed := by
    refine h.bytes.imp fun r n hr => ?_
    obtain ⟨x, hx, hbytes⟩ := hr
    have hlt := (List.getElem?_eq_some_iff.mp hx).1
    exact ⟨x, (List.getElem?_append_left hlt).trans hx, hbytes⟩
  apply List.rel_append hold
  by_cases hs : shown p s.toSys i = true
  · rw [if_pos hs, if_pos hs]
    exact .cons (freed_size hp h he hg hs) .nil
  · rw [if_neg hs, if_neg hs]
    exact .nil

/-- A cycle in which the packets fit keeps the invariant. -/
theorem inv_step (hp : p.l2_pkt_buff_size < 2 ^ 32) (h : Inv p s) (he : env p s.toSys i)
    (hg : Orderly p s i) : Inv p (step p s i) where
  life := NicFeedback.Sys.inv_step h.life he hg.2
  lifetime := (NicFeedback.Sys.Lifetime.step_iff h.life he h.lifetime).mpr hg.2
  ledger := ledger_step hp h he hg
  rounded := rounded_step hp h he hg
  sized := by
    intro k
    apply sized_step h he
    intro hv
    cases hactive : i.pspin_active_i
    · rw [(idle he hactive).2.1] at hv
      exact absurd hv Bool.false_ne_true
    · obtain ⟨n₂, -, -, -, -, htag⟩ := ledger_driven hp h he hg.1 hactive
      exact htag hv
  bytes := bytes_step hp h he hg

theorem inv_init (h : init s) : Inv p s := by
  obtain ⟨hsys, hpackets, hfreed⟩ := h
  have hlife := NicFeedback.Sys.inv_init hsys
  have hlifetime := NicFeedback.Sys.Lifetime.init hsys
  obtain ⟨sys, packets, freed⟩ := s
  simp only at hsys hpackets hfreed hlife hlifetime
  subst hpackets hfreed
  obtain ⟨her_o, eng, ticket, ⟨pkts, metas, rfl⟩, rfl⟩ := hsys
  refine ⟨hlife, hlifetime, Ledger.reset p her_o ticket, fun x hx => absurd hx List.not_mem_nil,
    fun k => ⟨?_, ?_⟩, .nil⟩
  · intro x hx
    have hfifo : (MpqEngine.Sys.queue
        ⟨MpqEngine.reset pkts metas, fun _ => Log.empty, fun _ => []⟩ k).fifo = [] :=
      MpqEngine.Sys.fifo_init pkts k
    rw [hfifo] at hx
    exact absurd hx List.not_mem_nil
  · exact fun n t hn => absurd hn.1 (Nat.not_lt_zero n)

/-- **No byte of L2 is lost or handed out twice.** In every run in which the bytes to transfer
fill the segments of the packet, no empty ring is cut and no packet is shown without its
triggering feedback, each feedback gives back what its packet took. The buffer size is a
32-bit word. -/
theorem space_conserved (hp : p.l2_pkt_buff_size < 2 ^ 32) {is : List CycleInput} (h : init s)
    (ha : Sync.Allowed (step p) (allowed p) s is) (hg : Sync.Allowed (step p) (Orderly p) s is) :
    Sync.Always (step p) (Conserved p) s is := by
  have hinv : Sync.Always (step p) (Inv p) s is :=
    Sync.Always.of_inv (fun _ _ hi hc => inv_step hp hi hc.1 hc.2) (inv_init h) (ha.and hg)
  exact hinv.mono fun _ hi => hi.conserved

/-! One packet as in `NicFeedback`, and one of twice its length with the same bytes to
transfer. -/

def demo_start : Sys := ⟨NicFeedback.Sys.demo_start, [], []⟩

theorem demo_init : init demo_start := ⟨NicFeedback.Sys.demo_init, rfl, rfl⟩

theorem space_conserved_demo : Sync.Always (step NicFeedback.Sys.demo_params)
    (Conserved NicFeedback.Sys.demo_params) demo_start (NicFeedback.Sys.demo_cycles 0 true) :=
  space_conserved (by decide) demo_init (by decide +kernel) (by decide +kernel)

/-- A packet of 128 bytes, of which a callback wants 64 transferred. -/
def short_packet : NicInbound.incoming_her_t where
  her := { (NicFeedback.Sys.demo_packet 0).her with her_size := 128, xfer_size := 64 }
  pkt_len := 128
  wait_cycles := 0

def short_cycles : List CycleInput :=
  NicFeedback.Sys.demo_cycle [short_packet] false :: (NicFeedback.Sys.demo_cycles 0 true).tail

/-- The packet is the only one and its feedback has come, but only half of its bytes went
back to the ring. -/
theorem too_few_bytes : ¬ ∀ p s is, p.l2_pkt_buff_size < 2 ^ 32 → init s →
    Sync.Allowed (step p) (allowed p) s is →
    Sync.Allowed (step p) (fun s i => Good p s.toSys i) s is →
    (∀ i ∈ is, ∀ ih ∈ i.packets,
      ih.her.her_size.toNat = ih.pkt_len ∧ ih.her.xfer_size ≤ ih.her.her_size) →
    Sync.Always (step p) (Conserved p) s is := by
  intro hall
  have hrun := hall NicFeedback.Sys.demo_params demo_start short_cycles (by decide) demo_init
    (by decide +kernel) (by decide +kernel) (by decide +kernel)
  have hlost := hrun.last.empty
  revert hlost
  decide +kernel

end Sys

end Pspin.NicSpace
