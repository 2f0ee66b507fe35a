/-
The packets of `NICInbound`, in the order of their acceptance.

A packet gets its space when it is accepted, waits for its write, is driven as a HER and
comes back by its address. The ledger numbers the packets as they are accepted. HERs are
driven in the same order, so the ticket of a HER is the number of its packet. `Ledger` ties
the numbers to the ring: what is behind the head and what waits in the queue of freed sizes
is exactly what was returned. There is one lemma for each part of `posedge`.
-/
import Pspin.NicSpace

set_option autoImplicit false

namespace Pspin.NicInbound

open RingSpace (Block Holds)
open RingSpace.Block (Apart)

/-- A packet in L2: its address, the bytes taken for it, and the bytes to transfer. -/
structure packet_t where
  her_addr : mem_addr_t
  bytes : ℕ
  xfer_size : mem_size_t
deriving DecidableEq

/-- The packet's part of the ring. -/
def packet_t.block (p : Params) (x : packet_t) : Block :=
  ⟨(x.her_addr - p.l2_pkt_buff_start).toNat, x.bytes⟩

/-- An accepted packet takes the bytes up to the tail behind it. -/
def write_t.packet (p : Params) (tail_ptr : ℕ) (w : write_t) : packet_t :=
  ⟨w.her.her_addr, tail_ptr - (w.her.her_addr - p.l2_pkt_buff_start).toNat, w.her.xfer_size⟩

/-- What is asked of a packet when it is accepted: the bytes to transfer fill as many
segments of the ring as the packet, at least one, and an empty ring has room for it up to
the end of the buffer. -/
def Fits (p : Params) (s : State) (w : write_t) : Prop :=
  0 < round_up w.pkt_len ∧ round_up w.her.xfer_size.toNat = round_up w.pkt_len
    ∧ (s.in_flight_packets = 0 → round_up w.pkt_len ≤ p.l2_pkt_buff_size - s.tail_ptr)

instance (p : Params) (s : State) (w : write_t) : Decidable (Fits p s w) :=
  inferInstanceAs (Decidable (_ ∧ _ ∧ _))

theorem SameRing.fits {p : Params} {s s' : State} {w : write_t} (h : SameRing s s')
    (hf : Fits p s w) : Fits p s' w := by
  have htail : s'.tail_ptr = s.tail_ptr := congrArg RingSpace.Ring.tail h.ring
  refine ⟨hf.1, hf.2.1, ?_⟩
  rw [h.in_flight_packets, htail]
  exact hf.2.2

/-- The address and the transfer size, as the HER carries them. -/
def packet_t.tag (x : packet_t) : mem_addr_t × mem_size_t := (x.her_addr, x.xfer_size)

def nic_her_t.tag (h : nic_her_t) : mem_addr_t × mem_size_t := (h.her_addr, h.xfer_size)

/-- The packets in the order of their acceptance, `hers` of them driven. -/
structure Ledger (p : Params) (s : State) (packets : List packet_t) (hers : ℕ)
    (ticket : mem_addr_t → ℕ) (returned : List ℕ) : Prop where
  /-- from number `k` on the packets are in the ring -/
  ring : ∃ k ≤ packets.length, Space p s ((packets.drop k).map (·.block p))
    ∧ ∀ t x, packets[t]? = some x → (t ∈ returned ↔ t < k ∨ freed s (x.block p))
  settled : Settled s
  driven : hers ≤ packets.length
  waiting : (packets.drop hers).map (·.tag) = (s.ready_hers ++ s.queued_hers).map (·.tag)
  mapped : ∀ a, (s.pktmap a).isSome = true → ∃ x, packets[ticket a]? = some x ∧ x.her_addr = a

namespace Ledger

variable {p : Params} {s s' : State} {i : Input} {sim_time : ℕ} {packets : List packet_t}
  {hers : ℕ} {ticket : mem_addr_t → ℕ} {returned : List ℕ}

/-! ## What the ledger says about the ring -/

theorem reset (p : Params) (her_o : her_descr_t) (ticket : mem_addr_t → ℕ) :
    Ledger p (NicInbound.reset her_o) [] 0 ticket [] where
  ring := by
    refine ⟨0, le_refl _, ⟨.straight rfl (Nat.zero_le _), rfl, ?_⟩, ?_⟩
    · exact fun e he => absurd he List.not_mem_nil
    · exact fun t x hx => absurd hx (by simp)
  settled := rfl
  driven := le_refl _
  waiting := rfl
  mapped := fun a ha => absurd ha (by simp [NicInbound.reset])

/-- A packet that was not returned is in the ring, behind those that left it. -/
theorem in_ring {k t : ℕ} {x : packet_t} (hx : packets[t]? = some x) (hk : k ≤ t) :
    ((packets.drop k).map (·.block p))[t - k]? = some (x.block p) := by
  rw [List.getElem?_map, List.getElem?_drop, Nat.add_sub_cancel' hk, hx]
  rfl

/-- **Live packets do not overlap**, and lie in the buffer. -/
theorem live_apart (h : Ledger p s packets hers ticket returned) {t : ℕ} {x : packet_t}
    (hx : packets[t]? = some x) (ht : t ∉ returned) :
    (x.block p).stop ≤ p.l2_pkt_buff_size
      ∧ ∀ u y, packets[u]? = some y → u ∉ returned → t ≠ u → Apart (x.block p) (y.block p) := by
  obtain ⟨k, -, hspace, hreturned⟩ := h.ring
  -- what has not been returned is still in the ring
  have hge : ∀ u y, packets[u]? = some y → u ∉ returned → k ≤ u := fun u y hy hu =>
    Nat.le_of_not_lt fun hlt => hu ((hreturned u y hy).mpr (Or.inl hlt))
  have hkt := hge t x hx ht
  have hxb := in_ring (p := p) hx hkt
  refine ⟨(hspace.holds.bounds (List.mem_of_getElem? hxb)).2, ?_⟩
  intro u y hy hu hne
  have hku := hge u y hy hu
  have hyb := in_ring (p := p) hy hku
  obtain ⟨hti, hxe⟩ := List.getElem?_eq_some_iff.mp hxb
  obtain ⟨hui, hye⟩ := List.getElem?_eq_some_iff.mp hyb
  have hpair := List.pairwise_iff_getElem.mp hspace.holds.apart
  rw [← hxe, ← hye]
  rcases Nat.lt_or_ge t u with hlt | hge
  · exact hpair _ _ hti hui (by omega)
  · exact (hpair _ _ hui hti (by omega)).symm

/-- **When every packet was returned the ring is empty.** -/
theorem empty (h : Ledger p s packets hers ticket returned)
    (hall : ∀ t < packets.length, t ∈ returned) : s.in_flight_packets = 0
      ∧ s.head_ptr = s.tail_ptr ∧ s.cut = false ∧ s.free_req_queue = [] := by
  obtain ⟨k, hk, hspace, hreturned⟩ := h.ring
  rcases Nat.lt_or_ge k packets.length with hlt | hge
  · -- the oldest block of the ring would be freed, and the head stands at it
    exfalso
    rcases (hreturned k _ (List.getElem?_eq_getElem hlt)).mp (hall k hlt) with hc | ⟨e, he, heq⟩
    · exact Nat.lt_irrefl k hc
    · rw [List.drop_eq_getElem_cons hlt, List.map_cons] at hspace
      have hhead : (packets[k].block p).offset = s.head_ptr := hspace.holds.head_eq
      have hnone := List.lookup_eq_none_iff.mp h.settled e he
      rw [heq, hhead, bne_iff_ne] at hnone
      exact hnone rfl
  · have hnil : packets.drop k = [] := List.drop_eq_nil_of_le hge
    rw [hnil] at hspace
    exact hspace.of_nil

/-! ## The parts of a rising edge -/

/-- What touches neither the ring nor the HERs. -/
theorem congr (h : Ledger p s packets hers ticket returned) (hring : SameRing s s')
    (hhers : s'.ready_hers ++ s'.queued_hers = s.ready_hers ++ s.queued_hers)
    (hmap : s'.pktmap = s.pktmap) : Ledger p s' packets hers ticket returned where
  ring := by
    obtain ⟨k, hk, hspace, hreturned⟩ := h.ring
    refine ⟨k, hk, hring.space hspace, fun t x hx => ?_⟩
    rw [hring.freed_iff]
    exact hreturned t x hx
  settled := hring.settled h.settled
  driven := h.driven
  waiting := h.waiting.trans (congrArg _ hhers.symm)
  mapped := by
    rw [hmap]
    exact h.mapped

theorem app_calls (h : Ledger p s packets hers ticket returned) (calls : List incoming_her_t)
    (eos : Bool) :
    Ledger p (NicInbound.app_calls s calls eos) packets hers ticket returned
      ∧ SameRing s (NicInbound.app_calls s calls eos) := by
  rw [app_calls_eq]
  exact ⟨h.congr ⟨rfl, rfl, rfl⟩ rfl rfl, rfl, rfl, rfl⟩

/-- A completed write moves a HER from one list to the other. -/
theorem write_responses (h : Ledger p s packets hers ticket returned) {write_completed : Bool}
    (hresp : progress_axi_write_responses s write_completed = some s') :
    Ledger p s' packets hers ticket returned ∧ SameRing s s' := by
  unfold progress_axi_write_responses at hresp
  split_ifs at hresp
  · cases hq : s.queued_hers with
    | nil =>
        rw [hq] at hresp
        exact absurd hresp (by simp)
    | cons her rest =>
        rw [hq] at hresp
        obtain rfl := Option.some.inj hresp
        refine ⟨h.congr ⟨rfl, rfl, rfl⟩ ?_ rfl, rfl, rfl, rfl⟩
        show (s.ready_hers ++ [her]) ++ rest = s.ready_hers ++ s.queued_hers
        rw [hq, List.append_assoc, List.singleton_append]
  · obtain rfl := Option.some.inj hresp
    exact ⟨h, SameRing.refl s⟩

/-- A new packet is neither returned nor freed. -/
theorem returned_take {s₁ : State} {k : ℕ} {new : packet_t}
    (hqueue : s₁.free_req_queue = s.free_req_queue)
    (hreturned : ∀ t x, packets[t]? = some x → (t ∈ returned ↔ t < k ∨ freed s (x.block p)))
    (hnew : packets.length ∉ returned) (hfree : k ≤ packets.length ∧ ¬ freed s₁ (new.block p)) :
    ∀ t x, (packets ++ [new])[t]? = some x → (t ∈ returned ↔ t < k ∨ freed s₁ (x.block p)) := by
  intro t x hx
  rcases Nat.lt_or_ge t packets.length with hlt | hge
  · rw [List.getElem?_append_left hlt] at hx
    rw [freed, hqueue]
    exact hreturned t x hx
  · have ht : t = packets.length := by
      have := (List.getElem?_eq_some_iff.mp hx).1
      rw [List.length_append, List.length_singleton] at this
      omega
    -- the new packet lies behind all freed ones and has no ticket yet
    subst ht
    rw [List.getElem?_concat_length, Option.some.injEq] at hx
    subst hx
    refine ⟨fun hin => absurd hin hnew, ?_⟩
    rintro (hc | hc)
    · exact absurd hc (Nat.not_lt.mpr hfree.1)
    · exact absurd hc hfree.2

/-- A packet whose space is taken gets the next number. -/
theorem take (hp : p.l2_pkt_buff_size < 2 ^ 32) (h : Ledger p s packets hers ticket returned)
    (hlt : ∀ t ∈ returned, t < hers) {w : write_t} (hfits : Fits p s w)
    (hqueued : s'.ready_hers = s.ready_hers ∧ s'.queued_hers = s.queued_hers ++ [w.her])
    (hmap : s'.pktmap = s.pktmap) {s₀ s₁ : State} (hring₀ : SameRing s s₀)
    (halloc : allocate_pkt_space p s₀ w.pkt_len = some (w.her.her_addr, s₁))
    (hring : SameRing s₁ s') : Ledger p s' (packets ++ [w.packet p s'.tail_ptr]) hers ticket returned
      ∧ round_up w.her.xfer_size.toNat = (w.packet p s'.tail_ptr).bytes := by
  obtain ⟨hpos, hxfer, hroom⟩ := hfits
  obtain ⟨k, hk, hspace, hreturned⟩ := h.ring
  have htail₀ : s₀.tail_ptr = s.tail_ptr := congrArg RingSpace.Ring.tail hring₀.ring
  have hhead₀ : s₀.head_ptr = s.head_ptr := congrArg RingSpace.Ring.head hring₀.ring
  rw [← hring₀.in_flight_packets, ← htail₀] at hroom
  obtain ⟨htaken, htail, hhead, hqueue⟩ :=
    (hring₀.space hspace).allocate_pkt_space hp hpos hroom halloc
  rw [hhead₀] at hhead
  rw [hring₀.free_req_queue] at hqueue
  -- the block the packet remembers is the one that was taken
  have htail' : s'.tail_ptr = s₁.tail_ptr := congrArg RingSpace.Ring.tail hring.ring
  have hbytes : (w.packet p s'.tail_ptr).bytes = round_up w.pkt_len := by
    show s'.tail_ptr - _ = _
    rw [htail', htail, Nat.add_sub_cancel_left]
  have hblock : (w.packet p s'.tail_ptr).block p
      = ⟨(w.her.her_addr - p.l2_pkt_buff_start).toNat, round_up w.pkt_len⟩ := by
    rw [packet_t.block, hbytes]
    rfl
  refine ⟨⟨⟨k, ?_, ?_, ?_⟩, ?_, ?_, ?_, ?_⟩, hxfer.trans hbytes.symm⟩
  · rw [List.length_append]
    exact hk.trans (Nat.le_add_right _ _)
  · rw [List.drop_append_of_le_length hk, List.map_append, List.map_singleton, hblock]
    exact hring.space htaken
  · intro t x hx
    rw [hring.freed_iff]
    refine returned_take hqueue hreturned (fun hin => ?_) ?_ t x hx
    · -- its HER is still to be driven
      exact absurd (hlt _ hin) (Nat.not_lt.mpr h.driven)
    · rw [hblock]
      exact ⟨hk, hspace.not_freed_last htaken hqueue⟩
  · apply hring.settled
    rw [Settled, hqueue, hhead]
    exact h.settled
  · rw [List.length_append]
    exact h.driven.trans (Nat.le_add_right _ _)
  · rw [List.drop_append_of_le_length h.driven, List.map_append, h.waiting, hqueued.1, hqueued.2]
    simp only [List.map_append, List.append_assoc]
    rfl
  · intro a ha
    rw [hmap] at ha
    obtain ⟨x, hx, haddr⟩ := h.mapped a ha
    have hlt := (List.getElem?_eq_some_iff.mp hx).1
    exact ⟨x, (List.getElem?_append_left hlt).trans hx, haddr⟩

/-- **An accepted packet** gets the next number. -/
theorem incoming (hp : p.l2_pkt_buff_size < 2 ^ 32)
    (h : Ledger p s packets hers ticket returned) (hlt : ∀ t ∈ returned, t < hers)
    (hfits : ∀ w ∈ accepting p s sim_time, Fits p s w)
    (hs : progress_incoming_packets p s sim_time = s') :
    Ledger p s' (packets ++ ((accepting p s sim_time).map (·.packet p s'.tail_ptr)).toList)
      hers ticket returned
      ∧ ∀ x ∈ (accepting p s sim_time).map (·.packet p s'.tail_ptr),
        round_up x.xfer_size.toNat = x.bytes := by
  subst hs
  obtain ⟨hqueued, -⟩ := incoming_queues p s sim_time
  have hport := progress_incoming_packets_port p s sim_time
  rcases incoming_ring p s sim_time with ⟨hnone, hring⟩ | ⟨w, s₀, s₁, hsome, hring₀, halloc, hring⟩
  · rw [hnone] at hqueued ⊢
    refine ⟨?_, fun x hx => absurd hx (by simp)⟩
    rw [Option.map_none, Option.toList_none, List.append_nil] at hqueued ⊢
    exact h.congr hring (by rw [hport.ready_hers, hqueued]) hport.pktmap
  · rw [hsome] at hqueued ⊢
    have hfits' := hfits w hsome
    obtain ⟨htake, hbytes⟩ := h.take hp hlt hfits' ⟨hport.ready_hers, hqueued⟩ hport.pktmap hring₀
      halloc hring
    refine ⟨htake, fun x hx => ?_⟩
    obtain rfl := Option.some.inj hx
    exact hbytes

/-- **Driving a HER**: it is the packet with the number of its ticket. -/
theorem drive (h : Ledger p s packets hers ticket returned)
    (hs : her_progress_posedge s i = some s') : Ledger p s' packets
      (hers + if s'.her_valid_o then 1 else 0)
      (if s'.her_valid_o then Function.update ticket s'.her_o.her_addr hers else ticket) returned
      ∧ (s'.her_valid_o = true → ∃ x, packets[hers]? = some x
        ∧ x.tag = (s'.her_o.her_addr, s'.her_o.xfer_size)) := by
  have hring := her_progress_ring hs
  obtain ⟨hsame, -⟩ := her_progress_queues hs
  rcases her_progress_cases hs with ⟨-, rfl⟩ | ⟨her, rest, -, hready, -, hv, ho, hrest, hmap⟩
  · exact ⟨h.congr hring rfl rfl, fun hc => absurd hc Bool.false_ne_true⟩
  · -- the first waiting packet
    have hwait := h.waiting
    rw [hready, List.cons_append, List.map_cons] at hwait
    have hlt : hers < packets.length := by
      by_contra hc
      rw [List.drop_eq_nil_of_le (Nat.le_of_not_lt hc)] at hwait
      exact absurd hwait (by simp)
    rw [List.drop_eq_getElem_cons hlt, List.map_cons, List.cons.injEq] at hwait
    have hx : packets[hers]? = some packets[hers] := List.getElem?_eq_getElem hlt
    rw [hv, if_pos rfl, if_pos rfl, ho]
    refine ⟨⟨?_, hring.settled h.settled, hlt, ?_, ?_⟩, fun _ => ⟨_, hx, hwait.1⟩⟩
    · obtain ⟨k, hk, hspace, hreturned⟩ := h.ring
      refine ⟨k, hk, hring.space hspace, fun t x hx => ?_⟩
      rw [hring.freed_iff]
      exact hreturned t x hx
    · rw [hrest, hsame.queued_hers]
      exact hwait.2
    · intro a ha
      rw [hmap] at ha
      by_cases haa : a = her.her_addr
      · rw [haa, Function.update_self]
        exact ⟨_, hx, congrArg Prod.fst hwait.1⟩
      · rw [Function.update_of_ne haa] at ha ⊢
        exact h.mapped a ha

/-- In the ring, a block at the offset of a packet is the packet's. -/
theorem offset_eq_iff {k t u : ℕ} {x y : packet_t}
    (hspace : Space p s ((packets.drop k).map (·.block p))) (hx : packets[t]? = some x)
    (ht : k ≤ t) (hy : packets[u]? = some y) (hu : k ≤ u) :
    (y.block p).offset = (x.block p).offset ↔ u = t := by
  constructor
  · intro heq
    have := hspace.holds.index_eq (in_ring hy hu) (in_ring hx ht) heq
    omega
  · rintro rfl
    rw [hx, Option.some.injEq] at hy
    rw [hy]

/-- The packets returned are those that left the ring and those freed, also when packet `n`
was freed and `j` more have left. -/
theorem returned_give_back {s₁ : State} {k j n : ℕ} {x : packet_t}
    (hspace : Space p s ((packets.drop k).map (·.block p)))
    (hreturned : ∀ t y, packets[t]? = some y → (t ∈ returned ↔ t < k ∨ freed s (y.block p)))
    (hx : packets[n]? = some x) (hn : k ≤ n)
    (hgone : ∀ b ∈ ((packets.drop k).map (·.block p)).take j,
      freed s b ∨ b.offset = (x.block p).offset)
    (hkept : ∀ b ∈ ((packets.drop k).map (·.block p)).drop j,
      (freed s₁ b ↔ (freed s b ∨ b.offset = (x.block p).offset))) :
    ∀ t y, packets[t]? = some y → (t ∈ returned ++ [n] ↔ t < k + j ∨ freed s₁ (y.block p)) := by
  intro t y hy
  rw [List.mem_append, List.mem_singleton, hreturned t y hy]
  rcases Nat.lt_or_ge t k with hlt | hge
  · exact ⟨fun _ => Or.inl (by omega), fun _ => Or.inl (Or.inl hlt)⟩
  have hyb := in_ring (p := p) hy hge
  rw [← offset_eq_iff hspace hx hn hy hge, or_assoc]
  rcases Nat.lt_or_ge t (k + j) with hlt | hge'
  · -- it leaves the ring
    have hmem : y.block p ∈ ((packets.drop k).map (·.block p)).take j :=
      List.mem_of_getElem? ((List.getElem?_take_of_lt (by omega)).trans hyb)
    exact ⟨fun _ => Or.inl hlt, fun _ => Or.inr (hgone _ hmem)⟩
  · -- it stays
    have hmem : y.block p ∈ ((packets.drop k).map (·.block p)).drop j := by
      apply List.mem_of_getElem? (i := t - k - j)
      rw [List.getElem?_drop, Nat.add_sub_cancel' (by omega)]
      exact hyb
    rw [hkept _ hmem]
    exact ⟨fun hc => Or.inr (hc.resolve_left (by omega)),
      fun hc => Or.inr (hc.resolve_left (by omega))⟩

/-- **A packet comes back** by its address, with its own size: it is the only one more that
was returned. -/
theorem give_back (h : Ledger p s packets hers ticket returned)
    (hin : (s.pktmap i.feedback_her_addr_i).isSome = true)
    (hnot : ticket i.feedback_her_addr_i ∉ returned)
    (hsize : ∀ x, packets[ticket i.feedback_her_addr_i]? = some x →
      round_up i.feedback_her_size_i.toNat = x.bytes)
    (hs : feedback_progress p s i = some s') :
    Ledger p s' packets hers ticket (returned ++ [ticket i.feedback_her_addr_i]) := by
  obtain ⟨x, hx, haddr⟩ := h.mapped _ hin
  obtain ⟨k, hk, hspace, hreturned⟩ := h.ring
  obtain ⟨hsame, hready⟩ := feedback_queues hs
  obtain ⟨-, -, -, hmap⟩ := feedback_progress_port hs
  -- blocks before `k` have been returned, so this packet is still in the ring
  have hkt : k ≤ ticket i.feedback_her_addr_i :=
    Nat.le_of_not_lt fun hc => hnot ((hreturned _ x hx).mpr (Or.inl hc))
  -- a feedback for an unmapped address would be ignored
  rcases feedback_ring hs with ⟨hnone, -⟩ | ⟨s₁, -, hfree, hring⟩
  · rw [hnone] at hin
    exact absurd hin (by simp)
  have hoff : (i.feedback_her_addr_i - p.l2_pkt_buff_start).toNat = (x.block p).offset := by
    rw [← haddr]
    rfl
  obtain ⟨j, hj, hspace', hsettled, hgone, hkept⟩ :=
    hspace.free_pkt_space (List.mem_of_getElem? (in_ring hx hkt)) hoff (hsize x hx) hfree
  rw [← List.map_drop, List.drop_drop] at hspace'
  rw [List.length_map, List.length_drop] at hj
  refine ⟨⟨k + j, by omega, hring.space hspace', ?_⟩, hring.settled hsettled, h.driven, ?_, ?_⟩
  · intro t y hy
    rw [hring.freed_iff]
    exact returned_give_back hspace hreturned hx hkt hgone hkept t y hy
  · rw [hready, hsame.queued_hers]
    exact h.waiting
  · intro a ha
    apply h.mapped
    rw [hmap] at ha
    by_cases haa : a = i.feedback_her_addr_i
    · rw [haa, Function.update_self] at ha
      exact absurd ha (by simp)
    · rwa [Function.update_of_ne haa] at ha

end Ledger

end Pspin.NicInbound
