/-
The ring of `NICInbound`.

`allocate_pkt_space` and `free_pkt_space` move a head, a tail and a cut. `Space` says which
blocks they keep: the ring holds them, the counter counts them, and what waits in the queue
of freed sizes is the size of its block. A freed block leaves when the head comes to it.

Both functions keep this up to the two things the code does not check: that a block comes
back with the size it was taken with, and that the ring is not cut while it is empty.
-/
import Pspin.NicWrites
import Pspin.RingSpace

set_option autoImplicit false

namespace Pspin.NicInbound

open RingSpace (Block Ring Holds)

/-- The pointers of the ring; the cut counts only while the flag is set. -/
def State.ring (s : State) : Ring :=
  ⟨s.head_ptr, s.tail_ptr, if s.cut then some s.cut_ptr else none⟩

/-- The ring holds these blocks, oldest first. -/
structure Space (p : Params) (s : State) (blocks : List Block) : Prop where
  holds : Holds p.l2_pkt_buff_size s.ring blocks
  count : s.in_flight_packets = blocks.length
  queue : ∀ e ∈ s.free_req_queue, (⟨e.1, e.2⟩ : Block) ∈ blocks

/-- The block came back and waits for the head. -/
def freed (s : State) (b : Block) : Prop := ∃ e ∈ s.free_req_queue, e.1 = b.offset

/-- The head has gone as far as it can. -/
def Settled (s : State) : Prop := s.free_req_queue.lookup s.head_ptr = none

/-- Nothing of the ring is different. -/
structure SameRing (s s' : State) : Prop where
  ring : s'.ring = s.ring
  in_flight_packets : s'.in_flight_packets = s.in_flight_packets
  free_req_queue : s'.free_req_queue = s.free_req_queue

section Ring

variable {p : Params} {s s' : State} {blocks : List Block} {b : Block} {n : ℕ}

theorem SameRing.refl (s : State) : SameRing s s := ⟨rfl, rfl, rfl⟩

theorem SameRing.trans {s'' : State} (h : SameRing s s') (h' : SameRing s' s'') :
    SameRing s s'' :=
  ⟨h'.ring.trans h.ring, h'.in_flight_packets.trans h.in_flight_packets,
    h'.free_req_queue.trans h.free_req_queue⟩

theorem SameRing.space (h : SameRing s s') (hs : Space p s blocks) : Space p s' blocks :=
  ⟨h.ring ▸ hs.holds, h.in_flight_packets.trans hs.count, h.free_req_queue ▸ hs.queue⟩

theorem SameRing.freed_iff (h : SameRing s s') : freed s' b ↔ freed s b := by
  rw [freed, freed, h.free_req_queue]

theorem SameRing.settled (h : SameRing s s') (hs : Settled s) : Settled s' := by
  have hhead : s'.head_ptr = s.head_ptr := congrArg Ring.head h.ring
  rw [Settled, h.free_req_queue, hhead]
  exact hs

/-- An empty ring: nothing in flight, the head at the tail, nothing waiting. -/
theorem Space.of_nil (h : Space p s []) : s.in_flight_packets = 0 ∧ s.head_ptr = s.tail_ptr
    ∧ s.cut = false ∧ s.free_req_queue = [] := by
  obtain ⟨hptr, hcut⟩ := h.holds.of_nil
  refine ⟨h.count, hptr, ?_, ?_⟩
  · by_contra hc
    have hset : s.ring.cut = some s.cut_ptr := if_pos (Bool.eq_true_of_not_eq_false hc)
    rw [hcut] at hset
    exact absurd hset (by simp)
  · exact List.eq_nil_iff_forall_not_mem.mpr fun e he => absurd (h.queue e he) List.not_mem_nil

/-! ## Freeing -/

theorem ring_retire_head (s : State) (n : ℕ) : (retire_head s n).ring = s.ring.pop n := by
  unfold retire_head State.ring Ring.pop
  cases hcut : s.cut
  · rfl
  · by_cases hat : s.head_ptr + n = s.cut_ptr
    · simp [hat]
    · have hne : ¬ s.cut_ptr = s.head_ptr + n := fun hc => hat hc.symm
      simp [hat, hne]

/-- **One round of the loop.** The head meets a freed size: it is that of the oldest
block, and only this block leaves. -/
theorem Space.retire_head (h : Space p s blocks)
    (hn : s.free_req_queue.lookup s.head_ptr = some n) : ∃ b rest, blocks = b :: rest ∧ freed s b
      ∧ Space p (retire_head s n) rest ∧ ∀ c ∈ rest, freed (retire_head s n) c ↔ freed s c := by
  obtain ⟨before, after, hqueue, -⟩ := List.lookup_eq_some_iff.mp hn
  have hentry : (s.head_ptr, n) ∈ s.free_req_queue := by
    rw [hqueue]
    exact List.mem_append_right _ List.mem_cons_self
  have hmem := h.queue _ hentry
  obtain ⟨b, rest, rfl⟩ := List.exists_cons_of_ne_nil (List.ne_nil_of_mem hmem)
  have hhead : b.offset = s.head_ptr := h.holds.head_eq
  -- the other blocks begin elsewhere
  have hother : ∀ c ∈ rest, c.offset ≠ s.head_ptr := by
    intro c hc
    rw [← hhead]
    have hapart := (List.pairwise_cons.mp h.holds.apart).1 c hc
    have hb := (h.holds.bounds List.mem_cons_self).1
    exact (hapart.offset_ne hb (h.holds.bounds (List.mem_cons_of_mem _ hc)).1).symm
  have hsize : (⟨s.head_ptr, n⟩ : Block) = b := by
    rcases List.mem_cons.mp hmem with heq | hc
    · exact heq
    · exact absurd rfl (hother _ hc)
  refine ⟨b, rest, rfl, ⟨_, hentry, hhead.symm⟩, ⟨?_, ?_, ?_⟩, fun c hc => ?_⟩
  · rw [ring_retire_head]
    have hpop := h.holds.pop
    rwa [← hsize] at hpop
  · show s.in_flight_packets - 1 = rest.length
    rw [h.count, List.length_cons, Nat.add_sub_cancel]
  · intro e he
    obtain ⟨he, hne⟩ := List.mem_filter.mp he
    rw [bne_iff_ne] at hne
    rcases List.mem_cons.mp (h.queue e he) with heq | hc
    · exact absurd (congrArg Block.offset (heq.trans hsize.symm)) hne
    · exact hc
  · constructor
    · rintro ⟨e, he, heq⟩
      exact ⟨e, (List.mem_filter.mp he).1, heq⟩
    · rintro ⟨e, he, heq⟩
      refine ⟨e, List.mem_filter.mpr ⟨he, ?_⟩, heq⟩
      rw [bne_iff_ne, heq]
      exact hother c hc

/-- A round takes an entry out of the queue. -/
theorem length_retire_head (hn : s.free_req_queue.lookup s.head_ptr = some n) :
    (NicInbound.retire_head s n).free_req_queue.length < s.free_req_queue.length := by
  obtain ⟨before, after, hqueue, -⟩ := List.lookup_eq_some_iff.mp hn
  apply List.length_filter_lt_length_iff_exists.mpr
  refine ⟨(s.head_ptr, n), ?_, by simp⟩
  rw [hqueue]
  exact List.mem_append_right _ List.mem_cons_self

/-- **The loop**: the oldest blocks leave, all of them freed, until the head is at a block
that is not. -/
theorem Space.advance_head (h : Space p s blocks) (hlen : s.free_req_queue.length ≤ n) :
    ∃ j ≤ blocks.length, Space p (advance_head n s) (blocks.drop j)
      ∧ Settled (advance_head n s) ∧ (∀ b ∈ blocks.take j, freed s b)
      ∧ ∀ b ∈ blocks.drop j, freed (advance_head n s) b ↔ freed s b := by
  -- each round retires one freed block, and the queue is one shorter
  induction n generalizing s blocks with
  | zero =>
      have hnil : s.free_req_queue = [] := List.length_eq_zero_iff.mp (Nat.le_zero.mp hlen)
      refine ⟨0, Nat.zero_le _, h, ?_, fun b hb => absurd hb List.not_mem_nil, fun b _ => Iff.rfl⟩
      show s.free_req_queue.lookup s.head_ptr = none
      rw [hnil]
      rfl
  | succ n ih =>
      unfold NicInbound.advance_head
      cases hlook : s.free_req_queue.lookup s.head_ptr with
      | none =>
          exact ⟨0, Nat.zero_le _, h, hlook, fun b hb => absurd hb List.not_mem_nil,
            fun b _ => Iff.rfl⟩
      | some inc =>
          obtain ⟨b, rest, rfl, hb, hspace, hsame⟩ := h.retire_head hlook
          have hless := length_retire_head hlook
          obtain ⟨j, hj, hspace', hsettled, hgone, hkept⟩ := ih hspace (by omega)
          refine ⟨j + 1, Nat.succ_le_succ hj, hspace', hsettled, ?_, ?_⟩
          · intro c hc
            rcases List.mem_cons.mp hc with rfl | hc
            · exact hb
            · exact (hsame c (List.mem_of_mem_take hc)).mp (hgone c hc)
          · intro c hc
            exact (hkept c hc).trans (hsame c (List.mem_of_mem_drop hc))

/-- **A block comes back** with its own size: it is freed, and every block that leaves
then was freed before it or is the block itself. -/
theorem Space.free_pkt_space (h : Space p s blocks) (hb : b ∈ blocks) {addr : mem_addr_t}
    {size : mem_size_t} (hoff : (addr - p.l2_pkt_buff_start).toNat = b.offset)
    (hsize : round_up size.toNat = b.size) (hfree : free_pkt_space p s addr size = some s') :
    ∃ j ≤ blocks.length, Space p s' (blocks.drop j) ∧ Settled s'
      ∧ (∀ c ∈ blocks.take j, freed s c ∨ c.offset = b.offset)
      ∧ ∀ c ∈ blocks.drop j, freed s' c ↔ (freed s c ∨ c.offset = b.offset) := by
  unfold NicInbound.free_pkt_space at hfree
  simp only at hfree
  split_ifs at hfree
  obtain rfl := Option.some.inj hfree
  rw [hoff, hsize]
  -- the entry is that of the block
  have hadd : Space p (add_free_req s b.offset b.size) blocks := by
    refine ⟨h.holds, h.count, ?_⟩
    intro e he
    rcases List.mem_cons.mp he with rfl | he
    · exact hb
    · exact h.queue e he
  have hfreed : ∀ c, freed (add_free_req s b.offset b.size) c
      ↔ (freed s c ∨ c.offset = b.offset) := by
    intro c
    unfold freed add_free_req
    rw [List.exists_mem_cons_iff, or_comm]
    exact or_congr Iff.rfl eq_comm
  obtain ⟨j, hj, hspace, hsettled, hgone, hkept⟩ := hadd.advance_head (le_refl _)
  exact ⟨j, hj, hspace, hsettled, fun c hc => (hfreed c).mp (hgone c hc),
    fun c hc => (hkept c hc).trans (hfreed c)⟩

/-! ## Allocating -/

/-- **A block is taken** at the address returned, in front of the new tail. An empty ring
must have room up to the end of the buffer. -/
theorem Space.allocate_pkt_space (hp : p.l2_pkt_buff_size < 2 ^ 32) (h : Space p s blocks)
    (hpos : 0 < round_up n)
    (hroom : s.in_flight_packets = 0 → round_up n ≤ p.l2_pkt_buff_size - s.tail_ptr)
    {addr : mem_addr_t} (ha : allocate_pkt_space p s n = some (addr, s')) :
    Space p s' (blocks ++ [⟨(addr - p.l2_pkt_buff_start).toNat, round_up n⟩])
      ∧ s'.tail_ptr = (addr - p.l2_pkt_buff_start).toNat + round_up n
      ∧ s'.head_ptr = s.head_ptr ∧ s'.free_req_queue = s.free_req_queue := by
  have htail : s.tail_ptr ≤ p.l2_pkt_buff_size := h.holds.tail_le
  have hoff : ∀ o < 2 ^ 32,
      (p.l2_pkt_buff_start + BitVec.ofNat _ o - p.l2_pkt_buff_start).toNat = o := by
    intro o ho
    rw [BitVec.add_comm, BitVec.add_sub_cancel, BitVec.toNat_ofNat]
    exact Nat.mod_eq_of_lt ho
  have hqueue : ∀ c, ∀ e ∈ s.free_req_queue, (⟨e.1, e.2⟩ : Block) ∈ blocks ++ [c] :=
    fun c e he => List.mem_append_left _ (h.queue e he)
  have hcount : ∀ c : Block, s.in_flight_packets + 1 = (blocks ++ [c]).length := by
    intro c
    rw [List.length_append, h.count]
    rfl
  unfold NicInbound.allocate_pkt_space at ha
  simp only at ha
  split_ifs at ha with hfront hfits hwraps hbehind hgap
  · -- behind the tail, up to the end of the buffer
    obtain ⟨rfl, rfl⟩ := Prod.mk.inj (Option.some.inj ha)
    rw [hoff _ (by omega)]
    refine ⟨⟨h.holds.push hpos ?_ ?_, hcount _, hqueue _⟩, rfl, rfl, rfl⟩
    · intro _
      show s.tail_ptr + round_up n ≤ p.l2_pkt_buff_size
      omega
    · intro hcut
      rcases hfront with hlt | ⟨-, hzero⟩
      · exact absurd (h.holds.cut_eq_none hlt) hcut
      · -- an empty ring is not cut
        have hnil := List.length_eq_zero_iff.mp (h.count.symm.trans hzero)
        rw [hnil] at h
        exact absurd h.holds.of_nil.2 hcut
  · -- at the front of the buffer: the blocks up to the tail stay where they are
    obtain ⟨rfl, rfl⟩ := Prod.mk.inj (Option.some.inj ha)
    have hlt : s.head_ptr < s.tail_ptr := by
      rcases hfront with hlt | ⟨-, hzero⟩
      · exact hlt
      · exact absurd (hroom hzero) hfits
    have hne : blocks ≠ [] := by
      rintro rfl
      have heq : s.head_ptr = s.tail_ptr := h.holds.of_nil.1
      omega
    rw [hoff 0 (by decide), Nat.zero_add]
    have hwrap := h.holds.wrap (h.holds.cut_eq_none hlt) hne hpos hwraps
    exact ⟨⟨hwrap, hcount _, hqueue _⟩, rfl, rfl, rfl⟩
  · -- between the tail and the head
    obtain ⟨rfl, rfl⟩ := Prod.mk.inj (Option.some.inj ha)
    rw [hoff _ (by omega)]
    refine ⟨⟨h.holds.push hpos ?_ ?_, hcount _, hqueue _⟩, rfl, rfl, rfl⟩
    · exact fun hcut => absurd hcut (h.holds.cut_ne_none hbehind)
    · intro _
      show s.tail_ptr + round_up n ≤ s.head_ptr
      omega

/-- The block just taken is not freed. -/
theorem Space.not_freed_last {c : Block} (h : Space p s blocks) (h' : Space p s' (blocks ++ [c]))
    (hqueue : s'.free_req_queue = s.free_req_queue) : ¬ freed s' c := by
  rintro ⟨e, he, heq⟩
  rw [hqueue] at he
  obtain ⟨i, hi⟩ := List.mem_iff_getElem?.mp (h.queue e he)
  have hlt : i < blocks.length := (List.getElem?_eq_some_iff.mp hi).1
  have hi' : (blocks ++ [c])[i]? = some ⟨e.1, e.2⟩ := by
    rw [List.getElem?_append_left hlt]
    exact hi
  have hidx := h'.holds.index_eq hi' List.getElem?_concat_length heq
  omega

/-! ## A rising edge -/

/-- Incoming packets: none is accepted and the ring stays, or the space of one is taken. -/
theorem incoming_ring (p : Params) (s : State) (sim_time : ℕ) :
    (accepting p s sim_time = none ∧ SameRing s (progress_incoming_packets p s sim_time))
      ∨ ∃ w s₀ s₁, accepting p s sim_time = some w ∧ SameRing s s₀
        ∧ allocate_pkt_space p s₀ w.pkt_len = some (w.her.her_addr, s₁)
        ∧ SameRing s₁ (progress_incoming_packets p s sim_time) := by
  unfold progress_incoming_packets accepting
  cases hq : s.incoming_hers with
  | nil => exact Or.inl ⟨rfl, SameRing.refl s⟩
  | cons ih rest =>
      simp only
      by_cases hwait : 0 < s.packet_wait_cycles - 1
      · rw [if_pos hwait, if_pos hwait]
        exact Or.inl ⟨rfl, rfl, rfl, rfl⟩
      · rw [if_neg hwait, if_neg hwait, process_packet]
        generalize halloc : NicInbound.allocate_pkt_space p _ ih.pkt_len = found
        cases found with
        | none => exact Or.inl ⟨rfl, rfl, rfl, rfl⟩
        | some r =>
            refine Or.inr ⟨_, _, r.2, rfl, ?_, halloc, rfl, rfl, rfl⟩
            exact ⟨rfl, rfl, rfl⟩

theorem her_progress_ring {i : Input} (h : her_progress_posedge s i = some s') :
    SameRing s s' := by
  unfold her_progress_posedge at h
  simp only at h
  split_ifs at h
  · obtain rfl := Option.some.inj h
    exact ⟨rfl, rfl, rfl⟩
  · cases hq : s.ready_hers with
    | nil =>
        rw [hq] at h
        obtain rfl := Option.some.inj h
        exact ⟨rfl, rfl, rfl⟩
    | cons her rest =>
        rw [hq] at h
        simp only at h
        split_ifs at h
        obtain rfl := Option.some.inj h
        exact ⟨rfl, rfl, rfl⟩

/-- A feedback returns the space of the packet on the lines, when it is in the map. -/
theorem feedback_ring {i : Input} (h : feedback_progress p s i = some s') :
    (s.pktmap i.feedback_her_addr_i = none ∧ s' = s)
      ∨ (∃ s₁, (s.pktmap i.feedback_her_addr_i).isSome = true
        ∧ NicInbound.free_pkt_space p s i.feedback_her_addr_i i.feedback_her_size_i = some s₁
        ∧ SameRing s₁ s') := by
  unfold feedback_progress at h
  split_ifs at h with hin
  · split at h
    · exact absurd h (by simp)
    · rename_i s₁ hfree
      obtain rfl := Option.some.inj h
      exact Or.inr ⟨s₁, hin, hfree, rfl, rfl, rfl⟩
  · exact Or.inl ⟨Option.not_isSome_iff_eq_none.mp hin, (Option.some.inj h).symm⟩

end Ring

end Pspin.NicInbound
