/-
The reads of `NICOutbound`, and the packets that take their data.

`gone` are the packets that have left `dma_pkt_in_flight`, `dma` those in it. `Reads` says
that the packets gone are those whose beats have all arrived, and that the oldest packet in
flight holds the data of the beats of its own that have. Two counts are involved: responses
count the beats of bursts, and the entries of `read_queue` count the bursts of packets.
-/
import Pspin.NicCuts

set_option autoImplicit false

namespace Pspin.NicOutbound

open AxiDriver (AXI_SW axi_ax_beat_t n_beats create_ax_beats bytes_le_burst_beats burst_beats_pos)
open AxiMaster (axi_r_queue_entry_t after_response read_counts)
open BurstMarks (marks completed Outstanding completed_flatten completed_succ completed_append
  length_marks le_count_iff)

variable {AW : ℕ}

/-- The Ax beats that read the payload of a packet. -/
def packet_ar_beats (AW : ℕ) (pkt : NetworkPacket) : List (axi_ax_beat_t AW) :=
  (create_ax_beats (pkt.source_addr.setWidth AW) pkt.payload_length.toNat).map (·.beat)

/-- The payload of a packet, as far as it has arrived; `start` is the number of its first
response. -/
structure Filled (received : List (ℕ → BitVec 8)) (start : ℕ) (pkt : NetworkPacket) : Prop where
  offset : pkt.current_offset
    = min pkt.payload_length.toNat (AXI_SW * (received.length - start))
  data : ∀ k < pkt.current_offset,
    pkt.data k = received.getD (start + k / AXI_SW) (fun _ => 0) (k % AXI_SW)

structure Reads (axi : AxiMaster.State AW) (pkts gone dma : List NetworkPacket)
    (ar_driven : List (axi_ax_beat_t AW)) (received : List (ℕ → BitVec 8)) (taken : List ℕ) :
    Prop where
  payload : ∀ pkt ∈ pkts, 0 < pkt.payload_length.toNat
  r_beats_buffer_size : axi.r_beats_buffer_size = 0
  r_queue : axi.r_queue = []
  ar_beats : ar_driven ++ axi.ar_queue ++ axi.ar_pending_queue = pkts.flatMap (packet_ar_beats AW)
  counts : Outstanding (pkts.map fun pkt => (packet_bursts AW pkt).length)
    (completed (pkts.flatMap (packet_bursts AW)) received.length) (read_counts axi)
  received_le : received.length ≤ (pkts.map (packet_beats AW)).sum
  taken : taken = (BurstMarks.owners 0 (pkts.map (packet_beats AW))).take received.length
  gone_length : gone.length = completed (pkts.map (packet_beats AW)) received.length
  packets : (gone ++ dma).map emptied = pkts
  filled : ∀ j pkt, (gone ++ dma)[j]? = some pkt →
    Filled received ((pkts.map (packet_beats AW)).take j).sum pkt
  data_left : axi.read_queue.map (·.data_left.toNat)
    = dma.map fun pkt => pkt.payload_length.toNat - pkt.current_offset

/-! ## Filling a packet -/

section Filled

variable {received : List (ℕ → BitVec 8)} {start n : ℕ} {pkt : NetworkPacket} {d : ℕ → BitVec 8}

theorem getD_received {k : ℕ} (hk : k < received.length) :
    (received ++ [d]).getD k (fun _ => 0) = received.getD k (fun _ => 0) := by
  rw [List.getD_eq_getElem?_getD, List.getD_eq_getElem?_getD, List.getElem?_append_left hk]

/-- The bytes that are there came with responses that were received. -/
theorem Filled.line_lt (h : Filled received start pkt) {k : ℕ} (hk : k < pkt.current_offset) :
    start + k / AXI_SW < received.length := by
  rw [h.offset] at hk
  unfold AXI_SW at *
  omega

/-- A response for another packet. -/
theorem Filled.skip (h : Filled received start pkt)
    (hbeats : pkt.payload_length.toNat ≤ AXI_SW * n)
    (hother : start + n ≤ received.length ∨ received.length < start) :
    Filled (received ++ [d]) start pkt := by
  refine ⟨?_, fun k hk => ?_⟩
  · rw [h.offset, List.length_append, List.length_singleton]
    unfold AXI_SW at *
    omega
  · rw [h.data k hk, getD_received (h.line_lt hk)]

/-- A response for this packet. It ends up in the next line, as far as there are bytes. -/
theorem Filled.fill (h : Filled received start pkt) (hstart : start ≤ received.length) :
    Filled (received ++ [d]) start
      (copy_data pkt d (min AXI_SW (pkt.payload_length.toNat - pkt.current_offset))) := by
  have hoffset := h.offset
  unfold AXI_SW at hoffset
  constructor
  · show pkt.current_offset + min AXI_SW (pkt.payload_length.toNat - pkt.current_offset)
      = min pkt.payload_length.toNat _
    rw [List.length_append, List.length_singleton]
    unfold AXI_SW
    omega
  · intro k hk
    have hk : k < pkt.current_offset
      + min AXI_SW (pkt.payload_length.toNat - pkt.current_offset) := hk
    unfold AXI_SW at hk
    unfold copy_data
    simp only
    by_cases hnew : pkt.current_offset ≤ k
    · -- the new line
      have hline : k / AXI_SW = received.length - start ∧ k % AXI_SW = k - pkt.current_offset := by
        unfold AXI_SW
        omega
      rw [if_pos ⟨hnew, hk⟩, hline.1, hline.2, Nat.add_sub_cancel' hstart,
        List.getD_eq_getElem?_getD, List.getElem?_concat_length]
      rfl
    · have hold : k < pkt.current_offset := Nat.lt_of_not_le hnew
      rw [if_neg fun hc => hnew hc.1, h.data k hold, getD_received (h.line_lt hold)]

end Filled

/-! ## Beats, bursts and packets -/

section Counts

variable {pkts : List NetworkPacket} {r : ℕ}

theorem packet_bursts_eq (pkt : NetworkPacket) :
    packet_bursts AW pkt = (packet_ar_beats AW pkt).map n_beats := by
  rw [packet_ar_beats, List.map_map]
  rfl

theorem packet_beats_pos (hpkts : ∀ pkt ∈ pkts, 0 < pkt.payload_length.toNat) :
    ∀ n ∈ pkts.map (packet_beats AW), 0 < n := by
  intro n hn
  obtain ⟨pkt, hpkt, rfl⟩ := List.mem_map.mp hn
  have hlines : pkt.payload_length.toNat ≤ AXI_SW * packet_beats AW pkt := bytes_le_burst_beats
  have hpos := hpkts pkt hpkt
  exact Nat.pos_of_ne_zero fun hzero => by
    rw [hzero] at hlines
    omega

theorem packet_bursts_pos (hpkts : ∀ pkt ∈ pkts, 0 < pkt.payload_length.toNat) :
    ∀ n ∈ pkts.flatMap (packet_bursts AW), 0 < n := by
  intro n hn
  obtain ⟨pkt, hpkt, hn⟩ := List.mem_flatMap.mp hn
  exact (burst_beats_pos (hpkts pkt hpkt)).2 n hn

theorem sum_packet_bursts (pkts : List NetworkPacket) :
    (pkts.flatMap (packet_bursts AW)).sum = (pkts.map (packet_beats AW)).sum := by
  rw [List.flatMap_def, List.sum_flatten, List.map_map]
  rfl

/-- The same packets are complete by their bursts and by their beats. -/
theorem completed_packets (hpkts : ∀ pkt ∈ pkts, 0 < pkt.payload_length.toNat) (r : ℕ) :
    completed (pkts.map fun pkt => (packet_bursts AW pkt).length)
        (completed (pkts.flatMap (packet_bursts AW)) r)
      = completed (pkts.map (packet_beats AW)) r := by
  have hnested := completed_flatten (pkts.map (packet_bursts AW)) ?_ ?_ r
  · rw [List.map_map, List.map_map, ← List.flatMap_def] at hnested
    exact hnested
  · intro ns hns
    obtain ⟨pkt, hpkt, rfl⟩ := List.mem_map.mp hns
    exact (burst_beats_pos (hpkts pkt hpkt)).1
  · intro ns hns
    obtain ⟨pkt, hpkt, rfl⟩ := List.mem_map.mp hns
    exact (burst_beats_pos (hpkts pkt hpkt)).2

end Counts

namespace Reads

variable {axi axi' : AxiMaster.State AW} {pkts gone dma dma' : List NetworkPacket}
  {ar_driven ar_driven' : List (axi_ax_beat_t AW)} {received : List (ℕ → BitVec 8)}
  {taken : List ℕ} {pkt : NetworkPacket} {m : Bool} {entry : axi_r_queue_entry_t}
  {rest : List axi_r_queue_entry_t} {d : ℕ → BitVec 8}

/-! ## Positions -/

theorem beats_length (h : Reads axi pkts gone dma ar_driven received taken) :
    (pkts.map (packet_beats AW)).length = gone.length + dma.length := by
  rw [List.length_map, ← h.packets, List.length_map, List.length_append]

/-- The packet with number `j` and its beats. -/
theorem beats_get (h : Reads axi pkts gone dma ar_driven received taken) {j : ℕ}
    (hpkt : (gone ++ dma)[j]? = some pkt) :
    (pkts.map (packet_beats AW))[j]? = some (packet_beats AW pkt) := by
  rw [← h.packets, List.getElem?_map, List.getElem?_map, hpkt]
  rfl

theorem sum_take_succ {ns : List ℕ} {j n : ℕ} (hn : ns[j]? = some n) :
    (ns.take (j + 1)).sum = (ns.take j).sum + n := by
  obtain ⟨hj, rfl⟩ := List.getElem?_eq_some_iff.mp hn
  rw [List.take_succ_eq_append_getElem hj, List.sum_append, List.sum_singleton]

theorem sum_take_mono (ns : List ℕ) {j k : ℕ} (hjk : j ≤ k) : (ns.take j).sum ≤ (ns.take k).sum :=
  List.Sublist.sum_le_sum ((List.take_prefix_take_left hjk).sublist) fun _ _ => Nat.zero_le _

/-- The packets gone have all their beats. -/
theorem start_le (h : Reads axi pkts gone dma ar_driven received taken) :
    ((pkts.map (packet_beats AW)).take gone.length).sum ≤ received.length := by
  have hlen := h.beats_length
  rw [← le_count_iff (packet_beats_pos h.payload) (by omega), h.gone_length]
  exact le_refl _

/-- The oldest packet in flight does not. -/
theorem lt_end (h : Reads axi pkts gone dma ar_driven received taken) (hdma : dma ≠ []) :
    received.length < ((pkts.map (packet_beats AW)).take (gone.length + 1)).sum := by
  have hlen := h.beats_length
  have hpos := List.length_pos_of_ne_nil hdma
  by_contra hge
  have hle := (le_count_iff (packet_beats_pos h.payload) (by omega)).mpr (Nat.le_of_not_lt hge)
  have hgone := h.gone_length
  unfold completed at hgone
  omega

/-- The packets gone are complete. -/
theorem gone_full (h : Reads axi pkts gone dma ar_driven received taken) {j : ℕ}
    (hj : j < gone.length) (hpkt : (gone ++ dma)[j]? = some pkt) :
    pkt.current_offset = pkt.payload_length.toNat := by
  have hoffset := (h.filled j pkt hpkt).offset
  have hend := (sum_take_mono (pkts.map (packet_beats AW)) hj).trans h.start_le
  have hlines : pkt.payload_length.toNat ≤ AXI_SW * packet_beats AW pkt := bytes_le_burst_beats
  rw [sum_take_succ (h.beats_get hpkt)] at hend
  unfold AXI_SW at *
  omega

/-- When all beats have arrived, all packets are gone. -/
theorem all_gone (h : Reads axi pkts gone dma ar_driven received taken)
    (hall : received.length = (pkts.map (packet_beats AW)).sum) : dma = [] := by
  by_contra hne
  have hlt := h.lt_end hne
  have hlen := h.beats_length
  have hle := sum_take_mono (pkts.map (packet_beats AW)) (j := gone.length + 1)
    (k := (pkts.map (packet_beats AW)).length)
    (by have hpos := List.length_pos_of_ne_nil hne; omega)
  rw [List.take_length] at hle
  omega

/-! ## A response -/

/-- The response belongs to a burst that was driven, and so to one of a packet. -/
theorem due (h : Reads axi pkts gone dma ar_driven received taken)
    (hdue : (marks (ar_driven.map n_beats))[received.length]? = some m) :
    (marks (pkts.flatMap (packet_bursts AW)))[received.length]? = some m := by
  have hbursts : pkts.flatMap (packet_bursts AW)
      = ar_driven.map n_beats ++ (axi.ar_queue ++ axi.ar_pending_queue).map n_beats := by
    rw [← List.map_append, ← List.append_assoc, h.ar_beats, List.map_flatMap]
    congr 1
    funext pkt
    exact packet_bursts_eq pkt
  obtain ⟨hlt, -⟩ := List.getElem?_eq_some_iff.mp hdue
  rw [hbursts, BurstMarks.marks_append, List.getElem?_append_left hlt, hdue]

/-- A packet waits for it. -/
theorem due_lt (h : Reads axi pkts gone dma ar_driven received taken)
    (hm : (marks (pkts.flatMap (packet_bursts AW)))[received.length]? = some m) :
    received.length < (pkts.map (packet_beats AW)).sum ∧ dma ≠ [] := by
  have hlt : received.length < (pkts.map (packet_beats AW)).sum := by
    obtain ⟨hlt, -⟩ := List.getElem?_eq_some_iff.mp hm
    rwa [length_marks (packet_bursts_pos h.payload), sum_packet_bursts] at hlt
  refine ⟨hlt, ?_⟩
  rintro rfl
  have hlen := h.beats_length
  have hstart := h.start_le
  rw [List.length_nil, Nat.add_zero] at hlen
  rw [← hlen, List.take_length] at hstart
  omega

/-- The entry counts bursts, and its read is complete with the last beat of the last one. -/
theorem count (h : Reads axi pkts gone dma ar_driven received taken)
    (hm : (marks (pkts.flatMap (packet_bursts AW)))[received.length]? = some m)
    (hentry : axi.read_queue = entry :: rest) :
    Outstanding (pkts.map fun pkt => (packet_bursts AW pkt).length)
        (completed (pkts.flatMap (packet_bursts AW)) (received.length + 1))
        ((if (after_response entry m).2 then rest else (after_response entry m).1 :: rest).map
          fun entry => entry.n_bursts.toNat)
      ∧ completed (pkts.map (packet_beats AW)) (received.length + 1)
        = gone.length + if (after_response entry m).2 then 1 else 0 := by
  have hcounts := h.counts
  rw [read_counts, hentry, List.map_cons] at hcounts
  obtain ⟨hpos, hrest⟩ := List.forall_mem_cons.mp hcounts.left_pos
  have hgone := h.gone_length
  have hsucc := completed_succ hm
  rw [← completed_packets h.payload] at hgone ⊢
  rw [hsucc]
  cases m with
  | false =>
    -- the burst goes on, and with it the read
    have hgoes : (after_response entry false).2 = false := by
      show (entry.n_bursts - 0#32 == 0) = false
      rw [BitVec.sub_zero, beq_eq_false_iff_ne]
      rintro hzero
      rw [hzero] at hpos
      exact absurd hpos (by decide)
    have hsame : (after_response entry false).1.n_bursts = entry.n_bursts := BitVec.sub_zero _
    rw [hgoes, if_neg Bool.false_ne_true, if_neg Bool.false_ne_true, List.map_cons, hsame,
      Nat.add_zero, Nat.add_zero]
    exact ⟨hcounts, hgone.symm⟩
  | true =>
    have hdone : (after_response entry true).2 = decide (entry.n_bursts.toNat = 1) :=
      AxiMaster.sub_one_eq_zero hpos
    have hnext : (after_response entry true).1.n_bursts.toNat = entry.n_bursts.toNat - 1 :=
      AxiMaster.toNat_sub_one hpos
    have hmarks := BurstMarks.marks_cons hpos (rest.map fun entry => entry.n_bursts.toNat)
    rw [hdone, if_pos rfl]
    by_cases hone : entry.n_bursts.toNat = 1
    · -- the last burst of the read
      rw [decide_eq_true hone, if_pos rfl, if_pos rfl]
      rw [decide_eq_true hone, if_pos hone] at hmarks
      obtain ⟨hout, hcompleted⟩ := hcounts.answer hmarks hrest
      exact ⟨hout, by rw [hcompleted, if_pos rfl, hgone]⟩
    · rw [decide_eq_false hone, if_neg Bool.false_ne_true, if_neg Bool.false_ne_true, List.map_cons,
        hnext]
      rw [decide_eq_false hone, if_neg hone] at hmarks
      obtain ⟨hout, hcompleted⟩ := hcounts.answer hmarks
        (List.forall_mem_cons.mpr ⟨by omega, hrest⟩)
      exact ⟨hout, by rw [hcompleted, if_neg Bool.false_ne_true, hgone]⟩

/-- The oldest packet after the response. -/
def filled_pkt (pkt : NetworkPacket) (entry : axi_r_queue_entry_t) (d : ℕ → BitVec 8) :
    NetworkPacket :=
  copy_data pkt d (min AXI_SW entry.data_left.toNat)

/-- All packets, however many of them have left. -/
theorem pipeline_eq (b : Bool) (gone dma : List NetworkPacket) (pkt : NetworkPacket) :
    (if b then gone ++ [pkt] else gone) ++ (if b then dma else pkt :: dma) = gone ++ pkt :: dma := by
  cases b
  · rfl
  · rw [if_pos rfl, if_pos rfl, List.append_assoc, List.singleton_append]

/-- The other packets keep their data. -/
theorem filled_other (h : Reads axi pkts gone (pkt :: dma) ar_driven received taken) {j : ℕ}
    {pkt' : NetworkPacket} (hj : j ≠ gone.length) (hpkt : (gone ++ pkt :: dma)[j]? = some pkt') :
    Filled (received ++ [d]) ((pkts.map (packet_beats AW)).take j).sum pkt' := by
  have hend := h.lt_end (List.cons_ne_nil pkt dma)
  refine (h.filled j pkt' hpkt).skip (n := packet_beats AW pkt') bytes_le_burst_beats ?_
  rw [← sum_take_succ (h.beats_get hpkt)]
  rcases Nat.lt_or_gt_of_ne hj with hlt | hgt
  · exact Or.inl ((sum_take_mono _ hlt).trans h.start_le)
  · exact Or.inr (hend.trans_le (sum_take_mono _ hgt))

/-- The oldest packet takes the data of the response. -/
theorem filled_oldest (h : Reads axi pkts gone (pkt :: dma) ar_driven received taken)
    (hentry : axi.read_queue = entry :: rest) (d : ℕ → BitVec 8) :
    Filled (received ++ [d]) ((pkts.map (packet_beats AW)).take gone.length).sum
      (filled_pkt pkt entry d) := by
  have hpkt : (gone ++ pkt :: dma)[gone.length]? = some pkt := by
    rw [List.getElem?_append_right (le_refl _), Nat.sub_self]
    rfl
  have hleft := h.data_left
  rw [hentry, List.map_cons, List.map_cons, List.cons.injEq] at hleft
  rw [filled_pkt, hleft.1]
  exact (h.filled gone.length pkt hpkt).fill h.start_le

/-- With the last beat of its last burst all of its payload is there. -/
theorem full_of_last (h : Reads axi pkts gone (pkt :: dma) ar_driven received taken)
    (hm : (marks (pkts.flatMap (packet_bursts AW)))[received.length]? = some m)
    (hentry : axi.read_queue = entry :: rest) (d : ℕ → BitVec 8)
    (hdone : (after_response entry m).2 = true) :
    (filled_pkt pkt entry d).current_offset = pkt.payload_length.toNat := by
  have hpkt : (gone ++ pkt :: dma)[gone.length]? = some pkt := by
    rw [List.getElem?_append_right (le_refl _), Nat.sub_self]
    rfl
  have hcompleted := (h.count hm hentry).2
  rw [if_pos hdone] at hcompleted
  have hlen := h.beats_length
  rw [List.length_cons] at hlen
  -- so the beats of the packet are among those received
  have hend := (le_count_iff (packet_beats_pos h.payload) (by omega)).mp hcompleted.ge
  rw [sum_take_succ (h.beats_get hpkt)] at hend
  have hlines : pkt.payload_length.toNat ≤ AXI_SW * packet_beats AW pkt := bytes_le_burst_beats
  have hoffset := (h.filled_oldest hentry d).offset
  have hsame : (filled_pkt pkt entry d).payload_length = pkt.payload_length := rfl
  rw [hsame, List.length_append, List.length_singleton] at hoffset
  unfold AXI_SW at *
  omega

/-- The entries still count what is left of the packets in flight. -/
theorem data_left_response (h : Reads axi pkts gone (pkt :: dma) ar_driven received taken)
    (hentry : axi.read_queue = entry :: rest) (d : ℕ → BitVec 8) :
    (if (after_response entry m).2 then rest else (after_response entry m).1 :: rest).map
        (fun entry => entry.data_left.toNat)
      = (if (after_response entry m).2 then dma else filled_pkt pkt entry d :: dma).map
        fun pkt => pkt.payload_length.toNat - pkt.current_offset := by
  have hleft := h.data_left
  rw [hentry, List.map_cons, List.map_cons, List.cons.injEq] at hleft
  obtain ⟨hfirst, hothers⟩ := hleft
  split_ifs
  · exact hothers
  · rw [List.map_cons, List.map_cons, hothers]
    congr 1
    -- what is left goes down by what was taken
    have hoffset : (filled_pkt pkt entry d).current_offset
      = pkt.current_offset + min AXI_SW entry.data_left.toNat := rfl
    have hsame : (filled_pkt pkt entry d).payload_length = pkt.payload_length := rfl
    have hnext : (after_response entry m).1.data_left
      = entry.data_left - BitVec.ofNat 32 (min AXI_SW entry.data_left.toNat) := rfl
    rw [hnext, hoffset, hsame]
    unfold AXI_SW
    bv_omega

/-- **A response of a read.** The oldest packet in flight takes the data. If it was the last
of its beats the packet leaves, and all of its payload is there. -/
theorem respond (h : Reads axi pkts gone (pkt :: dma) ar_driven received taken)
    (axi' : AxiMaster.State AW) (d : ℕ → BitVec 8)
    (hm : (marks (pkts.flatMap (packet_bursts AW)))[received.length]? = some m)
    (hentry : axi.read_queue = entry :: rest)
    (hsize : axi'.r_beats_buffer_size = 0) (hqueue : axi'.r_queue = [])
    (hbeats : ar_driven' ++ axi'.ar_queue ++ axi'.ar_pending_queue
      = pkts.flatMap (packet_ar_beats AW))
    (hread : axi'.read_queue
      = if (after_response entry m).2 then rest else (after_response entry m).1 :: rest) :
    ((after_response entry m).2 = true →
        (filled_pkt pkt entry d).current_offset = pkt.payload_length.toNat)
      ∧ Reads axi' pkts
        (if (after_response entry m).2 then gone ++ [filled_pkt pkt entry d] else gone)
        (if (after_response entry m).2 then dma else filled_pkt pkt entry d :: dma)
        ar_driven' (received ++ [d]) (taken ++ [gone.length]) := by
  obtain ⟨hcounts, hcompleted⟩ := h.count hm hentry
  obtain ⟨hlt, -⟩ := h.due_lt hm
  refine ⟨h.full_of_last hm hentry d, h.payload, hsize, hqueue, hbeats, ?_, ?_, ?_, ?_, ?_, ?_, ?_⟩
  · rw [List.length_append, List.length_singleton, read_counts, hread]
    exact hcounts
  · rw [List.length_append, List.length_singleton]
    exact hlt
  · -- the packet with the number that the response belongs to
    have howner := BurstMarks.getElem_owners (packet_beats_pos h.payload) (k := 0) hlt
    rw [← h.gone_length, Nat.zero_add] at howner
    rw [List.length_append, List.length_singleton, List.take_add_one, howner, h.taken]
    rfl
  · rw [List.length_append, List.length_singleton, hcompleted]
    split_ifs
    · rw [List.length_append, List.length_singleton]
    · rfl
  · rw [pipeline_eq, ← h.packets, List.map_append, List.map_append]
    rfl
  · intro j pkt' hj
    rw [pipeline_eq] at hj
    rcases Nat.lt_trichotomy j gone.length with hbefore | rfl | hafter
    · rw [List.getElem?_append_left hbefore] at hj
      refine h.filled_other hbefore.ne ?_
      rw [List.getElem?_append_left hbefore, hj]
    · rw [List.getElem?_append_right (le_refl _), Nat.sub_self] at hj
      obtain rfl : filled_pkt pkt entry d = pkt' := Option.some.inj hj
      exact h.filled_oldest hentry d
    · obtain ⟨n, rfl⟩ := Nat.exists_eq_add_of_lt hafter
      refine h.filled_other hafter.ne' ?_
      rw [List.getElem?_append_right (by omega)] at hj ⊢
      have hindex : gone.length + n + 1 - gone.length = n + 1 := by omega
      rw [hindex, List.getElem?_cons_succ] at hj ⊢
      exact hj
  · rw [hread]
    exact h.data_left_response hentry d

/-! ## Moving Ax beats, and a new read -/

/-- Ax beats move on, and nothing else changes. -/
theorem move (h : Reads axi pkts gone dma ar_driven received taken)
    (hsize : axi'.r_beats_buffer_size = axi.r_beats_buffer_size)
    (hqueue : axi'.r_queue = axi.r_queue) (hread : axi'.read_queue = axi.read_queue)
    (hbeats : ar_driven' ++ axi'.ar_queue ++ axi'.ar_pending_queue
      = ar_driven ++ axi.ar_queue ++ axi.ar_pending_queue) :
    Reads axi' pkts gone dma ar_driven' received taken := by
  refine ⟨h.payload, hsize.trans h.r_beats_buffer_size, hqueue.trans h.r_queue,
    hbeats.trans h.ar_beats, ?_, h.received_le, h.taken, h.gone_length, h.packets, h.filled, ?_⟩
  · rw [read_counts, hread]
    exact h.counts
  · rw [hread]
    exact h.data_left

/-- The entry of a new read counts the bursts of its packet. -/
theorem toNat_bursts (pkt : NetworkPacket) : (BitVec.ofNat 32
    (create_ax_beats (pkt.source_addr.setWidth AW) pkt.payload_length.toNat).length).toNat
      = (packet_bursts AW pkt).length := by
  have hle : (create_ax_beats (pkt.source_addr.setWidth AW)
    pkt.payload_length.toNat).length ≤ pkt.payload_length.toNat :=
    AxiDriver.length_create_ax_beats_le
  have hlt := pkt.payload_length.isLt
  rw [packet_bursts, AxiDriver.burst_beats, List.length_map, BitVec.toNat_ofNat,
    Nat.mod_eq_of_lt (by omega)]

/-- A new packet leaves the others as they were, and nothing of it has been received. -/
theorem filled_send (h : Reads axi pkts gone dma ar_driven received taken)
    (hoffset : pkt.current_offset = 0) {j : ℕ} {pkt' : NetworkPacket}
    (hpkt' : (gone ++ dma ++ [pkt])[j]? = some pkt') :
    Filled received (((pkts ++ [pkt]).map (packet_beats AW)).take j).sum pkt' := by
  have hlen := h.beats_length
  rw [List.map_append]
  -- the packets before are filled as they were, the new one has no beat yet
  by_cases hj : j < (gone ++ dma).length
  · rw [List.getElem?_append_left hj] at hpkt'
    rw [List.length_append] at hj
    rw [List.take_append_of_le_length (by omega)]
    exact h.filled j pkt' hpkt'
  · rw [List.getElem?_append_right (Nat.le_of_not_lt hj)] at hpkt'
    obtain ⟨hzero, rfl⟩ := List.getElem?_eq_some_iff.mp hpkt'
    rw [List.length_singleton, Nat.lt_one_iff] at hzero
    have hnew : [pkt][j - (gone ++ dma).length] = pkt := List.getElem_singleton _
    rw [hnew]
    rw [List.length_append] at hj
    have hstart : received.length
        ≤ ((pkts.map (packet_beats AW) ++ [pkt].map (packet_beats AW)).take j).sum := by
      rw [List.take_append, List.take_of_length_le (by omega), List.sum_append]
      exact h.received_le.trans (Nat.le_add_right _ _)
    refine ⟨?_, fun k hk => ?_⟩
    · rw [hoffset, Nat.sub_eq_zero_of_le hstart, Nat.mul_zero, Nat.min_zero]
    · rw [hoffset] at hk
      exact absurd hk (Nat.not_lt_zero k)

/-- **A new packet.** It is the last in all queues. -/
theorem send (h : Reads axi pkts gone dma ar_driven received taken)
    (hpayload : 0 < pkt.payload_length.toNat) (hempty : emptied pkt = pkt) :
    Reads (AxiMaster.read axi (pkt.source_addr.setWidth AW) pkt.payload_length.toNat)
      (pkts ++ [pkt]) gone (dma ++ [pkt]) ar_driven received taken := by
  have hbeats : (pkts ++ [pkt]).map (packet_beats AW)
      = pkts.map (packet_beats AW) ++ [packet_beats AW pkt] := List.map_append
  have hmarks : received.length ≤ (marks (pkts.map (packet_beats AW))).length := by
    rw [length_marks (packet_beats_pos h.payload)]
    exact h.received_le
  have hmarks' : received.length ≤ (marks (pkts.flatMap (packet_bursts AW))).length := by
    rw [length_marks (packet_bursts_pos h.payload), sum_packet_bursts]
    exact h.received_le
  have hoffset : pkt.current_offset = 0 := (congrArg NetworkPacket.current_offset hempty).symm
  -- the entry of the read counts its bursts, and its bytes
  have hbursts : 0 < (packet_bursts AW pkt).length :=
    List.length_pos_of_ne_nil (burst_beats_pos hpayload).1
  refine ⟨?_, h.r_beats_buffer_size, h.r_queue, ?_, ?_, ?_, ?_, ?_, ?_, ?_, ?_⟩
  · intro pkt' hpkt'
    rcases List.mem_append.mp hpkt' with hpkt' | hpkt'
    · exact h.payload pkt' hpkt'
    · exact List.mem_singleton.mp hpkt' ▸ hpayload
  · rw [List.flatMap_append, List.flatMap_singleton, ← h.ar_beats]
    exact (List.append_assoc _ _ _).symm
  · rw [List.map_append, List.map_singleton, List.flatMap_append, completed_append hmarks',
      read_counts, AxiMaster.read, List.map_append, List.map_singleton, toNat_bursts]
    exact (h.counts.request hbursts).1
  · rw [hbeats, List.sum_append]
    exact h.received_le.trans (Nat.le_add_right _ _)
  · rw [hbeats, BurstMarks.owners_append, List.take_append_of_le_length, h.taken]
    rw [BurstMarks.length_owners]
    exact h.received_le
  · rw [hbeats, completed_append hmarks]
    exact h.gone_length
  · rw [← List.append_assoc, List.map_append, List.map_singleton, h.packets, hempty]
  · intro j pkt' hpkt'
    rw [← List.append_assoc] at hpkt'
    exact h.filled_send hoffset hpkt'
  · rw [AxiMaster.read, List.map_append, List.map_append, h.data_left, List.map_singleton,
      List.map_singleton, hoffset, Nat.sub_zero, BitVec.toNat_ofNat,
      Nat.mod_eq_of_lt pkt.payload_length.isLt]

end Reads

end Pspin.NicOutbound
