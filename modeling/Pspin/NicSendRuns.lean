/-
Whole runs of `NICOutbound`.

`Inv` puts the packetizer and the reads together. As long as the accepted commands fill
their packets it holds after every part of a rising edge, and it says that commands are
answered (`commands_answered`). `answer_mixed_up` is a run with an empty command: its packet
has no burst, so it takes the first data that were read for the next one.
-/
import Pspin.NicReads

set_option autoImplicit false

namespace Pspin.NicOutbound

open AxiDriver (n_beats AXI_SW)
open BurstMarks (marks)

namespace Sys

variable {AW : ℕ} {p : Params} {s s' : Sys AW} {i : Input}

/-- Commands are cut in turns, reads find their packets, and a response is sent with the
last packet of a command. -/
structure Inv (p : Params) (s : Sys AW) : Prop where
  cuts : Cuts p s.accepted s.owners s.nic.commands s.issued
  reads : Reads s.nic.axi_driver (s.issued.map Prod.snd) (s.emitted ++ s.nic.network_queue)
    s.nic.dma_pkt_in_flight s.ar_driven s.received s.taken
  responses : s.responses = (s.emitted.filter (·.is_last)).map (·.cmd_id)

/-! ## The parts of the edge -/

/-- An Ax beat moves from the pending queue to the other one. -/
theorem Inv.progress (h : Inv p s) : Inv p { s with nic := progress_axi_reads s.nic } := by
  unfold progress_axi_reads
  split_ifs
  · refine ⟨h.cuts, h.reads.move rfl rfl rfl ?_, h.responses⟩
    show s.ar_driven ++ (s.nic.axi_driver.ar_queue ++ s.nic.axi_driver.ar_pending_queue.take 1)
      ++ s.nic.axi_driver.ar_pending_queue.tail = _
    rw [← List.append_assoc, List.append_assoc _ (List.take 1 _), ← List.drop_one,
      List.take_append_drop]
  · exact h

/-- The response that `progress_axi_read_responses` finds. -/
theorem read_responses_spec (nic : State AW) {pkt : NetworkPacket} {dma : List NetworkPacket}
    {length : ℕ} {d : ℕ → BitVec 8} {done : Bool} (hlength : length ≤ AXI_SW)
    (hqueue : nic.axi_driver.r_queue = [⟨length, d, done⟩])
    (hdma : nic.dma_pkt_in_flight = pkt :: dma)
    (hfull : done = true → (copy_data pkt d length).current_offset = pkt.payload_length.toNat) :
    progress_axi_read_responses nic = some { nic with
      axi_driver := { nic.axi_driver with r_queue := [] }
      network_queue := nic.network_queue ++ if done then [copy_data pkt d length] else []
      dma_pkt_in_flight := if done then dma else copy_data pkt d length :: dma } := by
  have hmin : min AXI_SW length = length := Nat.min_eq_right hlength
  have hresp : AxiMaster.has_r_beat nic.axi_driver = true := by
    rw [AxiMaster.has_r_beat, hqueue]
    rfl
  have hconsume : AxiMaster.consume_r_beat nic.axi_driver AXI_SW
      = some (length, d, done, { nic.axi_driver with r_queue := [] }) := by
    rw [AxiMaster.consume_r_beat, hqueue]
    simp only [hmin]
  rw [progress_axi_read_responses, if_pos hresp, hdma]
  simp only [hconsume, Option.bind_some]
  -- the packet moves on with its last beat, and its assertion is met there
  cases done with
  | false =>
    rw [if_neg Bool.false_ne_true, if_neg Bool.false_ne_true, if_neg Bool.false_ne_true,
      List.append_nil]
  | true =>
    have hpayload : (copy_data pkt d length).payload_length = pkt.payload_length := rfl
    rw [if_pos rfl, if_pos rfl, if_pos rfl, hpayload, if_pos (hfull rfl)]

/-- The beat that an edge drives is the oldest one. -/
theorem ar_beats_posedge {axi : AxiMaster.State AW} (s : Sys AW)
    (har : axi.ar_queue = if s.nic.axi_driver.ar_wait then s.nic.axi_driver.ar_queue
      else s.nic.axi_driver.ar_queue.tail)
    (hpending : axi.ar_pending_queue = s.nic.axi_driver.ar_pending_queue) :
    (s.ar_driven ++ if s.nic.axi_driver.ar_wait then [] else s.nic.axi_driver.ar_queue.take 1)
      ++ axi.ar_queue ++ axi.ar_pending_queue
      = s.ar_driven ++ s.nic.axi_driver.ar_queue ++ s.nic.axi_driver.ar_pending_queue := by
  rw [har, hpending]
  split_ifs
  · rw [List.append_nil]
  · rw [List.append_assoc s.ar_driven, ← List.drop_one, List.take_append_drop]

/-- The master's edge, and the response that it brings. -/
theorem Inv.respond (h : Inv p s)
    (hdue : i.responses.r_valid = true →
      (marks (s.ar_driven.map n_beats))[s.received.length]? = some i.responses.r_last)
    {nic₁ : State AW} (haxi : axi_posedge s.nic i.responses = some nic₁) : ∃ nic₂,
    progress_axi_read_responses nic₁ = some nic₂ ∧ nic₂.commands = s.nic.commands ∧ Inv p { s with
      nic := nic₂
      ar_driven := s.ar_driven ++
        if s.nic.axi_driver.ar_wait then [] else s.nic.axi_driver.ar_queue.take 1
      received := s.received ++ (nic₁.axi_driver.r_queue.take 1).map (·.data)
      taken := s.taken ++ (nic₁.axi_driver.r_queue.take 1).map fun _ =>
        s.issued.length - nic₁.dma_pkt_in_flight.length } := by
  obtain ⟨axi, hedge, rfl⟩ := Option.map_eq_some_iff.mp haxi
  obtain ⟨hsize, har, hpending, hidle, hresponse⟩ :=
    AxiMaster.posedge_reads h.reads.r_beats_buffer_size hedge
  have hbeats := ar_beats_posedge s har hpending
  by_cases hvalid : i.responses.r_valid = true
  · -- a response
    obtain ⟨entry, rest, hentry, hrest, hqueue⟩ := hresponse hvalid
    have hm := h.reads.due (hdue hvalid)
    obtain ⟨-, hne⟩ := h.reads.due_lt hm
    obtain ⟨pkt, dma, hdma⟩ := List.exists_cons_of_ne_nil hne
    have hreads := h.reads
    rw [hdma] at hreads
    have hqueue : axi.r_queue = [⟨min AXI_SW entry.data_left.toNat, i.responses.r_data,
        (AxiMaster.after_response entry i.responses.r_last).2⟩] := by
      rw [hqueue, h.reads.r_queue, List.nil_append]
    obtain ⟨hfull, hnext⟩ := hreads.respond { axi with r_queue := [] } i.responses.r_data hm hentry
      hsize rfl (hbeats.trans h.reads.ar_beats) hrest
    have hresponses := read_responses_spec { s.nic with axi_driver := axi } (Nat.min_le_left _ _)
      hqueue hdma hfull
    refine ⟨_, hresponses, rfl, h.cuts, ?_, h.responses⟩
    -- the packet in front is the first one that is not gone
    have hgone : s.issued.length - s.nic.dma_pkt_in_flight.length
        = (s.emitted ++ s.nic.network_queue).length := by
      have hlen := h.reads.beats_length
      rw [List.length_map, List.length_map] at hlen
      omega
    have hgone' : s.emitted ++ (s.nic.network_queue ++
        if (AxiMaster.after_response entry i.responses.r_last).2 then
          [Reads.filled_pkt pkt entry i.responses.r_data] else [])
        = if (AxiMaster.after_response entry i.responses.r_last).2 then
          s.emitted ++ s.nic.network_queue ++ [Reads.filled_pkt pkt entry i.responses.r_data]
          else s.emitted ++ s.nic.network_queue := by
      split_ifs
      · exact (List.append_assoc _ _ _).symm
      · rw [List.append_nil]
    rw [← hgone'] at hnext
    simp only [hqueue, hgone]
    exact hnext
  · -- no response: only Ax beats have moved
    obtain ⟨hqueue, hrest⟩ := hidle (Bool.eq_false_of_not_eq_true hvalid)
    have hqueue : axi.r_queue = [] := hqueue.trans h.reads.r_queue
    have hnone : progress_axi_read_responses
        { s.nic with axi_driver := axi } = some { s.nic with axi_driver := axi } := by
      rw [progress_axi_read_responses, if_neg]
      rw [AxiMaster.has_r_beat, hqueue]
      decide
    refine ⟨_, hnone, rfl, h.cuts, ?_, h.responses⟩
    simp only [hqueue, List.take_nil, List.map_nil, List.append_nil]
    exact h.reads.move (hsize.trans h.reads.r_beats_buffer_size.symm)
      (hqueue.trans h.reads.r_queue.symm) hrest hbeats

theorem Inv.read_data (h : Inv p s)
    (hdue : i.responses.r_valid = true →
      (marks (s.ar_driven.map n_beats))[s.received.length]? = some i.responses.r_last)
    (hread : Sys.read_data s i = some s') :
    Inv p s' ∧ s'.nic.commands = s.nic.commands ∧ s'.accepted = s.accepted := by
  obtain ⟨nic₁, haxi, hread⟩ := Option.bind_eq_some_iff.mp hread
  obtain ⟨nic₂, hresponses, rfl⟩ := Option.map_eq_some_iff.mp hread
  have hcommands : (progress_axi_reads s.nic).commands = s.nic.commands := by
    unfold progress_axi_reads
    split_ifs <;> rfl
  obtain ⟨nic, hnic, hsame, hinv⟩ := h.progress.respond hdue haxi
  obtain rfl := Option.some.inj (hnic.symm.trans hresponses)
  exact ⟨hinv, hsame.trans hcommands, rfl⟩

/-- A packet leaves, with the response of its command if it is the last one. -/
theorem Inv.emit (h : Inv p s) : Inv p (Sys.emit p s) := by
  unfold Sys.emit progress_netqueue
  simp only
  -- while the network is busy, or has nothing to send, no log moves
  by_cases hwait : 0 < s.nic.wait_cycles - 1
  · rw [if_pos hwait]
    refine ⟨h.cuts, ?_, ?_⟩
    · show Reads _ _ (s.emitted ++ [] ++ s.nic.network_queue) _ _ _ _
      rw [List.append_nil]
      exact h.reads
    · show s.responses ++ [] = ((s.emitted ++ []).filter _).map _
      rw [List.append_nil, List.append_nil]
      exact h.responses
  · rw [if_neg hwait]
    cases hqueue : s.nic.network_queue with
    | nil =>
      have hreads := h.reads
      rw [hqueue] at hreads
      refine ⟨h.cuts, ?_, ?_⟩
      · show Reads _ _ (s.emitted ++ [] ++ []) _ _ _ _
        rw [List.append_nil]
        exact hreads
      · show s.responses ++ [] = ((s.emitted ++ []).filter _).map _
        rw [List.append_nil, List.append_nil]
        exact h.responses
    | cons pkt rest =>
      have hreads := h.reads
      rw [hqueue] at hreads
      refine ⟨h.cuts, ?_, ?_⟩
      · show Reads _ _ (s.emitted ++ [pkt] ++ rest) _ _ _ _
        rw [List.append_assoc, List.singleton_append]
        exact hreads
      · show s.responses ++ (if pkt.is_last then [if pkt.is_last then pkt.cmd_id else _] else [])
          = ((s.emitted ++ [pkt]).filter _).map _
        rw [List.filter_append, List.map_append, ← h.responses, List.filter_singleton]
        -- the last packet of a command is the one that answers it
        cases pkt.is_last with
        | false => rfl
        | true => rfl

/-- A command is accepted; it can be sent. -/
theorem Inv.accept (h : Inv p s)
    (hgood : i.no_cmd_req_valid_i = true → has_free_cmd_slot s.nic.commands = true →
      Fills p i.no_cmd_req_i)
    (haccept : Sys.accept p s i = some s') : Inv p s' := by
  obtain ⟨nic, hhandle, rfl⟩ := Option.map_eq_some_iff.mp haccept
  unfold handle_cmd_posedge at hhandle
  by_cases hreq : (i.no_cmd_req_valid_i && has_free_cmd_slot s.nic.commands) = true
  · obtain ⟨hvalid, hslot⟩ := Bool.and_eq_true_iff.mp hreq
    rw [if_pos hreq] at hhandle
    split_ifs at hhandle with hfits
    have hnew : new_cmd s.nic.commands i.no_cmd_req_i = some (s.nic.commands ++ [i.no_cmd_req_i]) := by
      rw [new_cmd, if_pos (of_decide_eq_true hslot)]
    rw [hnew] at hhandle
    obtain rfl := Option.some.inj hhandle
    exact ⟨h.cuts.accept ⟨hgood hvalid hslot, hfits⟩, h.reads, h.responses⟩
  · rw [if_neg hreq] at hhandle
    obtain rfl := Option.some.inj hhandle
    refine ⟨?_, h.reads, h.responses⟩
    show Cuts p (s.accepted ++ []) (s.owners ++ []) s.nic.commands s.issued
    rw [List.append_nil, List.append_nil]
    exact h.cuts

/-- A packet is cut off the first command, and its payload is read. -/
theorem Inv.issue (h : Inv p s) (hissue : Sys.issue p s = some s') : Inv p s' := by
  unfold Sys.issue at hissue
  by_cases hsend : (has_packets s.nic.commands && can_send_pkt p s.nic) = true
  · rw [if_pos hsend] at hissue
    obtain ⟨⟨pkt, commands⟩, hnext, rfl⟩ := Option.map_eq_some_iff.mp hissue
    have hcuts := h.cuts
    cases hcommands : s.nic.commands with
    | nil =>
      rw [hcommands] at hnext
      exact absurd hnext (by simp [get_next_packet])
    | cons cmd rest =>
      -- every command in the queue has an owner
      cases howners : s.owners with
      | nil =>
        have hlength := hcuts.length
        rw [hcommands, howners] at hlength
        exact absurd hlength (by simp)
      | cons c owners =>
        rw [hcommands, howners] at hcuts
        rw [hcommands, get_next_packet_eq (hcuts.sendable cmd List.mem_cons_self).fits] at hnext
        obtain ⟨rfl, rfl⟩ := Prod.mk.inj (Option.some.inj hnext)
        have hcuts' := hcuts.issue
        obtain ⟨hpayload, hempty, -⟩ := hcuts'.packet
          (List.mem_append_right s.issued List.mem_cons_self)
        refine ⟨?_, ?_, h.responses⟩
        · show Cuts p s.accepted (owners ++ if _ = (cmd :: rest).length then [c] else []) _ _
          -- the owner stays while bytes of its command are left
          rw [put_back]
          exact hcuts'
        · show Reads _ ((s.issued ++ [_]).map Prod.snd) _ _ _ _ _
          rw [List.map_append, List.map_singleton]
          exact h.reads.send hpayload hempty
  · rw [if_neg hsend] at hissue
    obtain rfl := Option.some.inj hissue
    exact h

/-! ## A cycle -/

theorem emit_commands (p : Params) (s : Sys AW) : (Sys.emit p s).nic.commands = s.nic.commands := by
  unfold Sys.emit progress_netqueue
  simp only
  by_cases hwait : 0 < s.nic.wait_cycles - 1
  · rw [if_pos hwait]
  · rw [if_neg hwait]
    cases s.nic.network_queue <;> rfl

theorem Inv.step {i : CycleInput} (h : Inv p s) (he : env s i) (hgood : Good p s i) :
    Inv p (Sys.step p s i) := by
  unfold Sys.step
  cases hedge : edge p s i.input with
  | none => exact h
  | some s' =>
    obtain ⟨s₁, hread, hrest⟩ := Option.bind_eq_some_iff.mp hedge
    obtain ⟨s₂, haccept, hissue⟩ := Option.bind_eq_some_iff.mp hrest
    obtain ⟨h₁, hcommands, -⟩ := h.read_data he hread
    -- the slots are those of the beginning of the cycle
    have hslots : (Sys.emit p s₁).nic.commands = s.nic.commands := (emit_commands p s₁).trans hcommands
    have h₂ := h₁.emit.accept (fun hvalid hslot => hgood hvalid (hslots ▸ hslot)) haccept
    have h₃ := h₂.issue hissue
    exact ⟨h₃.cuts, h₃.reads.move rfl rfl rfl rfl, h₃.responses⟩

theorem Inv.init (p : Params) (h : Sys.init s) : Inv p s := by
  obtain ⟨resp_id, rfl⟩ := h
  refine ⟨Cuts.empty, ?_, rfl⟩
  exact ⟨by simp, rfl, rfl, rfl, BurstMarks.Outstanding.none, Nat.le_refl _, rfl, rfl, rfl,
    by simp [reset], rfl⟩

theorem inv (h : Sync.Reach Sys.init (Sys.step p) (fun s i => env s i ∧ Good p s i) s) : Inv p s :=
  h.inv (fun _ => Inv.init p) fun _ _ hinv he => hinv.step he.1 he.2

/-- A response finds the read that it is for. -/
theorem Inv.read_queue_of_response {i : CycleInput} (h : Inv p s) (he : env s i)
    (hvalid : i.input.responses.r_valid = true) : s.nic.axi_driver.read_queue ≠ [] := by
  intro hnil
  have hleft := h.reads.data_left
  rw [hnil, List.map_nil, eq_comm, List.map_eq_nil_iff] at hleft
  exact (h.reads.due_lt (h.reads.due (he hvalid))).2 hleft

theorem Inv.read_data_isSome {i : CycleInput} (h : Inv p s) (he : env s i)
    (hwrite : i.input.responses.b_valid = false) : ∃ s', Sys.read_data s i.input = some s' := by
  have hprogress := h.progress
  obtain ⟨axi, haxi⟩ := Option.isSome_iff_exists.mp
    (AxiMaster.posedge_isSome hwrite (hprogress.read_queue_of_response he))
  have hnic₁ : axi_posedge (progress_axi_reads s.nic) i.input.responses
      = some { progress_axi_reads s.nic with axi_driver := axi } := by
    rw [axi_posedge, haxi]
    rfl
  obtain ⟨nic₂, hnic₂, -, -⟩ := hprogress.respond he hnic₁
  unfold Sys.read_data
  simp only [hnic₁, Option.bind_some, hnic₂, Option.map_some]
  exact ⟨_, rfl⟩

theorem accept_isSome (p : Params) (s : Sys AW) (i : Input)
    (hfits : i.no_cmd_req_valid_i = true →
      0 < i.no_cmd_req_i.fid ∨ i.no_cmd_req_i.length ≤ p.max_pkt_length) :
    ∃ s', Sys.accept p s i = some s' := by
  unfold Sys.accept handle_cmd_posedge
  split_ifs with hreq hok
  · obtain ⟨-, hslot⟩ := Bool.and_eq_true_iff.mp hreq
    rw [new_cmd, if_pos (of_decide_eq_true hslot)]
    exact ⟨_, rfl⟩
  · exact absurd (hfits (Bool.and_eq_true_iff.mp hreq).1) hok
  · exact ⟨_, rfl⟩

/-- The first command has a packet left to send. -/
theorem Inv.issue_isSome (h : Inv p s) : (Sys.issue p s).isSome = true := by
  unfold Sys.issue
  split_ifs with hsend
  · cases hcommands : s.nic.commands with
    | nil =>
      rw [hcommands] at hsend
      exact absurd (Bool.and_eq_true_iff.mp hsend).1 (by decide)
    | cons cmd rest =>
      have hcmd := h.cuts.sendable cmd (hcommands ▸ List.mem_cons_self)
      rw [get_next_packet_eq hcmd.fits]
      rfl
  · rfl

/-- The simulation goes on: no assertion fails, unless a response of a write comes or a
command is accepted that is too long for its packet. -/
theorem Inv.goes_on {i : CycleInput} (h : Inv p s) (he : env s i) (hgood : Good p s i)
    (hwrite : i.input.responses.b_valid = false)
    (hfits : i.input.no_cmd_req_valid_i = true →
      0 < i.input.no_cmd_req_i.fid ∨ i.input.no_cmd_req_i.length ≤ p.max_pkt_length) :
    (edge p s i.input).isSome = true := by
  obtain ⟨s₁, hread⟩ := h.read_data_isSome he hwrite
  obtain ⟨h₁, hcommands, -⟩ := h.read_data he hread
  obtain ⟨s₂, haccept⟩ := accept_isSome p (Sys.emit p s₁) i.input hfits
  have hslots : (Sys.emit p s₁).nic.commands = s.nic.commands := (emit_commands p s₁).trans hcommands
  have h₂ := h₁.emit.accept (fun hvalid hslot => hgood hvalid (hslots ▸ hslot)) haccept
  rw [edge, hread, Option.bind_some, haccept, Option.bind_some]
  exact h₂.issue_isSome

/-! ## Commands are answered -/

theorem issued_beats (s : Sys AW) : (s.issued.map Prod.snd).map (packet_beats AW)
    = s.issued.map fun q => packet_beats AW q.2 := List.map_map

theorem Inv.order (h : Inv p s) :
    s.emitted.map emptied = (s.issued.map Prod.snd).take s.emitted.length := by
  rw [← h.reads.packets, List.append_assoc, List.map_append, List.take_left']
  exact List.length_map _

/-- A response for every packet that was emitted and is the last of its command. -/
theorem Inv.answered_ids (h : Inv p s) :
    s.responses.map some = s.answered.map fun c => s.accepted[c]?.map (·.cmd_id) := by
  have hemitted : (s.emitted.filter (·.is_last)).map (fun pkt => some pkt.cmd_id)
      = ((s.emitted.map emptied).filter (·.is_last)).map (fun pkt => some pkt.cmd_id) := by
    rw [List.filter_map, List.map_map]
    rfl
  rw [h.responses, List.map_map, answered, Turns.finished, List.map_map]
  refine hemitted.trans ?_
  rw [h.order, ← List.map_take, List.filter_map, List.map_map]
  refine List.map_congr_left fun q hq => ?_
  have hq := List.mem_of_mem_take (List.mem_filter.mp hq).1
  exact (h.cuts.packet hq).2.2.symm

theorem Inv.answered (h : Inv p s) : Answered s := by
  -- what has left is a front of what was cut, since the queues keep the order
  have hsplit : s.issued = s.issued.take s.emitted.length ++ s.issued.drop s.emitted.length :=
    (List.take_append_drop _ _).symm
  have hcuts := h.cuts
  rw [hsplit] at hcuts
  refine ⟨?_, h.order, ?_, h.answered_ids, hcuts.answered_nodup, ?_, ?_, ?_⟩
  · rw [h.reads.taken, issued_beats]
    rfl
  · intro j pkt hpkt k hk
    obtain ⟨hj, -⟩ := List.getElem?_eq_some_iff.mp hpkt
    have hpkt' : (s.emitted ++ s.nic.network_queue ++ s.nic.dma_pkt_in_flight)[j]? = some pkt := by
      rw [List.append_assoc, List.getElem?_append_left hj, hpkt]
    have hfilled := h.reads.filled j pkt hpkt'
    rw [issued_beats] at hfilled
    apply hfilled.data k
    rw [h.reads.gone_full (by rw [List.length_append]; omega) hpkt']
    exact hk
  · exact fun c hc cmd hcmd => hcuts.answered_whole hcmd hc
  · intro hall
    apply h.reads.all_gone
    rw [hall, beat_owners, BurstMarks.length_owners, issued_beats]
  · intro hcommands hdma hnetwork c hc
    have hlen := h.reads.beats_length
    rw [hdma, hnetwork, List.append_nil, List.length_map, List.length_map, List.length_nil,
      Nat.add_zero] at hlen
    have hcuts := h.cuts
    rw [hcommands] at hcuts
    rw [Sys.answered, List.take_of_length_le hlen.le]
    exact hcuts.answered_all hc

/-- **Commands are answered.** In every run in which the accepted commands fill their
packets, packets take the data that were read for them and every command is answered once,
with its own id and after all of its packets. No assertion of the model fails but those on what comes
from outside, and what is recorded beside the model does not change what it does. -/
theorem commands_answered
    (h : Sync.Reach init (step p) (fun s i => env s i ∧ Good p s i) s) :
    Answered s ∧ ∀ i, env s i → Good p s i → i.input.responses.b_valid = false →
      (i.input.no_cmd_req_valid_i = true →
        0 < i.input.no_cmd_req_i.fid ∨ i.input.no_cmd_req_i.length ≤ p.max_pkt_length) →
      ∃ s', edge p s i.input = some s' ∧ posedge p s.nic i.input = some s'.nic := by
  refine ⟨(inv h).answered, fun i he hgood hwrite hfits => ?_⟩
  obtain ⟨s', hedge⟩ := Option.isSome_iff_exists.mp ((inv h).goes_on he hgood hwrite hfits)
  refine ⟨s', hedge, ?_⟩
  rw [← edge_nic, hedge]
  rfl

/-! A command of 128 bytes, whose data come in two beats. With an empty command before it
the first of them goes to the empty packet. -/

def demo_params : Params := ⟨1536, 8, 0⟩

def demo_start : Sys 32 := ⟨reset 0, [], [], [], [], [], [], [], []⟩

def demo_cmd (length : BitVec 32) (cmd_id : BitVec 8) : NICCommand := ⟨0x1c300000, length, 0, 0, cmd_id⟩

def demo_cycle (cmd : Option NICCommand) (r_last : Option Bool) : CycleInput where
  input :=
    { no_cmd_req_valid_i := cmd.isSome
      no_cmd_req_i := cmd.getD (demo_cmd 0 0)
      responses := ⟨false, r_last.isSome, r_last.getD false, fun _ => 0⟩ }
  readies := ⟨true, true, true⟩

/-- The commands, a cycle that drives the burst, and the beats. -/
def demo_end (cmds : List NICCommand) (beats : List Bool) : Sys 32 :=
  Sync.run (step demo_params) demo_start
    (cmds.map (fun cmd => demo_cycle (some cmd) none) ++ [demo_cycle none none]
      ++ beats.map fun r_last => demo_cycle none (some r_last))

theorem commands_answered_demo :
    (demo_end [demo_cmd 128 2] [false, true]).responses = [2]
      ∧ Answered (demo_end [demo_cmd 128 2] [false, true]) := by
  have hreach : Sync.Reach init (step demo_params) (fun s i => env s i ∧ Good demo_params s i)
      (demo_end [demo_cmd 128 2] [false, true]) :=
    Sync.Reach.run (.reset ⟨0, rfl⟩) (by decide +kernel)
  exact ⟨by decide +kernel, (commands_answered hreach).1⟩

/-- The data of the second packet are taken by the first one. -/
theorem answer_mixed_up :
    ¬∀ (p : Params) (s : Sys 32), Sync.Reach init (step p) env s → Answered s := by
  intro hall
  have hreach : Sync.Reach init (step demo_params) env
      (demo_end [demo_cmd 0 1, demo_cmd 128 2] [false]) :=
    Sync.Reach.run (.reset ⟨0, rfl⟩) (by decide +kernel)
  have htaken := (hall _ _ hreach).taken
  revert htaken
  decide +kernel

end Sys

end Pspin.NicOutbound
