/-
`NICInbound` and the AXI master it writes packets with.

At a rising edge the oldest beats move to the port, a response may arrive, and when it
completes a write the oldest queued HER becomes ready; after that a packet may be accepted
and its write handed to the master. The payload does not matter here and is an input of
the edge that accepts the packet.
-/
import Mathlib.Data.Bool.Basic
import Pspin.AxiMaster
import Pspin.NicInbound

set_option autoImplicit false

namespace Pspin.NicInbound

open AxiDriver (create_ax_beats beat_and_size_t axi_ax_beat_t)
open AxiMaster (Responses Readies)

abbrev Axi := AxiMaster.State C_ADDR_WIDTH

/-! ## A rising edge with the master -/

/-- A packet that was accepted: its HER, with the address, and its length. -/
structure write_t where
  her : nic_her_t
  pkt_len : ℕ

/-- The length as `process_packet` takes it. -/
def write_t.n_bytes (w : write_t) : ℕ := w.pkt_len % 2 ^ 32

def write_t.bursts (w : write_t) : List (beat_and_size_t C_ADDR_WIDTH) :=
  create_ax_beats w.her.her_addr w.n_bytes

def progress_axi_writes (axi : Axi) : Axi :=
  let axi := if AxiMaster.has_aw_beat axi && AxiMaster.can_send_aw_beat axi then
    AxiMaster.send_aw_beat axi else axi
  if AxiMaster.has_w_beat axi && AxiMaster.can_send_w_beat axi then AxiMaster.send_w_beat axi else axi

/-- Whether a response completes a write, and the master without that response. -/
def write_response (axi : Axi) : Bool × Axi :=
  if AxiMaster.has_b_beat axi then AxiMaster.consume_b_beat axi else (false, axi)

/-- The packet that `progress_incoming_packets` accepts. -/
def accepting (p : Params) (s : State) (sim_time : ℕ) : Option write_t :=
  match s.incoming_hers with
  | [] => none
  | ih :: _ =>
    if 0 < s.packet_wait_cycles - 1 then none
    else
      (allocate_pkt_space p { s with packet_wait_cycles := s.packet_wait_cycles - 1 } ih.pkt_len).map
        fun (pkt_addr, _) =>
          ⟨{ ih.her with her_addr := pkt_addr, nic_arrival_time := sim_time }, ih.pkt_len⟩

/-- The write of an accepted packet. -/
def write_packet (axi : Axi) (pkt_data : ℕ → BitVec 8) : Option write_t → Option Axi
  | none => some axi
  | some w => AxiMaster.write axi w.her.her_addr pkt_data w.n_bytes 0

/-- The outcome of a rising edge. -/
structure Edge where
  nic : State
  axi : Axi
  write_completed : Bool
  accepted : Option write_t

/-- `posedge`, with its calls of the master. -/
def axi_posedge (p : Params) (s : State) (axi : Axi) (i : Input) (responses : Responses)
    (pkt_data : ℕ → BitVec 8) : Option Edge :=
  (AxiMaster.posedge (progress_axi_writes axi) responses).bind fun axi =>
  let (write_completed, axi) := write_response axi
  (progress_axi_write_responses s write_completed).bind fun s' =>
  let accepted := accepting p s' i.sim_time
  (write_packet axi pkt_data accepted).bind fun axi =>
  (posedge p s { i with write_completed := write_completed }).map fun nic =>
  ⟨nic, axi, write_completed, accepted⟩

/-! ## What the edge does to the queues of HERs -/

section Queues

variable {p : Params} {s s' : State} {i : Input} {sim_time : ℕ}

/-- Driving the port and freeing packets leave the queues before the port alone. -/
structure SameQueues (s s' : State) : Prop where
  queued_hers : s'.queued_hers = s.queued_hers
  incoming_hers : s'.incoming_hers = s.incoming_hers

theorem SameQueues.refl (s : State) : SameQueues s s := ⟨rfl, rfl⟩

theorem SameQueues.trans {s s' s'' : State} (h : SameQueues s s') (h' : SameQueues s' s'') :
    SameQueues s s'' :=
  ⟨h'.queued_hers.trans h.queued_hers, h'.incoming_hers.trans h.incoming_hers⟩

theorem allocate_queues {size : ℕ} {addr : mem_addr_t}
    (h : allocate_pkt_space p s size = some (addr, s')) : SameQueues s s' := by
  unfold allocate_pkt_space at h
  simp only at h
  split_ifs at h <;>
  · obtain ⟨-, rfl⟩ := Prod.mk.inj (Option.some.inj h)
    exact ⟨rfl, rfl⟩

theorem advance_head_queues (n : ℕ) : ∀ s, SameQueues s (advance_head n s) := by
  induction n with
  | zero => exact SameQueues.refl
  | succ n ih =>
    intro s
    unfold advance_head
    split
    · exact SameQueues.refl s
    · rename_i inc _
      have hretire : SameQueues s (retire_head s inc) := ⟨rfl, rfl⟩
      exact hretire.trans (ih _)

theorem free_queues {addr : mem_addr_t} {size : mem_size_t}
    (h : free_pkt_space p s addr size = some s') : SameQueues s s' := by
  unfold free_pkt_space at h
  simp only at h
  split_ifs at h
  obtain rfl := Option.some.inj h
  apply SameQueues.trans _ (advance_head_queues _ _)
  exact ⟨rfl, rfl⟩

theorem feedback_queues (h : feedback_progress p s i = some s') :
    SameQueues s s' ∧ s'.ready_hers = s.ready_hers := by
  refine ⟨?_, (feedback_progress_port h).2.2.1⟩
  unfold feedback_progress at h
  split_ifs at h with hin
  · split at h
    · exact absurd h (by simp)
    · rename_i hfree
      obtain rfl := Option.some.inj h
      exact (free_queues hfree).trans ⟨rfl, rfl⟩
  · obtain rfl := Option.some.inj h
    exact SameQueues.refl s

theorem her_progress_queues (h : her_progress_posedge s i = some s') :
    SameQueues s s' ∧ s'.ready_hers <:+ s.ready_hers := by
  unfold her_progress_posedge at h
  simp only at h
  split_ifs at h
  · obtain rfl := Option.some.inj h
    exact ⟨⟨rfl, rfl⟩, List.suffix_refl _⟩
  · cases hq : s.ready_hers with
    | nil =>
      rw [hq] at h
      obtain rfl := Option.some.inj h
      exact ⟨⟨rfl, rfl⟩, List.suffix_refl _⟩
    | cons her rest =>
      rw [hq] at h
      simp only at h
      split_ifs at h
      obtain rfl := Option.some.inj h
      exact ⟨⟨rfl, rfl⟩, List.suffix_cons her rest⟩

/-- An accepted packet leaves the incoming ones and its HER is queued. -/
theorem incoming_queues (p : Params) (s : State) (sim_time : ℕ) :
    (progress_incoming_packets p s sim_time).queued_hers
        = s.queued_hers ++ ((accepting p s sim_time).map (·.her)).toList
      ∧ (progress_incoming_packets p s sim_time).incoming_hers <:+ s.incoming_hers := by
  unfold progress_incoming_packets accepting
  cases hq : s.incoming_hers with
  | nil =>
    refine ⟨(List.append_nil _).symm, ?_⟩
    show s.incoming_hers <:+ []
    rw [hq]
  | cons ih rest =>
    simp only
    by_cases hwait : 0 < s.packet_wait_cycles - 1
    · rw [if_pos hwait, if_pos hwait]
      exact ⟨(List.append_nil _).symm, List.suffix_refl _⟩
    · rw [if_neg hwait, if_neg hwait, process_packet]
      generalize halloc : allocate_pkt_space p _ ih.pkt_len = found
      cases found with
      | none => exact ⟨(List.append_nil _).symm, List.suffix_refl _⟩
      | some r =>
        have hsame := allocate_queues halloc
        exact ⟨congrArg (· ++ _) hsame.queued_hers, List.suffix_cons ih rest⟩

/-- The packet that is accepted is the first incoming one. -/
theorem accepting_mem {w : write_t} (h : accepting p s sim_time = some w) :
    ∃ ih ∈ s.incoming_hers, w.pkt_len = ih.pkt_len := by
  unfold accepting at h
  cases hq : s.incoming_hers with
  | nil =>
    rw [hq] at h
    exact absurd h (by simp)
  | cons ih rest =>
    rw [hq] at h
    simp only at h
    split_ifs at h
    obtain ⟨r, -, rfl⟩ := Option.map_eq_some_iff.mp h
    exact ⟨ih, List.mem_cons_self, rfl⟩

/-- The queues after a rising edge, from those after the response of the master. -/
theorem posedge_queues {s₁ : State} (hactive : i.pspin_active_i = true)
    (hresp : progress_axi_write_responses s i.write_completed = some s₁)
    (h : posedge p s i = some s') :
    s'.queued_hers = s₁.queued_hers ++ ((accepting p s₁ i.sim_time).map (·.her)).toList
      ∧ s'.incoming_hers <:+ s₁.incoming_hers ∧ s'.ready_hers <:+ s₁.ready_hers := by
  rw [posedge, if_pos hactive, before_feedback, progress_packets, hresp] at h
  obtain ⟨s₂, hher, hfeedback⟩ := Option.bind_eq_some_iff.mp h
  obtain ⟨hq, hin⟩ := incoming_queues p s₁ i.sim_time
  obtain ⟨hq₂, hready₂⟩ := her_progress_queues hher
  obtain ⟨hq₃, hready₃⟩ := feedback_queues hfeedback
  have hport := progress_incoming_packets_port p s₁ i.sim_time
  refine ⟨?_, ?_, ?_⟩
  · rw [hq₃.queued_hers, hq₂.queued_hers, hq]
  · rw [hq₃.incoming_hers, hq₂.incoming_hers]
    exact hin
  · rw [hready₃, ← hport.ready_hers]
    exact hready₂

theorem axi_posedge_spec {axi : Axi} {responses : Responses} {pkt_data : ℕ → BitVec 8} {e : Edge}
    (h : axi_posedge p s axi i responses pkt_data = some e) : ∃ axi₁ s₁,
      AxiMaster.posedge (progress_axi_writes axi) responses = some axi₁
        ∧ e.write_completed = (write_response axi₁).1
        ∧ progress_axi_write_responses s e.write_completed = some s₁
        ∧ e.accepted = accepting p s₁ i.sim_time
        ∧ write_packet (write_response axi₁).2 pkt_data e.accepted = some e.axi
        ∧ posedge p s { i with write_completed := e.write_completed } = some e.nic := by
  unfold axi_posedge at h
  obtain ⟨axi₁, hedge, h⟩ := Option.bind_eq_some_iff.mp h
  obtain ⟨s₁, hresp, h⟩ := Option.bind_eq_some_iff.mp h
  obtain ⟨axi₂, hwrite, h⟩ := Option.bind_eq_some_iff.mp h
  obtain ⟨nic, hnic, rfl⟩ := Option.map_eq_some_iff.mp h
  exact ⟨axi₁, s₁, hedge, rfl, hresp, rfl, hwrite, hnic⟩

end Queues

end Pspin.NicInbound
