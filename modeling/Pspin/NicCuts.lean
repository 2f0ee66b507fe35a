/-
The packetizer of `NICOutbound` serves its commands in turns.

Under `Sendable` every packet has a payload, so a command gets shorter with each packet and
its last packet is the one that leaves nothing. `Cuts` instantiates the queue of jobs that
are cut into pieces: the jobs are the commands, the pieces their packets.
-/
import Pspin.NicSends

set_option autoImplicit false

namespace Pspin.NicOutbound

open Turns (Ledger Pieces Served piecesOf)

/-! ## Cutting a packet off a command -/

/-- What is left of a command, if anything. -/
def left_of (max_packet_len : BitVec 32) (cmd : NICCommand) : Option NICCommand :=
  if 0 < (rest_of max_packet_len cmd).length then some (rest_of max_packet_len cmd) else none

/-- A command that fills its packets and passes the assertions. -/
structure Sendable (p : Params) (cmd : NICCommand) : Prop where
  fills : Sys.Fills p cmd
  fits : 0 < cmd.fid ∨ cmd.length ≤ p.max_pkt_length

section Cut

variable {p : Params} {cmd : NICCommand}

theorem payloadlen_le (max_packet_len : BitVec 32) (cmd : NICCommand) :
    (payloadlen max_packet_len cmd).toNat ≤ cmd.length.toNat := by
  unfold payloadlen
  simp only
  split_ifs with h
  · exact le_refl _
  · exact Nat.le_of_not_lt h

theorem Sendable.payload_pos (h : Sendable p cmd) :
    0 < (payloadlen p.max_pkt_length cmd).toNat := by
  have hlen : 0 < cmd.length.toNat := h.fills.1
  unfold payloadlen header_length
  simp only
  split_ifs with hfid hroom hroom
  · exact hlen
  · -- an RDMA packet, with room behind the header
    have hne := h.fills.2 hfid
    unfold RDMA_HEADER_LENGTH at hne ⊢
    bv_omega
  · exact hlen
  · -- a single packet, with room for all of it
    have hfits : cmd.length ≤ p.max_pkt_length := h.fits.resolve_left hfid
    bv_omega

theorem rest_of_length (max_packet_len : BitVec 32) (cmd : NICCommand) :
    (rest_of max_packet_len cmd).length.toNat
      = cmd.length.toNat - (payloadlen max_packet_len cmd).toNat := by
  have hle := payloadlen_le max_packet_len cmd
  rw [rest_of]
  bv_omega

/-- What is left of a command, with its bytes. -/
theorem mem_left_of {max_packet_len : BitVec 32} {cmd' : NICCommand}
    (h : cmd' ∈ left_of max_packet_len cmd) :
    cmd' = rest_of max_packet_len cmd ∧ 0 < cmd'.length := by
  unfold left_of at h
  split_ifs at h with hpos
  · obtain rfl := Option.mem_some_iff.mp h
    exact ⟨rfl, hpos⟩
  · exact absurd h (by simp)

/-- What is left of a command can be sent. -/
theorem Sendable.left_of (h : Sendable p cmd) {cmd' : NICCommand}
    (hleft : cmd' ∈ left_of p.max_pkt_length cmd) : Sendable p cmd' := by
  obtain ⟨rfl, hpos⟩ := mem_left_of hleft
  refine ⟨⟨hpos, h.fills.2⟩, h.fits.imp_right fun hfits => ?_⟩
  have hlen := rest_of_length p.max_pkt_length cmd
  have hfits : cmd.length.toNat ≤ p.max_pkt_length.toNat := hfits
  show (rest_of p.max_pkt_length cmd).length.toNat ≤ p.max_pkt_length.toNat
  omega

/-- The packet that leaves nothing is marked as the last one. -/
theorem first_packet_last (max_packet_len : BitVec 32) (cmd : NICCommand) :
    (first_packet max_packet_len cmd).is_last = true ↔ left_of max_packet_len cmd = none := by
  have hlast : (first_packet max_packet_len cmd).is_last
      = ((rest_of max_packet_len cmd).length == 0) := rfl
  rw [hlast, beq_iff_eq, NicOutbound.left_of]
  split_ifs with hpos
  · refine iff_of_false (fun hzero => ?_) (by simp)
    rw [hzero] at hpos
    exact absurd hpos (by decide)
  · refine iff_of_true ?_ rfl
    bv_omega

/-- A packet is cut off a command that passes the assertion. -/
theorem get_next_packet_eq {max_packet_len : BitVec 32}
    (h : 0 < cmd.fid ∨ cmd.length ≤ max_packet_len) (commands : List NICCommand) :
    get_next_packet max_packet_len (cmd :: commands)
      = some (first_packet max_packet_len cmd,
        commands ++ (NicOutbound.left_of max_packet_len cmd).toList) := by
  have hfits : ¬(¬0 < cmd.fid ∧ max_packet_len < cmd.length) := by
    rintro ⟨hfid, hlt⟩
    exact absurd (h.resolve_left hfid) (BitVec.not_le.mpr hlt)
  rw [get_next_packet, if_neg hfits, NicOutbound.left_of]
  by_cases hpos : 0 < (rest_of max_packet_len cmd).length
  · simp only [if_pos hpos]
    rfl
  · simp only [if_neg hpos, Option.toList_none, List.append_nil]

/-- The number of the commands says whether the first was put back, which it is when
something is left of it. -/
theorem put_back {cmd : NICCommand} {rest : List NICCommand} (left : Option NICCommand) (c : ℕ) :
    (if (rest ++ left.toList).length = (cmd :: rest).length then [c] else [])
      = (left.map fun _ => c).toList := by
  cases left with
  | none =>
    rw [if_neg]
    · rfl
    · rw [Option.toList_none, List.append_nil, List.length_cons]
      omega
  | some cmd' =>
    rw [if_pos]
    · rfl
    · rw [Option.toList_some, List.length_append]
      rfl

/-- The packets of a command have its bytes, up to those that are left. -/
theorem packets_sum {max_packet_len : BitVec 32} {pkts : List NetworkPacket}
    {left : Option NICCommand}
    (h : Pieces (first_packet max_packet_len) (left_of max_packet_len) cmd pkts left) :
    (pkts.map (·.payload_length.toNat)).sum + (left.elim 0 (·.length.toNat))
      = cmd.length.toNat := by
  induction h with
  | start => exact Nat.zero_add _
  | cut h ih =>
    rename_i pkts cmd'
    have hsum : (pkts.map (·.payload_length.toNat)).sum + cmd'.length.toNat = cmd.length.toNat := ih
    -- the packet takes from what was left
    have hle := payloadlen_le max_packet_len cmd'
    have hrest := rest_of_length max_packet_len cmd'
    have hpayload : (first_packet max_packet_len cmd').payload_length.toNat
      = (payloadlen max_packet_len cmd').toNat := rfl
    rw [List.map_append, List.sum_append, List.map_singleton, List.sum_singleton, hpayload,
      NicOutbound.left_of]
    split_ifs with hpos
    · show _ + (rest_of max_packet_len cmd').length.toNat = _
      omega
    · show _ + 0 = _
      have hzero : (rest_of max_packet_len cmd').length.toNat = 0 := Nat.eq_zero_of_not_pos hpos
      omega

/-- The packets of a command have a payload and its id. -/
theorem packets_spec {pkts : List NetworkPacket} {left : Option NICCommand}
    (h : Pieces (first_packet p.max_pkt_length) (left_of p.max_pkt_length) cmd pkts left)
    (hcmd : Sendable p cmd) :
    ∀ pkt ∈ pkts, 0 < pkt.payload_length.toNat ∧ pkt.cmd_id = cmd.cmd_id ∧ emptied pkt = pkt := by
  refine (h.forall_mem (P := fun cmd' => Sendable p cmd' ∧ cmd'.cmd_id = cmd.cmd_id)
    (Q := fun pkt => 0 < pkt.payload_length.toNat ∧ pkt.cmd_id = cmd.cmd_id ∧ emptied pkt = pkt)
    ⟨hcmd, rfl⟩ ?_ ?_).2
  · rintro cmd' ⟨hcmd', hid⟩ cmd'' hleft
    refine ⟨hcmd'.left_of hleft, ?_⟩
    obtain ⟨rfl, -⟩ := mem_left_of hleft
    exact hid
  · rintro cmd' ⟨hcmd', hid⟩
    exact ⟨hcmd'.payload_pos, hid, rfl⟩

end Cut

/-! ## The queue of commands -/

/-- The commands that were accepted, those in the packetizer, and the packets. -/
structure Cuts (p : Params) (accepted : List NICCommand) (owners : List ℕ)
    (commands : List NICCommand) (issued : List (ℕ × NetworkPacket)) : Prop where
  length : owners.length = commands.length
  served : Served (first_packet p.max_pkt_length) (left_of p.max_pkt_length) accepted
    (owners.zip commands) issued
  accepted_sendable : ∀ cmd ∈ accepted, Sendable p cmd
  sendable : ∀ cmd ∈ commands, Sendable p cmd

namespace Cuts

variable {p : Params} {accepted : List NICCommand} {owners : List ℕ} {commands : List NICCommand}
  {issued : List (ℕ × NetworkPacket)} {cmd : NICCommand} {c : ℕ}

theorem empty : Cuts p [] [] [] [] := ⟨rfl, Served.empty, by simp, by simp⟩

/-- `Cuts` is the ledger of a queue of sendable commands. -/
theorem iff_ledger : Cuts p accepted owners commands issued ↔
    Ledger (first_packet p.max_pkt_length) (left_of p.max_pkt_length) (Sendable p) accepted owners
      commands issued :=
  ⟨fun ⟨h₁, h₂, h₃, h₄⟩ => ⟨h₁, h₂, h₃, h₄⟩, fun ⟨h₁, h₂, h₃, h₄⟩ => ⟨h₁, h₂, h₃, h₄⟩⟩

theorem accept (h : Cuts p accepted owners commands issued) (hcmd : Sendable p cmd) :
    Cuts p (accepted ++ [cmd]) (owners ++ [accepted.length]) (commands ++ [cmd]) issued :=
  iff_ledger.mpr ((iff_ledger.mp h).accept hcmd)

/-- A packet is cut off the first command. -/
theorem issue (h : Cuts p accepted (c :: owners) (cmd :: commands) issued) :
    Cuts p accepted (owners ++ ((left_of p.max_pkt_length cmd).map fun _ => c).toList)
      (commands ++ (left_of p.max_pkt_length cmd).toList)
      (issued ++ [(c, first_packet p.max_pkt_length cmd)]) :=
  iff_ledger.mpr ((iff_ledger.mp h).serve fun _ ha _ => ha.left_of)

theorem queued (h : Cuts p accepted owners commands issued) :
    (owners.zip commands).map Prod.fst = owners :=
  (iff_ledger.mp h).queued

/-- Every packet has a payload and the id of its command. -/
theorem packet (h : Cuts p accepted owners commands issued) {q : ℕ × NetworkPacket}
    (hq : q ∈ issued) : 0 < q.2.payload_length.toNat ∧ emptied q.2 = q.2
      ∧ accepted[q.1]?.map (·.cmd_id) = some q.2.cmd_id := by
  have hlt := h.served.issued_lt q hq
  have hget : accepted[q.1]? = some accepted[q.1] := List.getElem?_eq_getElem hlt
  obtain ⟨left, hpieces⟩ := h.served.pieces hget
  obtain ⟨hpos, hid, hempty⟩ := packets_spec hpieces
    (h.accepted_sendable _ (List.getElem_mem hlt)) q.2 (Turns.mem_piecesOf hq)
  refine ⟨hpos, hempty, ?_⟩
  rw [hget, hid]
  rfl

section Last

variable {l l' : List (ℕ × NetworkPacket)}

theorem answered_nodup (h : Cuts p accepted owners commands (l ++ l')) :
    (Turns.finished (·.is_last) l).Nodup :=
  h.served.finished_nodup h.accepted_sendable (fun _ ha _ => ha.left_of)
    fun _ _ => first_packet_last _ _

theorem answered_whole (h : Cuts p accepted owners commands (l ++ l'))
    (hcmd : accepted[c]? = some cmd) (hc : c ∈ Turns.finished (·.is_last) l) :
    c ∉ owners ∧ piecesOf l' c = []
      ∧ ((piecesOf l c).map (·.payload_length.toNat)).sum = cmd.length.toNat := by
  obtain ⟨hqueue, hnil, hpieces⟩ := h.served.finished_whole h.accepted_sendable
    (fun _ ha _ => ha.left_of) (fun _ _ => first_packet_last _ _) hcmd hc
  rw [h.queued] at hqueue
  exact ⟨hqueue, hnil, packets_sum hpieces⟩

theorem answered_all (h : Cuts p accepted owners [] issued) (hc : c < accepted.length) :
    c ∈ Turns.finished (·.is_last) issued := by
  have hserved := h.served
  rw [List.zip_nil_right] at hserved
  exact hserved.finished_all h.accepted_sendable (fun _ ha _ => ha.left_of)
    (fun _ _ => first_packet_last _ _) hc

end Last

end Cuts

end Pspin.NicOutbound
