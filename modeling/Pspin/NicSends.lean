/-
Runs of `NICOutbound`, and what it means to answer a command.

`Sys` follows the parts of a rising edge. It numbers the accepted commands, and the packets
as they are cut off, and records for every response of a read the packet that took the data.
Behind the packetizer all queues are first in, first out, so the packet in front of
`dma_pkt_in_flight` is known by its number.

A response of a read belongs to the burst whose turn it is (`env`), and through the burst to
a packet (`beat_owners`). `Answered` says that the NIC finds the same packet, that packets
leave in order and with their own data, and that every command is answered once, after all
of its packets.
-/
import Pspin.NicOutbound
import Pspin.Sync
import Pspin.Turns

set_option autoImplicit false

namespace Pspin.NicOutbound

open AxiDriver (axi_ax_beat_t n_beats burst_beats)
open BurstMarks (marks)

variable {AW : ℕ}

/-- The beats of each burst that reads the payload of a packet. -/
def packet_bursts (AW : ℕ) (pkt : NetworkPacket) : List ℕ :=
  burst_beats (pkt.source_addr.setWidth AW) pkt.payload_length.toNat

/-- All beats of these bursts. -/
def packet_beats (AW : ℕ) (pkt : NetworkPacket) : ℕ := (packet_bursts AW pkt).sum

/-- A packet as it was when it was cut off. -/
def emptied (pkt : NetworkPacket) : NetworkPacket :=
  { pkt with current_offset := 0, data := fun _ => 0 }

structure CycleInput where
  input : Input
  readies : AxiMaster.Readies

structure Sys (AW : ℕ) where
  nic : State AW
  accepted : List NICCommand
  /-- The numbers of the commands in the packetizer. -/
  owners : List ℕ
  /-- The packets cut off, each with the number of its command. -/
  issued : List (ℕ × NetworkPacket)
  ar_driven : List (axi_ax_beat_t AW)
  received : List (ℕ → BitVec 8)
  /-- The number of the packet that took the data of each response. -/
  taken : List ℕ
  emitted : List NetworkPacket
  responses : List (BitVec 8)

namespace Sys

/-! ## A cycle -/

/-- `progress_axi_reads`, the master's edge, and `progress_axi_read_responses`. -/
def read_data (s : Sys AW) (i : Input) : Option (Sys AW) :=
  let nic := progress_axi_reads s.nic
  (axi_posedge nic i.responses).bind fun nic₁ =>
    (progress_axi_read_responses nic₁).map fun nic₂ =>
      { s with
        nic := nic₂
        ar_driven := s.ar_driven ++
          if nic.axi_driver.ar_wait then [] else nic.axi_driver.ar_queue.take 1
        received := s.received ++ (nic₁.axi_driver.r_queue.take 1).map (·.data)
        taken := s.taken ++ (nic₁.axi_driver.r_queue.take 1).map fun _ =>
          s.issued.length - nic₁.dma_pkt_in_flight.length }

/-- `progress_netqueue`. -/
def emit (p : Params) (s : Sys AW) : Sys AW :=
  let (pkt, nic) := progress_netqueue p s.nic
  { s with
    nic := nic
    emitted := s.emitted ++ pkt.toList
    responses := s.responses ++ if nic.no_cmd_resp_valid_o then [nic.no_cmd_resp_id_o] else [] }

/-- `handle_cmd_posedge`. -/
def accept (p : Params) (s : Sys AW) (i : Input) : Option (Sys AW) :=
  (handle_cmd_posedge p s.nic i).map fun nic =>
    { s with
      nic := nic
      accepted := s.accepted ++ if nic.no_cmd_req_ready_o then [i.no_cmd_req_i] else []
      owners := s.owners ++ if nic.no_cmd_req_ready_o then [s.accepted.length] else [] }

/-- `progress_packets`. The first command was put back if there are as many as before. -/
def issue (p : Params) (s : Sys AW) : Option (Sys AW) :=
  if has_packets s.nic.commands && can_send_pkt p s.nic then
    (get_next_packet p.max_pkt_length s.nic.commands).map fun (pkt, commands) =>
      { s with
        nic := send_pkt s.nic pkt commands
        owners := s.owners.tail ++
          if commands.length = s.nic.commands.length then s.owners.take 1 else []
        issued := s.issued ++ [(s.owners.headD 0, pkt)] }
  else some s

def edge (p : Params) (s : Sys AW) (i : Input) : Option (Sys AW) :=
  (read_data s i).bind fun s => (accept p (emit p s) i).bind (issue p)

/-- A cycle. Where an assertion fails the simulation ends, and nothing changes any more. -/
def step (p : Params) (s : Sys AW) (i : CycleInput) : Sys AW :=
  match edge p s i.input with
  | none => s
  | some s' => { s' with nic := negedge s'.nic i.readies }

def init (s : Sys AW) : Prop := ∃ resp_id, s = ⟨reset resp_id, [], [], [], [], [], [], [], []⟩

/-- Reads are answered in the order of the bursts that were driven, with the last beat of
each one marked. -/
def env (s : Sys AW) (i : CycleInput) : Prop :=
  i.input.responses.r_valid = true →
    (marks (s.ar_driven.map n_beats))[s.received.length]? = some i.input.responses.r_last

/-- A command that fills its packets: it has bytes, and an RDMA packet has room for some. -/
def Fills (p : Params) (cmd : NICCommand) : Prop :=
  0 < cmd.length ∧ (0 < cmd.fid → p.max_pkt_length ≠ RDMA_HEADER_LENGTH)

/-- The command that the cycle accepts, if any, fills its packets. -/
def Good (p : Params) (s : Sys AW) (i : CycleInput) : Prop :=
  i.input.no_cmd_req_valid_i = true → has_free_cmd_slot s.nic.commands = true →
    Fills p i.input.no_cmd_req_i

instance (s : Sys AW) (i : CycleInput) : Decidable (env s i) := inferInstanceAs (Decidable (_ → _))

instance (p : Params) (cmd : NICCommand) : Decidable (Fills p cmd) :=
  inferInstanceAs (Decidable (_ ∧ _))

instance (p : Params) (s : Sys AW) (i : CycleInput) : Decidable (Good p s i) :=
  inferInstanceAs (Decidable (_ → _ → _))

/-- The parts of the edge are those of the model: nothing reads the logs. -/
theorem edge_nic (p : Params) (s : Sys AW) (i : Input) :
    (edge p s i).map (·.nic) = posedge p s.nic i := by
  have hread : ∀ s : Sys AW, (read_data s i).map (·.nic)
      = (axi_posedge (progress_axi_reads s.nic) i.responses).bind progress_axi_read_responses := by
    intro s
    rw [read_data, Option.map_bind]
    congr 1
    funext nic
    rw [Function.comp, Option.map_map]
    exact Option.map_id'
  have hissue : ∀ s : Sys AW, (issue p s).map (·.nic) = progress_packets p s.nic := by
    intro s
    unfold issue progress_packets
    split_ifs
    · rw [Option.map_map]
      rfl
    · rfl
  have haccept : ∀ s : Sys AW, (accept p s i).map (·.nic) = handle_cmd_posedge p s.nic i := by
    intro s
    rw [accept, Option.map_map]
    exact Option.map_id'
  -- the logs are ghosts: no phase of the cycle reads them
  have hbind : ∀ {f : Sys AW → Option (Sys AW)} {g : State AW → Option (State AW)}
      (o : Option (Sys AW)), (∀ s, (f s).map (·.nic) = g s.nic) →
      (o.bind f).map (·.nic) = (o.map (·.nic)).bind g := by
    intro f g o hfg
    cases o with
    | none => rfl
    | some s => exact hfg s
  rw [edge, posedge, hbind _ fun s => ?_, hread]
  rw [hbind _ hissue, haccept]
  rfl

/-! ## Answers -/

/-- The packet that each response of a read belongs to. -/
def beat_owners (s : Sys AW) : List ℕ :=
  BurstMarks.owners 0 (s.issued.map fun q => packet_beats AW q.2)

/-- The commands of the packets that were emitted and that are the last of their command. -/
def answered (s : Sys AW) : List ℕ :=
  Turns.finished (·.is_last) (s.issued.take s.emitted.length)

/-- The number of the first response that belongs to packet `j`. -/
def first_beat (s : Sys AW) (j : ℕ) : ℕ := ((s.issued.map fun q => packet_beats AW q.2).take j).sum

structure Answered (s : Sys AW) : Prop where
  /-- Data of a read are taken by the packet they were read for. -/
  taken : s.taken = s.beat_owners.take s.received.length
  /-- Packets leave in the order in which they were cut off. -/
  order : s.emitted.map emptied = (s.issued.map Prod.snd).take s.emitted.length
  /-- Their payload is what was read for them, line by line. -/
  data : ∀ j pkt, s.emitted[j]? = some pkt → ∀ k < pkt.payload_length.toNat,
    pkt.data k = s.received.getD (s.first_beat j + k / 64) (fun _ => 0) (k % 64)
  /-- Responses carry the ids of the commands that they answer. -/
  responses : s.responses.map some
    = s.answered.map fun c => s.accepted[c]?.map (·.cmd_id)
  /-- No command is answered twice. -/
  once : s.answered.Nodup
  /-- A command is answered after all of its packets, which hold all of its bytes. -/
  whole : ∀ c ∈ s.answered, ∀ cmd, s.accepted[c]? = some cmd →
    c ∉ s.owners ∧ Turns.piecesOf (s.issued.drop s.emitted.length) c = []
      ∧ ((Turns.piecesOf (s.issued.take s.emitted.length) c).map (·.payload_length.toNat)).sum
        = cmd.length.toNat
  /-- No packet waits for data that were received. -/
  arrived : s.received.length = s.beat_owners.length → s.nic.dma_pkt_in_flight = []
  /-- When nothing is left to do, every command was answered. -/
  all : s.nic.commands = [] → s.nic.dma_pkt_in_flight = [] → s.nic.network_queue = [] →
    ∀ c < s.accepted.length, c ∈ s.answered

end Sys

end Pspin.NicOutbound
