/-
`NICOutbound`: the model of the NIC that sends what commands ask for.

The packetizer serves the commands in turns. It cuts a packet off the first command, whose
payload is read over AXI, and puts the command back behind the others while bytes are left.
Packets whose data is there wait for the network and leave one at a time. With the last
packet of a command its response is driven onto the port.

The time on the wire comes from `network_G`, a floating-point number; the cycles for a word
are a parameter here. The user pointer of a command and the statistics are left out. A
failing `assert` ends the simulation, so the functions that assert return `none` there.
-/
import Pspin.AxiMaster

set_option autoImplicit false

namespace Pspin.NicOutbound

open AxiDriver (AXI_SW)
open AxiMaster (Responses)

/-- Bytes of the header that a put has in every packet. -/
def RDMA_HEADER_LENGTH : BitVec 32 := 32
/-- Commands that are taken at a time. -/
def NUM_PARALLEL_CMD : ℕ := 16
/-- Bytes that the network moves at a time. -/
def WORD_SIZE : ℕ := 64

structure NetworkPacket where
  source_addr : BitVec 64
  current_offset : ℕ
  length : BitVec 32
  payload_length : BitVec 32
  cmd_id : BitVec 8
  is_last : Bool
  data : ℕ → BitVec 8

/-- What is left of a command: address and length move on with every packet. -/
structure NICCommand where
  source_addr : BitVec 64
  length : BitVec 32
  nid : BitVec 32
  fid : BitVec 32
  cmd_id : BitVec 8
deriving DecidableEq

/-- The parameters of the simulation. -/
structure Params where
  max_pkt_length : BitVec 32
  network_buffer_size : ℕ
  /-- `network_G * WORD_SIZE`, as an integer. -/
  word_cycles : ℕ

/-- The model's variables, and the lines it drives. -/
structure State (AW : ℕ) where
  axi_driver : AxiMaster.State AW
  /-- The queue of the packetizer. -/
  commands : List NICCommand
  network_queue : List NetworkPacket
  dma_pkt_in_flight : List NetworkPacket
  wait_cycles : ℕ
  no_cmd_req_ready_o : Bool
  no_cmd_resp_valid_o : Bool
  no_cmd_resp_id_o : BitVec 8

/-- What `posedge` reads from the ports. -/
structure Input where
  no_cmd_req_valid_i : Bool
  no_cmd_req_i : NICCommand
  responses : Responses

variable {AW : ℕ}

/-- The constructor. The response id comes up with whatever the testbench holds. -/
def reset (no_cmd_resp_id_o : BitVec 8) : State AW where
  axi_driver := AxiMaster.reset
  commands := []
  network_queue := []
  dma_pkt_in_flight := []
  wait_cycles := 0
  no_cmd_req_ready_o := false
  no_cmd_resp_valid_o := false
  no_cmd_resp_id_o := no_cmd_resp_id_o

/-! ## The packetizer -/

/-- Another command can be taken. -/
def has_free_cmd_slot (commands : List NICCommand) : Bool :=
  decide (commands.length < NUM_PARALLEL_CMD)

def has_packets (commands : List NICCommand) : Bool := decide (0 < commands.length)

/-- `new_cmd`: the assertion that there is room. -/
def new_cmd (commands : List NICCommand) (cmd : NICCommand) : Option (List NICCommand) :=
  if commands.length < NUM_PARALLEL_CMD then some (commands ++ [cmd]) else none

/-- Only RDMA packets have a header. -/
def header_length (cmd : NICCommand) : BitVec 32 := if 0 < cmd.fid then RDMA_HEADER_LENGTH else 0

/-- The smaller of the room in a packet and the bytes that are left. -/
def payloadlen (max_packet_len : BitVec 32) (cmd : NICCommand) : BitVec 32 :=
  let room := max_packet_len - header_length cmd
  if cmd.length < room then cmd.length else room

/-- The packet that is cut off a command. -/
def first_packet (max_packet_len : BitVec 32) (cmd : NICCommand) : NetworkPacket where
  source_addr := cmd.source_addr
  current_offset := 0
  length := header_length cmd + payloadlen max_packet_len cmd
  payload_length := payloadlen max_packet_len cmd
  cmd_id := cmd.cmd_id
  is_last := cmd.length - payloadlen max_packet_len cmd == 0
  data := fun _ => 0

/-- What is left of the command. -/
def rest_of (max_packet_len : BitVec 32) (cmd : NICCommand) : NICCommand :=
  { cmd with
    length := cmd.length - payloadlen max_packet_len cmd
    source_addr := cmd.source_addr + (payloadlen max_packet_len cmd).setWidth 64 }

/-- `get_next_packet`: the next packet of the first command, and the commands without it. A command
that has been sent whole leaves; any other one goes to the end. -/
def get_next_packet (max_packet_len : BitVec 32) (commands : List NICCommand) :
    Option (NetworkPacket × List NICCommand) :=
  match commands with
  | [] => none
  | cmd :: commands =>
    -- a single packet has to hold all of it
    if ¬0 < cmd.fid ∧ max_packet_len < cmd.length then none
    else
      let cmd' := rest_of max_packet_len cmd
      some (first_packet max_packet_len cmd,
        -- with bytes left it goes behind the others
        if 0 < cmd'.length then commands ++ [cmd'] else commands)

/-! ## A rising edge -/

/-- One address moves to the driver. -/
def progress_axi_reads (s : State AW) : State AW :=
  if AxiMaster.has_ar_beat s.axi_driver && AxiMaster.can_send_ar_beat s.axi_driver then
    { s with axi_driver := AxiMaster.send_ar_beat s.axi_driver }
  else s

/-- `length` bytes are copied to the current offset. -/
def copy_data (pkt : NetworkPacket) (r_data : ℕ → BitVec 8) (length : ℕ) : NetworkPacket :=
  { pkt with
    data := fun k => if pkt.current_offset ≤ k ∧ k < pkt.current_offset + length then
      r_data (k - pkt.current_offset) else pkt.data k
    current_offset := pkt.current_offset + length }

/-- The data of a response go to the oldest packet in flight. -/
def progress_axi_read_responses (s : State AW) : Option (State AW) :=
  if AxiMaster.has_r_beat s.axi_driver then
    match s.dma_pkt_in_flight with
    | [] => none
    | pkt :: rest =>
      (AxiMaster.consume_r_beat s.axi_driver AXI_SW).bind fun (length, r_data, read_complete, axi) =>
        let pkt := copy_data pkt r_data length
        if read_complete then
          -- the assertion that the packet has all of its payload
          if pkt.current_offset = pkt.payload_length.toNat then
            some { s with
              axi_driver := axi
              network_queue := s.network_queue ++ [pkt]
              dma_pkt_in_flight := rest }
          else none
        else some { s with axi_driver := axi, dma_pkt_in_flight := pkt :: rest }
  else some s

/-- The packet that leaves, which the callback gets, and the state. -/
def progress_netqueue (p : Params) (s : State AW) : Option NetworkPacket × State AW :=
  let s := { s with no_cmd_resp_valid_o := false, wait_cycles := s.wait_cycles - 1 }
  if 0 < s.wait_cycles then (none, s)
  else
    match s.network_queue with
    | [] => (none, s)
    | pkt :: rest =>
      (some pkt, { s with
        wait_cycles := p.word_cycles * (pkt.length.toNat / WORD_SIZE)
        no_cmd_resp_valid_o := pkt.is_last
        no_cmd_resp_id_o := if pkt.is_last then pkt.cmd_id else s.no_cmd_resp_id_o
        network_queue := rest })

/-- A command is taken from the port. -/
def handle_cmd_posedge (p : Params) (s : State AW) (i : Input) : Option (State AW) :=
  if i.no_cmd_req_valid_i && has_free_cmd_slot s.commands then
    -- the assertion that a command without a flow fits in one packet
    if 0 < i.no_cmd_req_i.fid ∨ i.no_cmd_req_i.length ≤ p.max_pkt_length then
      (new_cmd s.commands i.no_cmd_req_i).map fun commands =>
        { s with commands := commands, no_cmd_req_ready_o := true }
    else none
  else some { s with no_cmd_req_ready_o := false }

/-- The buffer of the network has room for a packet. -/
def can_send_pkt (p : Params) (s : State AW) : Bool :=
  decide (s.network_queue.length + s.dma_pkt_in_flight.length < p.network_buffer_size)

/-- A packet with its read. -/
def send_pkt (s : State AW) (pkt : NetworkPacket) (commands : List NICCommand) : State AW :=
  { s with
    commands := commands
    axi_driver := AxiMaster.read s.axi_driver (pkt.source_addr.setWidth AW) pkt.payload_length.toNat
    dma_pkt_in_flight := s.dma_pkt_in_flight ++ [pkt] }

/-- The next packet is read from the memory. -/
def progress_packets (p : Params) (s : State AW) : Option (State AW) :=
  if has_packets s.commands && can_send_pkt p s then
    (get_next_packet p.max_pkt_length s.commands).map fun (pkt, commands) =>
      send_pkt s pkt commands
  else some s

/-- The AXI master between sending Ax beats and consuming responses. -/
def axi_posedge (s : State AW) (responses : Responses) : Option (State AW) :=
  (AxiMaster.posedge s.axi_driver responses).map fun axi => { s with axi_driver := axi }

def posedge (p : Params) (s : State AW) (i : Input) : Option (State AW) :=
  ((axi_posedge (progress_axi_reads s) i.responses).bind progress_axi_read_responses).bind fun s =>
    (handle_cmd_posedge p (progress_netqueue p s).2 i).bind (progress_packets p)

def negedge (s : State AW) (readies : AxiMaster.Readies) : State AW :=
  { s with axi_driver := AxiMaster.negedge s.axi_driver readies }

end Pspin.NicOutbound
