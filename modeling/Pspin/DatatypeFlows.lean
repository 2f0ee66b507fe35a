/-
`datatypes.c`: messages of a datatype, unpacked by the handlers while they arrive.

Every flow has a segment of its own, which its payload handlers walk on packet by packet,
and a buffer of its own in host memory. The packets of a flow come one at a time, because
the sender waits for the acknowledgement of each, but the transfers of all flows are under
way together and may complete in any order. Several flows may share an HPU, one after the other.
-/
import Pspin.DatatypeInit
import Pspin.Slmp

set_option autoImplicit false

open Function (update)
open NestedLoop Fit

namespace Pspin.Datatypes

open Handlers Slmp IpChecksum

/-! ## The handlers -/

/-- The buffer of one flow. -/
def SIZE_MSG : ℕ := 8 * 1024 * 1024

/-- `spin_datatype_mem_t`, with the counters of `fpspin_host_req`. The parameters in
`spin_core_state_t` are set anew for each packet. -/
structure HandlerMem where
  state : ℕ → Segment
  dma_idx : dma_idx_t

/-- The command that the interpreter issues. -/
def Dma.command (m : Dma) : Command :=
  .dma_to_host m.dest (BitVec.ofNat 32 m.source) (BitVec.ofNat 32 m.size)

/-- `params.userbuf` of a flow. -/
def userbuf (args : handler_args_t) (flowid : ℕ) : Offset :=
  HOST_ADDR args + BitVec.ofNat 64 (CORE_COUNT * PAGE_SIZE) + BitVec.ofNat 64 (flowid * SIZE_MSG)

/-- `none` is a handler that does not return. -/
def datatypes_hh (hdrs : slmp_pkt_hdr_t) (mem : HandlerMem) : Option (List Op × HandlerMem) :=
  if !SYN (ntohs hdrs.slmp_hdr.flags) then none else some ([], mem)

/-- The call of the interpreter issues the transfers; then comes the acknowledgement. -/
def datatypes_ph (fuel : ℕ) (args : handler_args_t) (hdrs : slmp_pkt_hdr_t) (mem : HandlerMem) :
    Option (List Op × HandlerMem) :=
  let slmp_pld := args.task.pkt_mem + BitVec.ofNat 32 sizeof_slmp_pkt_hdr_t
  let slmp_pld_len := (SLMP_PAYLOAD_LEN hdrs).setWidth 16
  let flags := ntohs hdrs.slmp_hdr.flags
  let pkt_off := ntohl hdrs.slmp_hdr.pkt_off
  let flowid := args.task.flow_id.toNat
  let stream_start_offset := pkt_off
  let stream_end_offset := stream_start_offset + slmp_pld_len.setWidth 32
  (spin_segment_manipulate fuel (mem.state flowid) stream_start_offset.toNat
      stream_end_offset.toNat (some ⟨slmp_pld.toNat, userbuf args flowid⟩)).map fun r =>
    (acked (r.issued.map Dma.command) (SYN flags) hdrs args.task,
      { mem with state := update mem.state flowid r.segment })

/-- The host is told the flow, in the field for a length. -/
def datatypes_th (args : handler_args_t) (hdrs : slmp_pkt_hdr_t) (padding : BitVec 8)
    (mem : HandlerMem) : Option (List Op × HandlerMem) :=
  if !EOM (ntohs hdrs.slmp_hdr.flags) then none
  else
    let (ops, dma_idx) := fpspin_host_req args args.task.flow_id padding mem.dma_idx
    some (ops, { mem with dma_idx := dma_idx })

/-! ## Flows -/

/-- A message of `instances` instances of a datatype, and the packets that it is sent in:
each holds whole elements. Only if the segment can be set back in the middle of a message
may they come in any order. -/
structure Flow where
  handle : Handle
  instances : ℕ
  data : List Byte
  count : ℕ
  packet : ℕ → Packet
  reorder : Bool
  committed : handle.Committed instances
  size : (handle.dlp instances).size = data.length
  bound : data.length < 2 ^ 32
  nonempty : ∀ i < count, 0 < (packet i).payload.length
  slice : ∀ i < count, ∀ k < (packet i).payload.length, (packet i).off + k < data.length ∧
    (packet i).payload.getD k 0 = data.getD ((packet i).off + k) 0
  boundary : ∀ i < count, Boundary (handle.dlp instances) (packet i).off ∧
    Boundary (handle.dlp instances) ((packet i).off + (packet i).payload.length)
  sorted : ∀ i j, i < j → j < count → (packet i).off + (packet i).payload.length ≤ (packet j).off
  cover : ∀ k < data.length, ∃ i < count,
    (packet i).off ≤ k ∧ k < (packet i).off + (packet i).payload.length
  syn : SYN (packet 0).flags = true
  eom : EOM (packet (count - 1)).flags = true
  resettable : reorder = true → Resettable (handle.dlp instances)

/-- The dataloop of the whole message. -/
def Flow.dlp (v : Flow) : Dataloop := v.handle.dlp v.instances

/-- The places of the bytes of the message, in their order. -/
def Flow.places (v : Flow) : List Offset :=
  addresses ((List.range v.instances).flatMap fun i =>
    v.handle.typemap (BitVec.ofNat 64 i * v.handle.extent))

/-- The handlers of all flows. -/
inductive FlowTask
  | hh (flow : ℕ)
  | ph (flow i : ℕ)
  | th (flow : ℕ)
  deriving DecidableEq

/-- The flows that the handlers serve, for one host. `fuel` bounds the trips of the
interpreter, which none of its calls uses up. -/
structure Flows where
  flows : ℕ
  flow : ℕ → Flow
  host_mem_high : BitVec 32
  host_mem_low : BitVec 32
  hpu_gid : FlowTask → BitVec 32
  hpu_id : FlowTask → BitVec 32
  padding : BitVec 8
  fuel : ℕ → ℕ
  enough : ∀ f, (flow f).dlp.turns < fuel f

namespace Flows

variable (w : Flows)

/-- The packet that a handler is given. -/
def packet : FlowTask → Packet
  | .hh f => (w.flow f).packet 0
  | .ph f i => (w.flow f).packet i
  | .th f => (w.flow f).packet ((w.flow f).count - 1)

def flow_id : FlowTask → ℕ
  | .hh f => f
  | .ph f _ => f
  | .th f => f

def args (t : FlowTask) (pkt_mem : BitVec 32) : handler_args_t where
  task := ⟨pkt_mem, w.host_mem_high, w.host_mem_low, BitVec.ofNat 32 (flow_id t)⟩
  hpu_gid := w.hpu_gid t
  hpu_id := w.hpu_id t

/-- A handler that does not return is taken to do nothing; no handler of a flow that keeps to
its fields is one. -/
def handler (t : FlowTask) (mem : HandlerMem) (pkt_mem : BitVec 32) : List Op × HandlerMem :=
  let args := w.args t pkt_mem
  let hdrs := (w.packet t).hdrs
  let result := match t with
    | .hh _ => datatypes_hh hdrs mem
    | .ph f _ => datatypes_ph (w.fuel f) args hdrs mem
    | .th _ => datatypes_th args hdrs w.padding mem
  result.getD ([], mem)

/-- The handler has nothing left to do, and the acknowledgement is on its way. -/
def Returned : Status → Prop
  | .waiting => False
  | .running _ ops pc => pc = ops.length
  | .done _ _ => True

/-- A packet is sent when those before it have been acknowledged; of a flow that may be
reordered, when no other is being worked on. -/
def turn (status : FlowTask → Status) : FlowTask → Prop
  | .hh f => f < w.flows
  | .ph f i => f < w.flows ∧ i < (w.flow f).count ∧ (∃ a ops, status (.hh f) = .done a ops) ∧
      ∀ j < (w.flow f).count, j ≠ i → Returned (status (.ph f j)) ∨
        status (.ph f j) = .waiting ∧ (i < j ∨ (w.flow f).reorder = true)
  | .th f => f < w.flows ∧ ∀ i < (w.flow f).count, ∃ a ops, status (.ph f i) = .done a ops

/-- No task runs on the HPU of `t`. -/
def Idle (status : FlowTask → Status) (t : FlowTask) : Prop :=
  ∀ u a ops pc, status u = .running a ops pc → w.hpu_gid t ≠ w.hpu_gid u

/-- `HOST_ADDR`, the same for all handlers. -/
def host_addr : BitVec 64 := HOST_ADDR (w.args (.hh 0) 0)

/-- An HPU runs one task at a time, and the host looks for its flag at the start of its
page. -/
def config : Config FlowTask HandlerMem where
  packet t := (w.packet t).bytes
  ready status t := w.turn status t ∧ w.Idle status t
  handler := w.handler
  flag_addr gid := w.host_addr + BitVec.ofNat 64 (gid.toNat * PAGE_SIZE)

/-- Where byte `k` of the message of flow `f` goes. -/
def place (f k : ℕ) : BitVec 64 :=
  w.host_addr + BitVec.ofNat 64 (CORE_COUNT * PAGE_SIZE) + BitVec.ofNat 64 (f * SIZE_MSG)
    + (w.flow f).places.getD k 0

end Flows

end Pspin.Datatypes
