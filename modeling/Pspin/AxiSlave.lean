/-
`AXISlave`: the slave side of an AXI port.

Ax beats wait in a queue each way. A data beat becomes a request for the bytes behind those
already received of its burst, `offset` bytes from the start address; with its last beat the
burst moves to the queue of those that want a response. A read is handed out beat by beat,
the start address of the first burst advancing by the bytes of a beat.

The channels of writes (AW, W, B) and those of reads (AR, R) share nothing, so they are kept
apart. A failing `assert` ends the simulation, so the functions that assert return `none`
there. The fields of an Ax beat that nobody reads are left out.
-/
import Pspin.AxiMaster

set_option autoImplicit false

namespace Pspin.AxiSlave

open AxiDriver (AXI_SW AXI_BURST_INCR axi_w_beat_t)
open AxiMaster (has_room)

def AXI_BURST_FIXED : BitVec 8 := 0

/-- The response without error. -/
def AXI_RESP_OKAY : BitVec 8 := 0

/-- An address beat as the slave keeps it, with what it has of the burst. -/
structure axi_ax_beat_t (AW : ℕ) extends AxiDriver.axi_ax_beat_t AW where
  ax_id : BitVec 8
  ax_user : BitVec 8
  /-- Bytes already received. -/
  offset : BitVec 32
deriving DecidableEq

structure axi_b_beat_t where
  b_resp : BitVec 8
  b_id : BitVec 8
  b_user : BitVec 8
deriving DecidableEq

structure axi_r_beat_t where
  r_resp : BitVec 8
  r_last : Bool
  r_id : BitVec 8
  r_user : BitVec 8
  r_data : Fin AXI_SW → BitVec 8

/-- A write beat with its address and its bytes, as it is handed to the memory. -/
structure w_beat_request_t (AW : ℕ) where
  addr : BitVec AW
  data_size : ℕ
  w_beat : axi_w_beat_t

/-- A read beat that is still to be filled. -/
structure r_beat_request_t (AW : ℕ) where
  addr : BitVec AW
  data_size : ℕ
  r_beat : axi_r_beat_t

/-- The channels of writes. A size of 0 makes a buffer unbounded. -/
structure Writes (AW : ℕ) where
  aw_beats_buffer_size : ℕ
  w_beats_buffer_size : ℕ
  b_beats_buffer_size : ℕ
  aw_beats : List (axi_ax_beat_t AW)
  b_beats : List axi_b_beat_t
  aw_pending_resp : List (axi_ax_beat_t AW)
  w_beat_requests : List (w_beat_request_t AW)
  b_wait : Bool
  aw_ready : Bool
  w_ready : Bool
  /-- The beat on the lines, while valid. -/
  b_valid : Option axi_b_beat_t

/-- The channels of reads. -/
structure Reads (AW : ℕ) where
  ar_beats_buffer_size : ℕ
  r_beats_buffer_size : ℕ
  ar_beats : List (axi_ax_beat_t AW)
  r_beats : List axi_r_beat_t
  r_wait : Bool
  ar_ready : Bool
  r_valid : Option axi_r_beat_t

variable {AW : ℕ}

/-! ## Writes -/

namespace Writes

variable (s : Writes AW)

/-- The buffer of the responses has room. -/
def can_send_b_beat : Bool := has_room s.b_beats_buffer_size s.b_beats.length

/-- The response to a burst. -/
def b_beat (aw : axi_ax_beat_t AW) : axi_b_beat_t := ⟨AXI_RESP_OKAY, aw.ax_id, aw.ax_user⟩

/-- The oldest burst is answered. -/
def send_b_beat : Option (Writes AW) :=
  match s.aw_pending_resp with
  | [] => none
  | aw :: rest =>
    if s.can_send_b_beat then
      some { s with b_beats := s.b_beats ++ [b_beat aw], aw_pending_resp := rest }
    else none

/-- The next data beat, where there is one. -/
def get_next_w_beat : Option (w_beat_request_t AW × Writes AW) :=
  match s.w_beat_requests with
  | [] => none
  | w :: rest => some (w, { s with w_beat_requests := rest })

/-- An address is buffered, if there is room. -/
def aw_posedge (aw_valid : Option (axi_ax_beat_t AW)) : Writes AW :=
  match aw_valid with
  | none => { s with aw_ready := false }
  | some aw =>
    if has_room s.aw_beats_buffer_size s.aw_beats.length then
      { s with aw_beats := s.aw_beats ++ [{ aw with offset := 0 }], aw_ready := true }
    else { s with aw_ready := false }

/-- `__builtin_popcount`. -/
def popcount {n : ℕ} (x : BitVec n) : ℕ := (List.range n).countP fun k => x.getLsbD k

/-- The bytes of a data beat: its strobes, counted in two halves. -/
def strobed (w_strb : BitVec AXI_SW) : ℕ :=
  let strb_low := w_strb.setWidth 32
  let strb_high := (w_strb >>> 32).setWidth 32
  popcount strb_low + popcount strb_high

/-- A data beat is buffered with the address of its burst. One without an address fails the
assertion. -/
def w_posedge (w_valid : Option axi_w_beat_t) : Option (Writes AW) :=
  match w_valid with
  | none => some { s with w_ready := false }
  | some w =>
    if has_room s.w_beats_buffer_size s.w_beat_requests.length then
      match s.aw_beats with
      | [] => none
      | aw :: rest =>
        let data_size := strobed w.w_strb
        let req : w_beat_request_t AW := ⟨aw.ax_addr + aw.offset.setWidth AW, data_size, w⟩
        let aw := { aw with offset := aw.offset + BitVec.ofNat 32 data_size }
        let s := { s with w_beat_requests := s.w_beat_requests ++ [req], w_ready := true }
        if w.w_last then
          some { s with aw_pending_resp := s.aw_pending_resp ++ [aw], aw_beats := rest }
        else some { s with aw_beats := aw :: rest }
    else some { s with w_ready := false }

/-- The next response is driven, unless the last one was not taken. -/
def b_posedge : Writes AW :=
  if s.b_wait then s
  else
    match s.b_beats with
    | [] => { s with b_valid := none }
    | b :: rest => { s with b_valid := some b, b_beats := rest }

def b_negedge (b_ready : Bool) : Writes AW := { s with b_wait := s.b_valid.isSome && !b_ready }

end Writes

/-! ## Reads -/

namespace Reads

variable (s : Reads AW)

/-- The buffer of the read beats has room. -/
def can_send_r_beat : Bool := has_room s.r_beats_buffer_size s.r_beats.length

/-- A read beat is answered. -/
def send_r_beat (beat : axi_r_beat_t) : Option (Reads AW) :=
  if s.can_send_r_beat then some { s with r_beats := s.r_beats ++ [beat] } else none

/-- A read beat can be asked for. -/
def has_r_beat : Bool := !s.ar_beats.isEmpty

/-- The next beat of the first read. Its data is not initialised: `r_data` is what the
storage happens to hold. -/
def get_next_r_beat (r_data : Fin AXI_SW → BitVec 8) : Option (r_beat_request_t AW × Reads AW) :=
  match s.ar_beats with
  | [] => none
  | ar :: rest =>
    let data_size := 2 ^ ar.ax_size.toNat
    let is_last := ar.ax_len == 0
    let req : r_beat_request_t AW :=
      ⟨ar.ax_addr, data_size, ⟨AXI_RESP_OKAY, is_last, ar.ax_id, ar.ax_user, r_data⟩⟩
    if ar.ax_burst = AXI_BURST_FIXED ∨ ar.ax_burst = AXI_BURST_INCR then
      let addr :=
        if ar.ax_burst = AXI_BURST_INCR then ar.ax_addr + BitVec.ofNat AW data_size else ar.ax_addr
      some (req, { s with ar_beats :=
        if is_last then rest else { ar with ax_addr := addr, ax_len := ar.ax_len - 1 } :: rest })
    else none

/-- An address is buffered, if there is room. -/
def ar_posedge (ar_valid : Option (axi_ax_beat_t AW)) : Reads AW :=
  match ar_valid with
  | none => { s with ar_ready := false }
  | some ar =>
    if has_room s.ar_beats_buffer_size s.ar_beats.length then
      { s with ar_beats := s.ar_beats ++ [{ ar with offset := 0 }], ar_ready := true }
    else { s with ar_ready := false }

/-- The next read beat is driven, unless the last one was not taken. -/
def r_posedge : Reads AW :=
  if s.r_wait then s
  else
    match s.r_beats with
    | [] => { s with r_valid := none }
    | r :: rest => { s with r_valid := some r, r_beats := rest }

def r_negedge (r_ready : Bool) : Reads AW := { s with r_wait := s.r_valid.isSome && !r_ready }

end Reads

end Pspin.AxiSlave
