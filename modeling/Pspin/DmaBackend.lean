/-
`axi_dma_backend` with `axi_dma_data_mover`: the DMA engine behind its AXI port.

Transfers wait in a FIFO in front of the reshaper. Each burst it makes goes into two FIFOs of
its side: one for the address channel, and one that tells the data path how to cut the data.
A response on the B channel ends a transfer if its burst was the last one.
-/
import Pspin.DmaDataPath
import Pspin.Sync

set_option autoImplicit false

namespace Pspin.AxiDma

/-- The registers of `axi_dma_backend`, with those of the reshaper, the data mover and the data
path. -/
structure State where
  i_burst_request_fifo : FifoV3.State burst_req_t
  in_flight_q : Bool
  burst_q : burst_decoupled_t
  i_fifo_ar_emitter : FifoV3.State desc_ax_t
  i_fifo_aw_emitter : FifoV3.State desc_ax_t
  i_fifo_r_emitter : FifoV3.State desc_r_t
  i_fifo_w_emitter : FifoV3.State desc_w_t
  i_last_transaction_queue : FifoV3.State Bool
  data_path : DataPath.State

/-- The request port, and what the other side of the AXI port shows. -/
structure Input where
  burst_req_i : burst_req_t
  valid_i : Bool
  ar_ready : Bool
  r_valid : Bool
  r_data : ℕ → Byte
  r_last : Bool
  aw_ready : Bool
  w_ready : Bool
  b_valid : Bool

/-- A descriptor after reset. -/
def desc_ax_t.zero : desc_ax_t := ⟨0, false, 0, 0, 0, .BURST_FIXED, 0⟩

/-- A transfer after reset. -/
def burst_req_t.zero : burst_req_t := ⟨0, 0, 0, 0, 0, 0, .BURST_FIXED, .BURST_FIXED, false, false, false⟩

def reset : State where
  i_burst_request_fifo := FifoV3.reset .zero
  in_flight_q := false
  burst_q := Reshaper.reset
  i_fifo_ar_emitter := FifoV3.reset .zero
  i_fifo_aw_emitter := FifoV3.reset .zero
  i_fifo_r_emitter := FifoV3.reset ⟨0, 0, 0⟩
  i_fifo_w_emitter := FifoV3.reset ⟨0, 0, 0, false⟩
  i_last_transaction_queue := FifoV3.reset false
  data_path := DataPath.reset

variable (c : Cfg)

/-! ## The data mover -/

/-- The data mover takes a chunk when both the address and the data FIFO have room. -/
def r_req_ready (s : State) : Bool :=
  !FifoV3.full_o c.AxReqFifoDepth s.i_fifo_ar_emitter && !FifoV3.full_o c.AxReqFifoDepth s.i_fifo_r_emitter

def w_req_ready (s : State) : Bool :=
  !FifoV3.full_o c.AxReqFifoDepth s.i_fifo_aw_emitter && !FifoV3.full_o c.AxReqFifoDepth s.i_fifo_w_emitter

/-- What the data path sees: the descriptors of the bursts whose data are moved now. -/
def data_path_input (s : State) (i : Input) : DataPath.Input where
  r_dp_valid_i := !FifoV3.empty_o s.i_fifo_r_emitter
  r_data_i := i.r_data
  r_valid_i := i.r_valid
  r_last_i := i.r_last
  r_desc := FifoV3.data_o s.i_fifo_r_emitter
  w_desc := FifoV3.data_o s.i_fifo_w_emitter
  w_ready_i := i.w_ready

/-- An address is offered as long as there is one. -/
def ar_valid (s : State) : Bool := !FifoV3.empty_o s.i_fifo_ar_emitter

/-- Likewise on the write side. Whether the queue of the marks has room is not looked at. -/
def aw_valid (s : State) : Bool := !FifoV3.empty_o s.i_fifo_aw_emitter

def ar_emitter_pop (s : State) (i : Input) : Bool := i.ar_ready && ar_valid s

/-- Likewise on the write side. -/
def aw_emitter_pop (s : State) (i : Input) : Bool := i.aw_ready && aw_valid s

def r_handshake (s : State) (i : Input) : Bool :=
  i.r_valid && DataPath.r_ready_o c s.data_path (data_path_input s i)

def w_handshake (s : State) (i : Input) : Bool :=
  DataPath.w_valid_o c s.data_path (data_path_input s i) && i.w_ready

/-- A transfer is reported with the response of its last burst. -/
def trans_complete_o (s : State) (i : Input) : Bool :=
  FifoV3.data_o s.i_last_transaction_queue && i.b_valid

/-- `DEPTH` of the queue of the last marks. -/
def Cfg.LastFifoDepth : ℕ := c.AxReqFifoDepth + c.BufferDepth + 1

/-! ## The reshaper -/

/-- The next transfer goes ahead at once, or if it asks for it, when the one before it is
complete. -/
def burst_valid (s : State) (i : Input) : Bool :=
  if (FifoV3.data_o s.i_burst_request_fifo).serialize then
    !FifoV3.empty_o s.i_burst_request_fifo && (!s.in_flight_q || trans_complete_o s i)
  else !FifoV3.empty_o s.i_burst_request_fifo

/-- What the reshaper sees: the next transfer, unless it has to wait. -/
def reshaper_input (s : State) (i : Input) : Reshaper.Input where
  burst_req_i := FifoV3.data_o s.i_burst_request_fifo
  valid_i := burst_valid s i
  r_ready_i := r_req_ready c s
  w_ready_i := w_req_ready c s

def burst_req_pop (s : State) (i : Input) : Bool := Reshaper.ready_o c s.burst_q (reshaper_input c s i)

/-- A chunk of it goes to the read side. -/
def r_req_push (s : State) (i : Input) : Bool :=
  Reshaper.r_valid_o s.burst_q (reshaper_input c s i) && r_req_ready c s

def w_req_push (s : State) (i : Input) : Bool :=
  Reshaper.w_valid_o s.burst_q (reshaper_input c s i) && w_req_ready c s

/-- Whether a transfer is in flight: set as one is taken, cleared as one is reported. -/
def in_flight_d (s : State) (i : Input) : Bool :=
  if burst_req_pop c s i && !FifoV3.empty_o s.i_burst_request_fifo then true
  else if trans_complete_o s i then false
  else s.in_flight_q

/-- A transfer is accepted while the queue has room. -/
def ready_o (s : State) : Bool := !FifoV3.full_o c.TransFifoDepth s.i_burst_request_fifo

/-! ## A clock edge -/

def step (s : State) (i : Input) : State where
  i_burst_request_fifo := FifoV3.step c.TransFifoDepth s.i_burst_request_fifo
    ⟨i.burst_req_i, i.valid_i && ready_o c s, burst_req_pop c s i⟩
  in_flight_q := in_flight_d c s i
  burst_q := Reshaper.step c s.burst_q (reshaper_input c s i)
  i_fifo_ar_emitter := FifoV3.step c.AxReqFifoDepth s.i_fifo_ar_emitter
    ⟨Reshaper.ar c s.burst_q, r_req_push c s i, ar_emitter_pop s i⟩
  i_fifo_aw_emitter := FifoV3.step c.AxReqFifoDepth s.i_fifo_aw_emitter
    ⟨Reshaper.aw c s.burst_q, w_req_push c s i, aw_emitter_pop s i⟩
  i_fifo_r_emitter := FifoV3.step c.AxReqFifoDepth s.i_fifo_r_emitter
    ⟨Reshaper.r c s.burst_q, r_req_push c s i, DataPath.r_dp_ready_o c s.data_path (data_path_input s i)⟩
  i_fifo_w_emitter := FifoV3.step c.AxReqFifoDepth s.i_fifo_w_emitter
    ⟨Reshaper.w c s.burst_q, w_req_push c s i, DataPath.w_dp_ready_o c s.data_path (data_path_input s i)⟩
  i_last_transaction_queue := FifoV3.step c.LastFifoDepth s.i_last_transaction_queue
    ⟨(FifoV3.data_o s.i_fifo_aw_emitter).last, aw_emitter_pop s i, i.b_valid⟩
  data_path := DataPath.step c s.data_path (data_path_input s i)

/-! ## The engine and what has passed its ports -/

/-- The transfers that were taken, and the handshakes of each channel of the AXI port: the
addresses, the number of read beats, the write beats and the number of responses. Last, the
number of transfers that were reported complete. -/
structure Sys where
  engine : State
  reqs : List burst_req_t
  ars : List desc_ax_t
  r_beats : ℕ
  aws : List desc_ax_t
  ws : List (AxiIncr.WBeat Byte)
  bs : ℕ
  completes : ℕ

/-- After reset nothing has passed the ports. -/
def Sys.init : Sys := ⟨reset, [], [], 0, [], [], 0, 0⟩

/-- A clock edge, which writes down what passes. -/
def Sys.step (s : Sys) (i : Input) : Sys where
  engine := AxiDma.step c s.engine i
  reqs := s.reqs ++ if i.valid_i && ready_o c s.engine then [i.burst_req_i] else []
  ars := s.ars ++ if ar_emitter_pop s.engine i then [FifoV3.data_o s.engine.i_fifo_ar_emitter] else []
  r_beats := s.r_beats + if r_handshake c s.engine i then 1 else 0
  aws := s.aws ++ if aw_emitter_pop s.engine i then [FifoV3.data_o s.engine.i_fifo_aw_emitter] else []
  ws := s.ws ++ if w_handshake c s.engine i then
    [DataPath.w_beat c s.engine.data_path (data_path_input s.engine i)] else []
  bs := s.bs + if i.b_valid then 1 else 0
  completes := s.completes + if trans_complete_o s.engine i then 1 else 0

/-- The burst that an address stands for. -/
def desc_ax_t.incr (d : desc_ax_t) : AxiIncr.Burst := ⟨d.addr, d.len, d.size⟩

/-- Bursts whose data are complete. -/
def Sys.sent (s : Sys) : ℕ := s.ws.countP AxiIncr.WBeat.last

end Pspin.AxiDma
