/-
`axi_dma_burst_reshaper`: from 1D transfers to bursts that AXI allows.

It holds one transfer, and what is left of it on the read side and on the write side. Each
side offers the burst up to the end of its page; if the two are coupled, both stop at the end
of whichever page comes first. The next transfer is taken with the last bursts of this one.
-/
import Mathlib.Algebra.Order.Ring.Nat
import Mathlib.Data.Nat.Log
import Mathlib.Tactic.Common

set_option autoImplicit false

namespace Pspin.AxiDma

/-- The parameters of the engine, with `OffsetWidth` for the data width. -/
structure Cfg where
  OffsetWidth : ℕ
  AddrWidth : ℕ
  TransFifoDepth : ℕ
  AxReqFifoDepth : ℕ
  BufferDepth : ℕ

namespace Cfg

variable (c : Cfg)

/-- The bytes of the bus. -/
def StrbWidth : ℕ := 2 ^ c.OffsetWidth

/-- Bursts do not cross these pages: 4 KiB, or what 256 beats of a narrow bus hold. -/
def PageSize : ℕ := if 256 * c.StrbWidth > 4096 then 4096 else 256 * c.StrbWidth

/-- Bits of an address inside a page. -/
def PageAddrWidth : ℕ := Nat.clog 2 c.PageSize

end Cfg

/-- The burst types of AXI. -/
inductive burst_t
  | BURST_FIXED
  | BURST_INCR
  | BURST_WRAP
deriving DecidableEq

/-- A 1D transfer. -/
structure burst_req_t where
  id : ℕ
  src : ℕ
  dst : ℕ
  num_bytes : ℕ
  cache_src : ℕ
  cache_dst : ℕ
  burst_src : burst_t
  burst_dst : burst_t
  decouple_rw : Bool
  deburst : Bool
  serialize : Bool

/-- What is left of a transfer on one side. -/
structure burst_chan_t where
  id : ℕ
  addr : ℕ
  num_bytes : ℕ
  cache : ℕ
  burst : burst_t
  valid : Bool

/-- The transfer in the reshaper: both sides with what is left of them. -/
structure burst_decoupled_t where
  src : burst_chan_t
  dst : burst_chan_t
  shift : ℕ
  decouple_rw : Bool
  deburst : Bool

/-- A descriptor of the address channels. -/
structure desc_ax_t where
  id : ℕ
  last : Bool
  addr : ℕ
  len : ℕ
  size : ℕ
  burst : burst_t
  cache : ℕ

/-- What the read side of the data path is told of a burst. -/
structure desc_r_t where
  offset : ℕ
  tailer : ℕ
  shift : ℕ

structure desc_w_t where
  offset : ℕ
  tailer : ℕ
  num_beats : ℕ
  is_single : Bool

/-- A side with nothing to do. -/
def burst_chan_t.zero : burst_chan_t := ⟨0, 0, 0, 0, .BURST_FIXED, false⟩

namespace Reshaper

variable (c : Cfg)

/-- After reset no transfer is under way. -/
def reset : burst_decoupled_t := ⟨.zero, .zero, 0, false, false⟩

/-! ## Page boundary check -/

/-- `r_num_bytes_to_pb` and `w_num_bytes_to_pb`: up to the end of the page, or of the bus
where a transfer is cut into single beats. -/
def num_bytes_to_pb (deburst : Bool) (addr : ℕ) : ℕ :=
  if deburst then (c.StrbWidth - addr % c.StrbWidth) % (2 * c.StrbWidth) % 2 ^ (c.PageAddrWidth + 1)
  else (c.PageSize - addr % c.PageSize) % 2 ^ (c.PageAddrWidth + 1)

/-- Bytes to the end of the page on the read side. -/
def r_num_bytes_to_pb (q : burst_decoupled_t) : ℕ := num_bytes_to_pb c q.deburst q.src.addr

def w_num_bytes_to_pb (q : burst_decoupled_t) : ℕ := num_bytes_to_pb c q.deburst q.dst.addr

def c_num_bytes_to_pb (q : burst_decoupled_t) : ℕ :=
  if r_num_bytes_to_pb c q > w_num_bytes_to_pb c q then w_num_bytes_to_pb c q else r_num_bytes_to_pb c q

/-- Sides that are not decoupled are cut alike. -/
def r_num_bytes_possible (q : burst_decoupled_t) : ℕ :=
  if q.decouple_rw then r_num_bytes_to_pb c q else c_num_bytes_to_pb c q

/-- The same for the write side. -/
def w_num_bytes_possible (q : burst_decoupled_t) : ℕ :=
  if q.decouple_rw then w_num_bytes_to_pb c q else c_num_bytes_to_pb c q

/-! ## The bursts on offer -/

/-- A burst of one side: how long it is, whether it is the last one, and what is left. -/
structure Cut where
  num_bytes : ℕ
  finish : Bool
  rest : burst_chan_t

/-- The same on both sides. -/
def cut (chan : burst_chan_t) (num_bytes_possible : ℕ) : Cut :=
  if chan.num_bytes > num_bytes_possible then
    { num_bytes := num_bytes_possible
      finish := false
      rest := { chan with
        num_bytes := chan.num_bytes - num_bytes_possible
        addr := if chan.burst = .BURST_INCR then (chan.addr + num_bytes_possible) % 2 ^ c.AddrWidth
          else chan.addr } }
  else
    { num_bytes := chan.num_bytes % 2 ^ (c.PageAddrWidth + 1)
      finish := true
      rest := .zero }

/-- The cut of the read side. -/
def r_cut (q : burst_decoupled_t) : Cut := cut c q.src (r_num_bytes_possible c q)

def w_cut (q : burst_decoupled_t) : Cut := cut c q.dst (w_num_bytes_possible c q)

/-- The request of one side for its address channel. -/
def desc_ax (chan : burst_chan_t) (t : Cut) : desc_ax_t where
  id := chan.id
  last := t.finish
  addr := chan.addr / c.StrbWidth * c.StrbWidth
  len := (t.num_bytes + chan.addr % c.StrbWidth + 2 ^ 32 - 1) % 2 ^ 32 / c.StrbWidth % 2 ^ 8
  size := c.OffsetWidth
  burst := chan.burst
  cache := chan.cache

/-- `read_req_o.ar`. -/
def ar (q : burst_decoupled_t) : desc_ax_t := desc_ax c q.src (r_cut c q)

/-- `read_req_o.r`. -/
def r (q : burst_decoupled_t) : desc_r_t where
  offset := q.src.addr % c.StrbWidth
  tailer := ((r_cut c q).num_bytes + q.src.addr % c.StrbWidth) % c.StrbWidth
  shift := q.shift

/-- `write_req_o.aw`. -/
def aw (q : burst_decoupled_t) : desc_ax_t := desc_ax c q.dst (w_cut c q)

/-- `write_req_o.w`. -/
def w (q : burst_decoupled_t) : desc_w_t where
  offset := q.dst.addr % c.StrbWidth
  tailer := ((w_cut c q).num_bytes + q.dst.addr % c.StrbWidth) % c.StrbWidth
  num_beats := (aw c q).len
  is_single := decide ((aw c q).len = 0)

/-- The input ports in one cycle. -/
structure Input where
  burst_req_i : burst_req_t
  valid_i : Bool
  r_ready_i : Bool
  w_ready_i : Bool

/-- A chunk is offered; where the sides are coupled, only when the other side is ready too. -/
def r_valid_o (q : burst_decoupled_t) (i : Input) : Bool :=
  if q.decouple_rw then q.src.valid else q.src.valid && i.w_ready_i

/-- The same on the write side. -/
def w_valid_o (q : burst_decoupled_t) (i : Input) : Bool :=
  if q.decouple_rw then q.dst.valid else q.dst.valid && i.r_ready_i

/-- The next transfer is taken together with the last chunks of this one. -/
def ready_o (q : burst_decoupled_t) (i : Input) : Bool :=
  (r_cut c q).finish && (w_cut c q).finish && i.valid_i && i.r_ready_i && i.w_ready_i

/-! ## A clock edge -/

/-- A transfer that is taken, on both sides. One without bytes is discarded. -/
def refill (req : burst_req_t) (valid_i : Bool) : burst_decoupled_t where
  src := ⟨req.id, req.src, req.num_bytes, req.cache_src, req.burst_src,
    if req.num_bytes = 0 then false else valid_i⟩
  dst := ⟨req.id, req.dst, req.num_bytes, req.cache_dst, req.burst_dst,
    if req.num_bytes = 0 then false else valid_i⟩
  shift := (req.src % c.StrbWidth + c.StrbWidth - req.dst % c.StrbWidth) % c.StrbWidth
  decouple_rw := req.decouple_rw
  deburst := req.deburst

/-- The transfer after the cycle, if nothing holds it. -/
def burst_d (q : burst_decoupled_t) (i : Input) : burst_decoupled_t :=
  if ready_o c q i then refill c i.burst_req_i i.valid_i
  else { q with src := (r_cut c q).rest, dst := (w_cut c q).rest }

/-- The sides are stored apart only if they are decoupled. -/
def step (q : burst_decoupled_t) (i : Input) : burst_decoupled_t :=
  let d := burst_d c q i
  { shift := d.shift
    decouple_rw := d.decouple_rw
    deburst := d.deburst
    src := if (if d.decouple_rw then i.r_ready_i else i.r_ready_i && i.w_ready_i) then d.src else q.src
    dst := if (if d.decouple_rw then i.w_ready_i else i.w_ready_i && i.r_ready_i) then d.dst else q.dst }

end Reshaper

end Pspin.AxiDma
