/-
`axi_dma_data_path`: from the R channel through the realignment buffer to the W channel.

The buffer has one FIFO for each lane of the bus. A read beat is rotated onto the lanes of its
destination and pushed there; a write beat takes a byte from each lane that it strobes. Masks
leave out what is before the first and behind the last byte of a burst.
-/
import Pspin.AxiIncr
import Pspin.DmaReshaper
import Pspin.FifoV3

set_option autoImplicit false

namespace Pspin.AxiDma

/-- The buffer has a FIFO for each byte lane. -/
abbrev Byte := BitVec 8

namespace DataPath

/-- The registers of the data path: the lanes, and where the bursts of both sides stand. -/
structure State where
  fifo_buffer : ℕ → FifoV3.State Byte
  is_first_r : Bool
  w_cnt_valid_q : Bool
  w_num_beats_q : ℕ

/-- The R channel, the descriptors of the bursts that are due, and the ready of the W
channel. `r_dp_valid_i` says whether there is a descriptor for the read side. -/
structure Input where
  r_dp_valid_i : Bool
  r_data_i : ℕ → Byte
  r_valid_i : Bool
  r_last_i : Bool
  r_desc : desc_r_t
  w_desc : desc_w_t
  w_ready_i : Bool

variable (c : Cfg)

def reset : State := ⟨fun _ => FifoV3.reset 0, true, false, 0⟩

/-! ## Masks -/

/-- In the first beat the lanes before the offset do not belong to the burst. -/
def first_mask (offset lane : ℕ) : Bool := decide (offset ≤ lane)

/-- `'1 >> (StrbWidth - tailer)`. -/
def last_mask (tailer lane : ℕ) : Bool := decide (lane < c.StrbWidth - (c.StrbWidth - tailer))

/-- The lanes of a read beat that belong to the burst, by the lanes of the bus. -/
def read_aligned_in_mask (s : State) (i : Input) (lane : ℕ) : Bool :=
  (if s.is_first_r then first_mask i.r_desc.offset lane else true) &&
    (if i.r_desc.tailer ≠ 0 then if i.r_last_i then last_mask c i.r_desc.tailer lane else true else true)

/-- The barrel shifter, for the data and for the mask. -/
def buffer_in (i : Input) (lane : ℕ) : Byte := i.r_data_i ((lane + i.r_desc.shift) % c.StrbWidth)

/-- The same by the lanes of the buffer, which are those of the write side. -/
def in_mask (s : State) (i : Input) (lane : ℕ) : Bool :=
  read_aligned_in_mask c s i ((lane + i.r_desc.shift) % c.StrbWidth)

/-! ## Read control -/

def buffer_full (s : State) (lane : ℕ) : Bool := FifoV3.full_o c.BufferDepth (s.fifo_buffer lane)

/-- A beat is taken whole: one lane without room holds it back. -/
def full (s : State) (i : Input) : Bool :=
  decide (∃ lane < c.StrbWidth, buffer_full c s lane = true ∧ in_mask c s i lane = true)

def r_ready_o (s : State) (i : Input) : Bool := !full c s i

def push (s : State) (i : Input) : Bool := i.r_valid_i && !full c s i

def buffer_push (s : State) (i : Input) (lane : ℕ) : Bool := push c s i && in_mask c s i lane

/-- The burst of the read side is done with its last beat. -/
def r_dp_ready_o (s : State) (i : Input) : Bool :=
  i.r_dp_valid_i && i.r_last_i && i.r_valid_i && !full c s i

/-- The next beat is the first of a burst. -/
def is_first_r_d (s : State) (i : Input) : Bool :=
  if i.r_valid_i && !i.r_last_i then false
  else if i.r_last_i && i.r_valid_i then true
  else s.is_first_r

/-! ## Write control -/

def buffer_empty (s : State) (lane : ℕ) : Bool := FifoV3.empty_o (s.fifo_buffer lane)

def buffer_clean (s : State) : Bool := decide (∀ lane < c.StrbWidth, buffer_empty s lane = true)

/-- All lanes of a mask have a byte. -/
def available (s : State) (mask : ℕ → Bool) : Bool :=
  decide (∀ lane < c.StrbWidth, mask lane = true → buffer_empty s lane = false) && !buffer_clean c s

/-- The lanes of the first beat have their bytes. -/
def first_possible (s : State) (i : Input) : Bool := available c s (first_mask i.w_desc.offset)

/-- The beat is the first of its burst. -/
def is_first_w (s : State) (i : Input) : Bool :=
  if i.w_desc.is_single then true else first_possible c s i && !s.w_cnt_valid_q

def is_last_w (s : State) (i : Input) : Bool :=
  if i.w_desc.is_single then true else s.w_cnt_valid_q && s.w_num_beats_q == 1

/-- The lanes of a write beat that belong to the burst: its strobe. -/
def out_mask (s : State) (i : Input) (lane : ℕ) : Bool :=
  (if is_first_w c s i then first_mask i.w_desc.offset lane else true) &&
    (if i.w_desc.tailer ≠ 0 then if is_last_w s i then last_mask c i.w_desc.tailer lane else true else true)

/-- All of them have their bytes. -/
def ready_to_write (s : State) (i : Input) : Bool := available c s (out_mask c s i)

def write_happening (s : State) (i : Input) : Bool := ready_to_write c s i && i.w_ready_i

def buffer_pop (s : State) (i : Input) (lane : ℕ) : Bool := write_happening c s i && out_mask c s i lane

/-- A beat is offered only when it is complete, so a burst never stalls the bus half way. -/
def w_valid_o (s : State) (i : Input) : Bool := ready_to_write c s i

/-- The beat on the W channel while `w_valid_o`. -/
def w_beat (s : State) (i : Input) : AxiIncr.WBeat Byte where
  data := fun lane => if out_mask c s i lane then FifoV3.data_o (s.fifo_buffer lane) else 0
  strb := out_mask c s i
  last := is_last_w s i

/-- The burst of the write side is done with its last beat. -/
def w_dp_ready_o (s : State) (i : Input) : Bool := is_last_w s i && write_happening c s i

/-- Beats of the burst that are still to come. -/
def w_num_beats_d (s : State) (i : Input) : ℕ :=
  if i.w_desc.is_single then s.w_num_beats_q
  else if s.w_cnt_valid_q && write_happening c s i then (s.w_num_beats_q + 2 ^ 8 - 1) % 2 ^ 8
  else if is_first_w c s i && write_happening c s i then i.w_desc.num_beats
  else s.w_num_beats_q

/-- Whether the burst has had its first beat. -/
def w_cnt_valid_d (s : State) (i : Input) : Bool :=
  if i.w_desc.is_single then s.w_cnt_valid_q
  else if is_last_w s i && write_happening c s i then false
  else if is_first_w c s i && write_happening c s i then true
  else s.w_cnt_valid_q

/-! ## A clock edge -/

def fifo_input (s : State) (i : Input) (lane : ℕ) : FifoV3.Input Byte where
  data_i := buffer_in c i lane
  push_i := buffer_push c s i lane
  pop_i := buffer_pop c s i lane

def step (s : State) (i : Input) : State where
  fifo_buffer := fun lane => FifoV3.step c.BufferDepth (s.fifo_buffer lane) (fifo_input c s i lane)
  is_first_r := if i.r_valid_i && r_ready_o c s i then is_first_r_d s i else s.is_first_r
  w_cnt_valid_q := w_cnt_valid_d c s i
  w_num_beats_q := w_num_beats_d c s i

end DataPath

end Pspin.AxiDma
