/-
`fifo_engine`: `NUM_FIFO` queues in one cell memory.

Every queue is a linked list of cells. A cell holds the successor and a mark for
the last one, the element itself lies in an SRAM at the same index. The first
`NUM_CELLS` cells are shared by all queues, the ones above are the static cells:
a queue that uses fewer than `NUM_STATIC_CELLS_PER_FIFO` of them takes one of
these, whichever is free.

`free_cells_q` reads the other way round than its name: a set bit is a cell in use.

This file is the translation. What the registers represent is in `FifoRefine`.
-/
import Mathlib.Data.Nat.Log
import Pspin.Counter
import Pspin.Lzc
import Pspin.Segment
import Pspin.TcSram

set_option autoImplicit false

namespace Pspin.FifoEngine

/-- The parameters, none of them zero: `lzc` rejects a vector without bits. -/
structure Params where
  NUM_CELLS : ℕ
  NUM_FIFO : ℕ
  NUM_STATIC_CELLS_PER_FIFO : ℕ
  cells_pos : 0 < NUM_CELLS
  fifo_pos : 0 < NUM_FIFO
  static_pos : 0 < NUM_STATIC_CELLS_PER_FIFO

namespace Params

instance (p : Params) : NeZero p.NUM_FIFO := ⟨p.fifo_pos.ne'⟩

/-- Cells that are kept for the queues. -/
def TOT_STATIC_CELLS (p : Params) : ℕ := p.NUM_STATIC_CELLS_PER_FIFO * p.NUM_FIFO

/-- All cells: the dynamic ones first, then the static ones. -/
def TOT_CELLS (p : Params) : ℕ := p.TOT_STATIC_CELLS + p.NUM_CELLS

/-- Bits of `cell_id_t`. -/
def cell_id_w (p : Params) : ℕ := Nat.clog 2 p.TOT_CELLS

/-- Bits of an entry of `fifo_static_occup_q`. -/
def occup_w (p : Params) : ℕ := Nat.clog 2 p.NUM_STATIC_CELLS_PER_FIFO + 1

end Params

/-- A cell names the next one of its queue. -/
structure cell_t where
  next : ℕ
  is_last : Bool
deriving DecidableEq, Repr, Inhabited

/-- The registers and the element memory. Vectors of cells are functions of the
cell index, read below `TOT_CELLS` only. -/
structure State (p : Params) (elem_t : Type*) where
  cells_q : ℕ → cell_t
  free_cells_q : ℕ → Bool
  fifo_head_q : Fin p.NUM_FIFO → ℕ
  fifo_last_q : Fin p.NUM_FIFO → ℕ
  fifo_empty_q : Fin p.NUM_FIFO → Bool
  fifo_static_occup_q : Fin p.NUM_FIFO → ℕ
  i_fifo_data : TcSram.State ℕ elem_t

/-- The input ports in one cycle: at most one push and one pop. -/
structure Input (p : Params) (elem_t : Type*) where
  new_el_i : elem_t
  push_i : Bool
  fifo_push_id_i : Fin p.NUM_FIFO
  pop_i : Bool
  fifo_pop_id_i : Fin p.NUM_FIFO

variable {p : Params} {elem_t : Type*}

/-- The reset values; the SRAM comes up with whatever it holds. -/
def reset (p : Params) (sram : TcSram.State ℕ elem_t) : State p elem_t where
  cells_q := fun _ => ⟨0, false⟩
  free_cells_q := fun _ => false
  fifo_head_q := fun _ => 0
  fifo_last_q := fun _ => 0
  fifo_empty_q := fun _ => true
  fifo_static_occup_q := fun _ => 0
  i_fifo_data := sram

/-! ## Free cells -/

/-- `i_lzc_dynamic_free_slots` looks at the cells below `NUM_CELLS`. -/
def free_dynamic_cell_idx (s : State p elem_t) : ℕ :=
  Lzc.cnt_o p.NUM_CELLS (fun k => !s.free_cells_q k)

/-- All dynamic cells are in use. -/
def no_free_dynamic_cells (s : State p elem_t) : Bool :=
  Lzc.empty_o p.NUM_CELLS (fun k => !s.free_cells_q k)

/-- `i_lzc_static_free_slots` looks at the cells from `NUM_CELLS` on. -/
def free_static_cell_idx_lzc (s : State p elem_t) : ℕ :=
  Lzc.cnt_o p.TOT_STATIC_CELLS (fun k => !s.free_cells_q (p.NUM_CELLS + k))

/-- The first static cell that is free. Static cells are not tied to a queue; only their number per
queue is limited. -/
def free_static_cell_idx (s : State p elem_t) : ℕ :=
  (free_static_cell_idx_lzc s + p.NUM_CELLS) % 2 ^ p.cell_id_w

/-! ## Outputs -/

def empty_o (s : State p elem_t) : Bool :=
  (List.range p.TOT_CELLS).all (fun c => !s.free_cells_q c)

/-- A queue is full when its static cells are used up and no dynamic one is free. -/
def fifo_full_o (s : State p elem_t) (i : Fin p.NUM_FIFO) : Bool :=
  no_free_dynamic_cells s && s.fifo_static_occup_q i == p.NUM_STATIC_CELLS_PER_FIFO

/-- The element of the last pop, a cycle later. -/
def data_o (s : State p elem_t) : elem_t := TcSram.rdata_o s.i_fifo_data

/-! ## Occupation -/

/-- A push takes a static cell as long as its queue has one left. -/
def pushing_to_static (s : State p elem_t) (fifo_push_id_i : Fin p.NUM_FIFO) : Bool :=
  s.fifo_static_occup_q fifo_push_id_i < p.NUM_STATIC_CELLS_PER_FIFO

def push_cell_idx (s : State p elem_t) (fifo_push_id_i : Fin p.NUM_FIFO) : ℕ :=
  if pushing_to_static s fifo_push_id_i then free_static_cell_idx s else free_dynamic_cell_idx s

/-- The cell of the pop: the head of its queue. -/
def pop_cell_idx (s : State p elem_t) (fifo_pop_id_i : Fin p.NUM_FIFO) : ℕ :=
  s.fifo_head_q fifo_pop_id_i

/-- That cell is a static one. -/
def popping_from_static (s : State p elem_t) (fifo_pop_id_i : Fin p.NUM_FIFO) : Bool :=
  p.NUM_CELLS ≤ s.fifo_head_q fifo_pop_id_i

/-- The next bitmap. The pop is the later write, so a cell that is popped is free even where the
push found the same one. -/
def free_cells_d (s : State p elem_t) (i : Input p elem_t) : ℕ → Bool :=
  let pushed := if i.push_i then
    Function.update s.free_cells_q (push_cell_idx s i.fifo_push_id_i) true else s.free_cells_q
  if i.pop_i then Function.update pushed (pop_cell_idx s i.fifo_pop_id_i) false else pushed

/-- The next occupation. A push and a pop at one queue cancel out where both are of one kind. -/
def fifo_static_occup_d (s : State p elem_t) (i : Input p elem_t) : Fin p.NUM_FIFO → ℕ :=
  let q := s.fifo_static_occup_q
  if i.push_i && i.pop_i && i.fifo_push_id_i == i.fifo_pop_id_i then
    -- pushing to and popping from the same queue
    match pushing_to_static s i.fifo_push_id_i, popping_from_static s i.fifo_pop_id_i with
    | true, false => Function.update q i.fifo_push_id_i (Counter.inc p.occup_w (q i.fifo_push_id_i))
    | false, true => Function.update q i.fifo_push_id_i (Counter.dec p.occup_w (q i.fifo_push_id_i))
    | _, _ => q
  else
    let pushed := if i.push_i && pushing_to_static s i.fifo_push_id_i then
      Function.update q i.fifo_push_id_i (Counter.inc p.occup_w (q i.fifo_push_id_i)) else q
    if i.pop_i && popping_from_static s i.fifo_pop_id_i then
      Function.update pushed i.fifo_pop_id_i (Counter.dec p.occup_w (q i.fifo_pop_id_i)) else pushed

/-! ## Pointers -/

/-- A push and a pop on a queue of one element: the new cell replaces the old one. -/
def replacing (s : State p elem_t) (i : Input p elem_t) : Bool :=
  i.push_i && i.pop_i && i.fifo_push_id_i == i.fifo_pop_id_i
    && (s.cells_q (s.fifo_head_q i.fifo_push_id_i)).is_last

/-- The last cell of a queue is the one of its last push. -/
def fifo_last_d (s : State p elem_t) (i : Input p elem_t) : Fin p.NUM_FIFO → ℕ :=
  if i.push_i then
    Function.update s.fifo_last_q i.fifo_push_id_i (push_cell_idx s i.fifo_push_id_i)
  else s.fifo_last_q

/-- The next heads. Where the only cell of a queue is replaced in one cycle the new one becomes the
head. -/
def fifo_head_d (s : State p elem_t) (i : Input p elem_t) : Fin p.NUM_FIFO → ℕ :=
  let c := push_cell_idx s i.fifo_push_id_i
  if replacing s i then Function.update s.fifo_head_q i.fifo_pop_id_i c
  else
    let pushed := if i.push_i && s.fifo_empty_q i.fifo_push_id_i then
      Function.update s.fifo_head_q i.fifo_push_id_i c else s.fifo_head_q
    if i.pop_i then
      Function.update pushed i.fifo_pop_id_i (s.cells_q (s.fifo_head_q i.fifo_pop_id_i)).next
    else pushed

/-- The links: the new cell is marked as the last, and the last one before points to it. -/
def cells_d (s : State p elem_t) (i : Input p elem_t) : ℕ → cell_t :=
  let c := push_cell_idx s i.fifo_push_id_i
  let marked := Function.update s.cells_q c { s.cells_q c with is_last := true }
  if replacing s i then marked
  else if i.push_i then
    if s.fifo_empty_q i.fifo_push_id_i then marked
    else Function.update marked (s.fifo_last_q i.fifo_push_id_i) ⟨c, false⟩
  else s.cells_q

/-- Which queues are empty. -/
def fifo_empty_d (s : State p elem_t) (i : Input p elem_t) : Fin p.NUM_FIFO → Bool :=
  if replacing s i then s.fifo_empty_q
  else
    let pushed := if i.push_i && s.fifo_empty_q i.fifo_push_id_i then
      Function.update s.fifo_empty_q i.fifo_push_id_i false else s.fifo_empty_q
    if i.pop_i then
      Function.update pushed i.fifo_pop_id_i (s.cells_q (s.fifo_head_q i.fifo_pop_id_i)).is_last
    else pushed

/-- The SRAM ports: a push writes its cell, the pop cell is read in every cycle. -/
def sram_input (s : State p elem_t) (i : Input p elem_t) : TcSram.Input ℕ elem_t where
  wreq := i.push_i
  waddr := push_cell_idx s i.fifo_push_id_i
  wdata := i.new_el_i
  rreq := true
  raddr := pop_cell_idx s i.fifo_pop_id_i

def step (s : State p elem_t) (i : Input p elem_t) : State p elem_t where
  cells_q := cells_d s i
  free_cells_q := free_cells_d s i
  fifo_head_q := fifo_head_d s i
  fifo_last_q := fifo_last_d s i
  fifo_empty_q := fifo_empty_d s i
  fifo_static_occup_q := fifo_static_occup_d s i
  i_fifo_data := TcSram.step s.i_fifo_data (sram_input s i)

/-! ## Reading the queues back -/

def next_of (s : State p elem_t) (c : ℕ) : ℕ := (s.cells_q c).next

def is_last_of (s : State p elem_t) (c : ℕ) : Bool := (s.cells_q c).is_last

/-- The cells of a queue, oldest first. -/
def fifo_cells (s : State p elem_t) (i : Fin p.NUM_FIFO) : List ℕ :=
  if s.fifo_empty_q i then []
  else Segment.walk (next_of s) (is_last_of s) p.TOT_CELLS (s.fifo_head_q i)

/-- The elements of a queue, oldest first. -/
def fifo_elems (s : State p elem_t) (i : Fin p.NUM_FIFO) : List elem_t :=
  (fifo_cells s i).map s.i_fifo_data.sram

end Pspin.FifoEngine
