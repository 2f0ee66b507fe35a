/-
`datatypes/handlers/include/mpit_offloaded.h`: the interpreter of datatype descriptions
that the payload handler of `datatypes.c` runs on each packet.

A datatype is a tree of loops (`DLOOP_Dataloop`). `spin_segment_manipulate` walks over it
with a stack of loop states (`DLOOP_Segment`) that stays in memory between two calls, and
sends every run of payload bytes to its place in host memory with a DMA command.

The arrays of a loop are functions: the source reads one element past their end when a loop
is done, and what it reads there is never used. The `DDTASSERT`s are compiled out. Counts
are unsigned 64-bit numbers in the source; a well-formed datatype (`WellFormed`) has
positive ones that fit an `int`, so that no decrement and no index of the source wraps.
-/
import Mathlib.Data.BitVec
import Mathlib.Logic.Function.Basic

set_option autoImplicit false

open Function (update)

namespace Pspin.Datatypes

/-- `DLOOP_Offset`. A displacement may be negative, so it is added modulo `2 ^ 64`. -/
abbrev Offset := BitVec 64

/-- Sizes are of type `DLOOP_Offset` or `size_t`, 64 bits wide. -/
def wrap64 (n : ℕ) : ℕ := n % 2 ^ 64

/-- A bound that stands for the end of the message. -/
def SEGMENT_IGNORE_LAST : ℕ := 2 ^ 64 - 1

/-- The `loop_params` of the kinds that have one dataloop below them. -/
inductive LoopParams
  | c_t (count : ℕ)
  | v_t (count blocksize : ℕ) (stride : Offset)
  | bi_t (count blocksize : ℕ) (offset_array : ℕ → Offset)
  | i_t (count : ℕ) (blocksize_array : ℕ → ℕ) (offset_array : ℕ → Offset) (total_blocks : ℕ)

/-- `final` is a loop with `DLOOP_FINAL_MASK`: its elements are elementary types. -/
inductive Dataloop
  | final (loop_params : LoopParams) (el_size : ℕ) (el_extent : Offset)
  | branch (loop_params : LoopParams) (el_size : ℕ) (el_extent : Offset) (dataloop : Dataloop)
  | struct (count : ℕ) (blocksize_array : ℕ → ℕ) (offset_array el_extent_array : ℕ → Offset)
      (el_size : ℕ) (dataloop_array : ℕ → Dataloop)

namespace Dataloop

/-- The loop's elements are bytes, not loops. -/
def isFinal : Dataloop → Bool
  | final .. => true
  | _ => false

/-- Each block has a loop of its own. -/
def isStruct : Dataloop → Bool
  | struct .. => true
  | _ => false

def el_size : Dataloop → ℕ
  | final _ el_size _ => el_size
  | branch _ el_size _ _ => el_size
  | struct _ _ _ _ el_size _ => el_size

end Dataloop

/-- An element of the stack: where the walk stands in one loop. The `orig_` fields keep what the
element is set back to. -/
structure Stackelm where
  may_require_reloading : Bool
  curcount : ℕ
  curoffset : Offset
  curblock : ℕ
  orig_count : ℕ
  orig_offset : Offset
  orig_block : ℕ
  loop_p : Dataloop

/-- `cur_sp` is `none` for `-1`: the outermost loop is done. -/
structure Segment where
  stream_off : ℕ
  stackelm : ℕ → Stackelm
  cur_sp : Option ℕ

/-- `MPIT_m2m_params`: the payload in NIC memory and the buffer in host memory. -/
structure Params where
  streambuf : ℕ
  userbuf : Offset
  deriving DecidableEq

/-- One `spin_dma_to_host`. -/
structure Dma where
  dest : Offset
  source : ℕ
  size : ℕ
  deriving DecidableEq

/-! ## The stack elements -/

/-- The `orig_count` that `DLOOP_Stackelm_load` stores: a contig is one block. -/
def LoopParams.count : LoopParams → ℕ
  | .c_t _ => 1
  | .v_t count _ _ => count
  | .bi_t count _ _ => count
  | .i_t count _ _ _ => count

/-- Elements of block `i`. Only an indexed loop has blocks of different sizes. -/
def LoopParams.blocksize : LoopParams → ℕ → ℕ
  | .c_t count, _ => count
  | .v_t _ blocksize _, _ => blocksize
  | .bi_t _ blocksize _, _ => blocksize
  | .i_t _ blocksize_array _ _, i => blocksize_array i

/-- Right for vectors at their first block only. -/
def LoopParams.offset : LoopParams → ℕ → Offset
  | .c_t _, _ => 0
  | .v_t _ _ _, _ => 0
  | .bi_t _ _ offset_array, i => offset_array i
  | .i_t _ _ offset_array _, i => offset_array i

def Dataloop.count : Dataloop → ℕ
  | .final p _ _ => p.count
  | .branch p _ _ _ => p.count
  | .struct count .. => count

/-- Elements of its block `i`. -/
def Dataloop.blocksize : Dataloop → ℕ → ℕ
  | .final p _ _, i => p.blocksize i
  | .branch p _ _ _, i => p.blocksize i
  | .struct _ blocksize_array _ _ _ _, i => blocksize_array i

/-- And where that block begins. -/
def Dataloop.offset : Dataloop → ℕ → Offset
  | .final p _ _, i => p.offset i
  | .branch p _ _ _, i => p.offset i
  | .struct _ _ offset_array _ _ _, i => offset_array i

/-- The block size of the block in which the element stands. -/
def DLOOP_Stackelm_blocksize (elmp : Stackelm) : ℕ :=
  elmp.loop_p.blocksize (elmp.orig_count - elmp.curcount)

def DLOOP_Stackelm_offset (elmp : Stackelm) : Offset :=
  elmp.loop_p.offset (elmp.orig_count - elmp.curcount)

/-- The element is loaded with a loop. A struct is marked, so that what lies below it is loaded
again for every block. -/
def DLOOP_Stackelm_load (elmp : Stackelm) (dlp : Dataloop) (branch_flag : Bool) : Stackelm :=
  let elmp := { elmp with
    loop_p := dlp, orig_count := dlp.count,
    may_require_reloading := branch_flag || dlp.isStruct, curcount := dlp.count }
  { elmp with orig_block := DLOOP_Stackelm_blocksize elmp }

/-! ## One trip round the loop -/

/-- The local values of `spin_segment_manipulate`, and the commands it has issued. -/
structure Work where
  stackelm : ℕ → Stackelm
  cur_sp : ℕ
  stream_off : ℕ
  params : Option Params
  issued : List Dma

/-- How a trip ends: the loop goes on, or it is left; without a place on the stack the walk is
over. -/
inductive Trip
  | again (w : Work)
  | leave (w : Work) (cur_sp : Option ℕ)

def Work.elm (w : Work) : Stackelm := w.stackelm w.cur_sp

def Work.set (w : Work) (e : Stackelm) : Work :=
  { w with stackelm := update w.stackelm w.cur_sp e }

/-- `DLOOP_SEGMENT_POP_AND_MAYBE_EXIT` -/
def pop (w : Work) : Trip :=
  match w.cur_sp with
  | 0 => .leave w none
  | sp + 1 => .again { w with cur_sp := sp }

/-- Issue the DMA for `bytes` bytes and move `stream_off` on. Without `params` the walk
only moves on. -/
def transfer (w : Work) (curoffset : Offset) (bytes : ℕ) : Work :=
  let w := { w with stream_off := wrap64 (w.stream_off + bytes) }
  match w.params with
  | none => w
  | some p =>
    let ctg_size := bytes % 2 ^ 32
    { w with
      params := some { p with streambuf := p.streambuf + ctg_size }
      issued := w.issued ++ [⟨p.userbuf + curoffset, p.streambuf, ctg_size⟩] }

/-- The `while` that takes whole blocks off `myblocks`: what is left of `myblocks`, then
`curcount` and `curblock`. A block that is not empty lowers `myblocks`, so `fuel` need not
exceed it. -/
def takeBlocks (blocksize : ℕ → ℕ) (orig_count : ℕ) : ℕ → ℕ → ℕ → ℕ → ℕ × ℕ × ℕ
  | 0, myblocks, curcount, curblock => (myblocks, curcount, curblock)
  | fuel + 1, myblocks, curcount, curblock =>
    if 0 < myblocks ∧ curblock ≤ myblocks then
      takeBlocks blocksize orig_count fuel (myblocks - curblock) (curcount - 1)
        (blocksize (orig_count - (curcount - 1)))
    else (myblocks, curcount, curblock)

/-- `myblocks` elements are done, which is all of the block or more. -/
def finishBlocks (w : Work) (myblocks : ℕ) : Trip :=
  let e := w.elm
  let el := e.loop_p.el_size
  let finish : LoopParams → Trip
    | .i_t _ blocksize_array offset_array _ =>
      let (left, curcount, curblock) :=
        takeBlocks blocksize_array e.orig_count myblocks myblocks e.curcount e.curblock
      let e := { e with curcount := curcount, curblock := curblock }
      if curcount = 0 then pop (w.set e)
      else .again (w.set { e with
        orig_block := curblock, curblock := curblock - left
        curoffset := e.orig_offset + offset_array (e.orig_count - curcount)
          + BitVec.ofNat 64 (left * el) })
    | .v_t _ _ stride =>
      let curcount := e.curcount - myblocks / e.curblock
      if curcount = 0 then pop (w.set { e with curcount := curcount })
      else
        let curblock := e.orig_block - myblocks % e.curblock
        .again (w.set { e with
          curcount := curcount, curblock := curblock
          curoffset := e.orig_offset + BitVec.ofNat 64 (e.orig_count - curcount) * stride
            + BitVec.ofNat 64 ((e.orig_block - curblock) * el) })
    | .c_t _ => pop w
    | .bi_t _ _ offset_array =>
      let (left, curcount, curblock) :=
        takeBlocks (fun _ => e.orig_block) e.orig_count myblocks myblocks e.curcount e.curblock
      let e := { e with curcount := curcount, curblock := curblock }
      if curcount = 0 then pop (w.set e)
      else .again (w.set { e with
        curblock := curblock - left
        curoffset := e.orig_offset + offset_array (e.orig_count - curcount)
          + BitVec.ofNat 64 (left * el) })
  match e.loop_p with
  | .final p _ _ => finish p
  | .branch p _ _ _ => finish p
  | .struct .. => .again w

/-- What follows once `myblocks` is known: the transfer, then where the walk stands. -/
def doBlocks (w : Work) (myblocks : ℕ) : Trip :=
  let e := w.elm
  let w := transfer w e.curoffset (myblocks * e.loop_p.el_size)
  if myblocks = 0 then .leave w (some w.cur_sp)
  else if myblocks < e.curblock then
    .leave (w.set { e with
      curoffset := e.curoffset + BitVec.ofNat 64 (myblocks * e.loop_p.el_size)
      curblock := e.curblock - myblocks }) (some w.cur_sp)
  else finishBlocks w myblocks

/-- Enforce `last` by reducing `myblocks`. -/
def upTo (last : ℕ) (w : Work) (myblocks : ℕ) (go : ℕ → Trip) : Trip :=
  let el := w.elm.loop_p.el_size
  if last ≠ SEGMENT_IGNORE_LAST ∧ last < wrap64 (w.stream_off + myblocks * el) then
    let myblocks := wrap64 (last + 2 ^ 64 - w.stream_off) / el
    if myblocks = 0 then .leave w (some w.cur_sp) else go myblocks
  else go myblocks

/-- The trip at a loop of bytes: its block is handed over as far as `last` allows. -/
def leaf (last : ℕ) (w : Work) : Trip :=
  upTo last w w.elm.curblock (doBlocks w)

/-- For indexed loops and structs a new block has a new `orig_block`. -/
def Dataloop.newOrigBlock (d : Dataloop) (orig_block index : ℕ) : ℕ :=
  match d with
  | .final (.i_t _ blocksize_array _ _) _ _ => blocksize_array index
  | .branch (.i_t _ blocksize_array _ _) _ _ _ => blocksize_array index
  | .struct _ blocksize_array _ _ _ _ => blocksize_array index
  | _ => orig_block

/-- The block of a loop that is not final is used up. -/
def newBlock (w : Work) : Trip :=
  let e := w.elm
  let curcount := e.curcount - 1
  let orig_block :=
    e.loop_p.newOrigBlock e.orig_block (if curcount ≠ 0 then e.orig_count - curcount else 0)
  let w := w.set { e with
    curcount := curcount, orig_block := orig_block, curblock := orig_block }
  if curcount = 0 then pop w else .again w

/-- `orig_offset` of the element that is pushed on top of `e`. -/
def Stackelm.elementOffset (e : Stackelm) : Offset :=
  let count_index := e.orig_count - e.curcount
  let block_index := BitVec.ofNat 64 (e.orig_block - e.curblock)
  let inLoop (el_extent : Offset) : LoopParams → Offset
    | .c_t _ => e.curoffset + block_index * el_extent
    | .v_t _ _ stride =>
      e.orig_offset + BitVec.ofNat 64 count_index * stride + block_index * el_extent
    | .bi_t _ _ offset_array => e.orig_offset + block_index * el_extent + offset_array count_index
    | .i_t _ _ offset_array _ => e.orig_offset + block_index * el_extent + offset_array count_index
  match e.loop_p with
  | .final p _ el_extent => inLoop el_extent p
  | .branch p _ el_extent _ => inLoop el_extent p
  | .struct _ _ offset_array el_extent_array _ _ =>
    e.orig_offset + block_index * el_extent_array count_index + offset_array count_index

/-- The current values of a pushed element, from its original ones. -/
def Stackelm.start (e : Stackelm) : Stackelm :=
  let inLoop : LoopParams → Stackelm
    | .c_t _ => { e with
      curcount := e.orig_count, curblock := e.orig_block, curoffset := e.orig_offset }
    | .v_t _ _ _ => { e with
      curcount := e.orig_count, curblock := e.orig_block, curoffset := e.orig_offset }
    | .bi_t _ _ offset_array => { e with
      curcount := e.orig_count, curblock := e.orig_block
      curoffset := e.orig_offset + offset_array 0 }
    | .i_t _ blocksize_array offset_array _ => { e with
      curcount := e.orig_count, curblock := blocksize_array 0
      curoffset := e.orig_offset + offset_array 0 }
  match e.loop_p with
  | .final p _ _ => inLoop p
  | .branch p _ _ _ => inLoop p
  | .struct _ blocksize_array offset_array _ _ _ => { e with
    curcount := e.orig_count, curblock := blocksize_array 0
    curoffset := e.orig_offset + offset_array 0 }

/-- The element to push, reloaded if necessary. -/
def Work.next (w : Work) : Stackelm :=
  let e := w.elm
  let next := w.stackelm (w.cur_sp + 1)
  match e.may_require_reloading, e.loop_p with
  | true, .branch _ _ _ dataloop => DLOOP_Stackelm_load next dataloop true
  | true, .struct _ _ _ _ _ dataloop_array =>
    DLOOP_Stackelm_load next (dataloop_array (e.orig_count - e.curcount)) true
  | _, _ => next

/-- The trip at any other loop: the element below starts with the next block. -/
def push (w : Work) : Trip :=
  let e := w.elm
  let next := { w.next with orig_offset := e.elementOffset }.start
  let w := w.set { e with curblock := e.curblock - 1 }
  .again { w with stackelm := update w.stackelm (w.cur_sp + 1) next, cur_sp := w.cur_sp + 1 }

/-- The body of the `for (;;)`. After the pop on a zero count the source goes on with the
element below as if it were a leaf. -/
def trip (last : ℕ) (w : Work) : Trip :=
  let e := w.elm
  if e.loop_p.isFinal then
    if e.curcount = 0 then
      match pop w with
      | .again w => leaf last w
      | .leave w cur_sp => .leave w cur_sp
    else leaf last w
  else if e.curblock = 0 then newBlock w
  else push w

/-- At most `fuel` trips; `none` when they are not enough. -/
def trips (last : ℕ) : ℕ → Work → Option (Work × Option ℕ)
  | 0, _ => none
  | fuel + 1, w =>
    match trip last w with
    | .again w => trips last fuel w
    | .leave w cur_sp => some (w, cur_sp)

/-! ## The call -/

/-- The memory after a call: the segment, `*lastp`, the parameters and the commands. -/
structure Result where
  segment : Segment
  lastp : ℕ
  params : Option Params
  issued : List Dma

/-- The loop between `DLOOP_SEGMENT_LOAD_LOCAL_VALUES` and `DLOOP_SEGMENT_SAVE_LOCAL_VALUES`.
With `cur_sp` at `-1` there is no stack element to go on with. -/
def walk (fuel : ℕ) (segp : Segment) (last : ℕ) (params : Option Params) : Option Result :=
  match segp.cur_sp with
  | none => none
  | some sp =>
    match trips last fuel ⟨segp.stackelm, sp, segp.stream_off, params, []⟩ with
    | none => none
    | some (w, cur_sp) =>
      some ⟨⟨w.stream_off, w.stackelm, cur_sp⟩, w.stream_off, w.params, w.issued⟩

/-- The element is set back to the start of its loop. -/
def Stackelm.restart (e : Stackelm) : Stackelm :=
  let e := { e with curcount := e.orig_count }
  let e := { e with orig_block := DLOOP_Stackelm_blocksize e }
  { e with curblock := e.orig_block, curoffset := e.orig_offset + DLOOP_Stackelm_offset e }

/-- `DLOOP_SEGMENT_RESET_VALUES`: only the outermost element is set back. -/
def reset (segp : Segment) : Segment :=
  { stream_off := 0, cur_sp := some 0
    stackelm := update segp.stackelm 0 (segp.stackelm 0).restart }

/-- The call that the source makes of itself, with no `pieceparams`, starts at
`segp->stream_off`, so it does nothing but the walk. -/
def advance (fuel : ℕ) (segp : Segment) (first : ℕ) : Option Segment :=
  if first = segp.stream_off then some segp
  else (walk fuel segp first none).map Result.segment

/-- `spin_segment_manipulate`: with nothing to do it returns at once; to go back it starts over and
skips what lies before `first`. -/
def spin_segment_manipulate (fuel : ℕ) (segp : Segment) (first lastp : ℕ)
    (params : Option Params) : Option Result :=
  if first = lastp then some ⟨segp, lastp, params, []⟩
  else
    let segp := if first < segp.stream_off then reset segp else segp
    match advance fuel segp first with
    | none => none
    | some segp => walk fuel segp lastp params

end Pspin.Datatypes
