/-
`tc_sram` with one port that only writes and one that only reads, at latency one.

The read port registers what it sees: the output of a cycle is the word the
address of the cycle before named, as it was before that cycle's write. Without a
request the port reads the held address again.
-/
import Mathlib.Logic.Function.Basic

set_option autoImplicit false

namespace Pspin.TcSram

structure State (addr_t data_t : Type*) where
  sram : addr_t → data_t
  r_addr_q : addr_t
  rdata_q : data_t

/-- A cycle of the memory: `wreq` is the request of the write port with its address
and word, `rreq` the one of the read port with its address. -/
structure Input (addr_t data_t : Type*) where
  wreq : Bool
  waddr : addr_t
  wdata : data_t
  rreq : Bool
  raddr : addr_t

variable {addr_t data_t : Type*} [DecidableEq addr_t]

def step (s : State addr_t data_t) (i : Input addr_t data_t) : State addr_t data_t where
  sram := if i.wreq then Function.update s.sram i.waddr i.wdata else s.sram
  r_addr_q := if i.rreq then i.raddr else s.r_addr_q
  -- the read value is latched before the new word is written
  rdata_q := if i.rreq then s.sram i.raddr else s.sram s.r_addr_q

/-- The registered read output. -/
def rdata_o (s : State addr_t data_t) : data_t := s.rdata_q

@[simp] theorem rdata_o_step {s : State addr_t data_t} {i : Input addr_t data_t}
    (h : i.rreq = true) : rdata_o (step s i) = s.sram i.raddr := by
  simp [rdata_o, step, h]

theorem sram_step_of_ne {s : State addr_t data_t} {i : Input addr_t data_t} {a : addr_t}
    (h : i.wreq = true → a ≠ i.waddr) : (step s i).sram a = s.sram a := by
  by_cases hw : i.wreq = true
  · simp [step, hw, Function.update_of_ne (h hw)]
  · simp [step, hw]

theorem sram_step_self {s : State addr_t data_t} {i : Input addr_t data_t}
    (h : i.wreq = true) : (step s i).sram i.waddr = i.wdata := by
  simp [step, h]

end Pspin.TcSram
