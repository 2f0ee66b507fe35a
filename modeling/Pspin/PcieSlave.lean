/-
`PCIeSlave`: the host behind the interconnect, a slave on an AXI port.

A data beat of a write stays in flight for `pcie_L` and is then passed to the host's write
callback: the strobed bytes of the beat, from the address of the request, moved by the first
lane that is strobed. The last beat of a burst sends the response. A beat of a read stays in
flight as long, and is filled from the host's memory before it goes out. `pcie_G` is the gap
between two beats, in cycles for a number of bytes.

The counts and times for the statistics are left out. A failing `assert` ends the
simulation: the edge is `none` there, and in a run nothing changes any more.
-/
import Pspin.AxiSlave
import Pspin.AxiWrites
import Pspin.Progress
import Pspin.Sync

set_option autoImplicit false

namespace Pspin.PcieSlave

open AxiDriver (AXI_SW AXI_BURST_INCR axi_w_beat_t)
open AxiSlave

/-- The parameters of the link. -/
structure Config where
  pcie_L : ℕ
  pcie_G : ℕ → ℕ

/-- A write beat and when it is due. -/
structure pcie_write_t where
  req : w_beat_request_t 64
  time : ℕ

/-- A read beat and when it is due. -/
structure pcie_read_t where
  req : r_beat_request_t 64
  time : ℕ

/-- The writing half, with the calls of the host's callback so far. -/
structure Writes where
  axi_driver_slv : AxiSlave.Writes 64
  write_wait_cycles : ℕ
  in_flight_write_requests : List pcie_write_t
  slv_writes : List (BitVec 64 × List (BitVec 8))

/-- The reading half. -/
structure Reads where
  axi_driver_slv : AxiSlave.Reads 64
  read_wait_cycles : ℕ
  in_flight_read_requests : List pcie_read_t

/-- The two halves of the slave, which share nothing but the memory. -/
structure State where
  writes : Writes
  reads : Reads

/-- What the slave meets in a cycle: the lines of the port, the time, and what is in the
storage of a new beat of data. -/
structure Inputs where
  aw_valid : Option (axi_ax_beat_t 64)
  w_valid : Option axi_w_beat_t
  b_ready : Bool
  ar_valid : Option (axi_ax_beat_t 64)
  r_ready : Bool
  sim_time : ℕ
  r_data : Fin AXI_SW → BitVec 8

/-- The constructor: buffers of these sizes, and nothing in them. -/
def reset (aw_buffer_size w_buffer_size ar_buffer_size r_buffer_size b_buffer_size : ℕ) : State where
  writes := ⟨⟨aw_buffer_size, w_buffer_size, b_buffer_size, [], [], [], [], false, false, false,
    none⟩, 0, [], []⟩
  reads := ⟨⟨ar_buffer_size, r_buffer_size, [], [], false, false, none⟩, 0, []⟩

/-! ## Writes -/

/-- `__builtin_ffsl`: the first bit that is set, counted from one. -/
def ffsl (x : BitVec AXI_SW) : ℕ :=
  match (List.range AXI_SW).find? fun k => x.getLsbD k with
  | none => 0
  | some k => k + 1

/-- What the callback gets of a data beat. -/
def call (req : w_beat_request_t 64) : BitVec 64 × List (BitVec 8) :=
  let fs := ffsl req.w_beat.w_strb - 1
  (req.addr + BitVec.ofNat 64 fs,
    (List.range req.data_size).map fun j => (AxiMaster.wire req.w_beat).data (fs + j))

namespace Writes

variable (conf : Config) (s : Writes)

/-- `progress_new_writes`: a beat that arrives is due after the latency, and the next one is looked
at after as many cycles as it takes to cross the link. -/
def progress_new_writes (sim_time : ℕ) : Writes :=
  let s := { s with write_wait_cycles := s.write_wait_cycles - 1 }
  if 0 < s.write_wait_cycles then s
  else
    match s.axi_driver_slv.get_next_w_beat with
    | none => s
    | some (w_beat_req, axi) =>
      { s with
        axi_driver_slv := axi
        in_flight_write_requests :=
          s.in_flight_write_requests ++ [⟨w_beat_req, sim_time + conf.pcie_L⟩]
        write_wait_cycles := conf.pcie_G w_beat_req.data_size }

/-- `progress_in_flight_writes`: the first beat that is due is carried out, and answered if it is
the last of its burst. -/
def progress_in_flight_writes (sim_time : ℕ) : Option Writes :=
  match s.in_flight_write_requests with
  | [] => some s
  | write :: rest =>
    if write.time ≤ sim_time ∧ s.axi_driver_slv.can_send_b_beat = true then
      if write.req.w_beat.w_strb = 0 then none
      else
        let s := { s with
          slv_writes := s.slv_writes ++ [call write.req]
          in_flight_write_requests := rest }
        if write.req.w_beat.w_last then
          s.axi_driver_slv.send_b_beat.map fun axi => { s with axi_driver_slv := axi }
        else some s
    else some s

/-- The rising edge of the write half. -/
def posedge (i : Inputs) : Option Writes :=
  (s.progress_in_flight_writes i.sim_time).bind fun s =>
    ((s.axi_driver_slv.aw_posedge i.aw_valid).w_posedge i.w_valid).map fun axi =>
      progress_new_writes conf { s with axi_driver_slv := axi.b_posedge } i.sim_time

/-- The falling edge of the write half. -/
def negedge (i : Inputs) : Writes := { s with axi_driver_slv := s.axi_driver_slv.b_negedge i.b_ready }

end Writes

/-! ## Reads -/

/-- The callback puts the bytes from the address of the request on the first lanes. -/
def fill (mem : ℕ → BitVec 8) (req : r_beat_request_t 64) : axi_r_beat_t :=
  { req.r_beat with r_data := fun k =>
      if k.val < req.data_size then mem (req.addr.toNat + k.val) else req.r_beat.r_data k }

namespace Reads

variable (conf : Config) (mem : ℕ → BitVec 8) (s : Reads)

/-- `progress_new_reads`: the same for reads. -/
def progress_new_reads (sim_time : ℕ) (r_data : Fin AXI_SW → BitVec 8) : Option Reads :=
  if 0 < s.read_wait_cycles then some { s with read_wait_cycles := s.read_wait_cycles - 1 }
  else if s.axi_driver_slv.has_r_beat then
    (s.axi_driver_slv.get_next_r_beat r_data).map fun (r_beat_req, axi) =>
      { axi_driver_slv := axi
        in_flight_read_requests :=
          s.in_flight_read_requests ++ [⟨r_beat_req, sim_time + conf.pcie_L⟩]
        read_wait_cycles := conf.pcie_G r_beat_req.data_size }
  else some s

/-- `progress_in_flight_reads`: the first read that is due is answered with what the memory holds
now. -/
def progress_in_flight_reads (sim_time : ℕ) : Option Reads :=
  match s.in_flight_read_requests with
  | [] => some s
  | read :: rest =>
    if read.time ≤ sim_time ∧ s.axi_driver_slv.can_send_r_beat = true then
      (s.axi_driver_slv.send_r_beat (fill mem read.req)).map fun axi =>
        { s with axi_driver_slv := axi, in_flight_read_requests := rest }
    else some s

def posedge (i : Inputs) : Option Reads :=
  (s.progress_in_flight_reads mem i.sim_time).bind fun s =>
    progress_new_reads conf
      { s with axi_driver_slv := (s.axi_driver_slv.ar_posedge i.ar_valid).r_posedge }
      i.sim_time i.r_data

def negedge (i : Inputs) : Reads := { s with axi_driver_slv := s.axi_driver_slv.r_negedge i.r_ready }

/-! The assertion about the kind of a burst is the only one that could fail. -/

/-- All reads that wait are of the kind that is handed out. -/
def Incr : Prop := ∀ ar ∈ s.axi_driver_slv.ar_beats, ar.ax_burst = AXI_BURST_INCR

section Incr

variable {s : Reads} {i : Inputs}

/-- Answering a read asserts nothing but the kind of its burst. -/
theorem Incr.progress_in_flight_reads (h : s.Incr) (t : ℕ) :
    ∃ s', s.progress_in_flight_reads mem t = some s' ∧ s'.Incr := by
  unfold Reads.progress_in_flight_reads
  cases s.in_flight_read_requests with
  | nil => exact ⟨s, rfl, h⟩
  | cons read rest =>
      simp only
      split_ifs with hgo
      · rw [AxiSlave.Reads.send_r_beat, if_pos hgo.2]
        exact ⟨_, rfl, h⟩
      · exact ⟨s, rfl, h⟩

theorem Incr.ar_posedge (h : s.Incr)
    (hi : ∀ ar, i.ar_valid = some ar → ar.ax_burst = AXI_BURST_INCR) :
    Incr { s with axi_driver_slv := (s.axi_driver_slv.ar_posedge i.ar_valid).r_posedge } := by
  have hkeeps : ∀ axi : AxiSlave.Reads 64, axi.r_posedge.ar_beats = axi.ar_beats := by
    intro axi
    unfold AxiSlave.Reads.r_posedge
    split_ifs
    · rfl
    · split <;> rfl
  intro ar har
  rw [hkeeps] at har
  unfold AxiSlave.Reads.ar_posedge at har
  cases hvalid : i.ar_valid with
  | none =>
      rw [hvalid] at har
      exact h ar har
  | some new =>
      simp only [hvalid] at har
      split_ifs at har
      · rcases List.mem_append.mp har with har | har
        · exact h ar har
        · rw [List.mem_singleton.mp har]
          exact hi new hvalid
      · exact h ar har

theorem Incr.progress_new_reads (h : s.Incr) (t : ℕ) (r_data : Fin AXI_SW → BitVec 8) :
    ∃ s', s.progress_new_reads conf t r_data = some s' ∧ s'.Incr := by
  unfold Reads.progress_new_reads AxiSlave.Reads.has_r_beat AxiSlave.Reads.get_next_r_beat
  split_ifs with hwait hbeat
  · exact ⟨_, rfl, h⟩
  · cases hbeats : s.axi_driver_slv.ar_beats with
    | nil => simp [hbeats] at hbeat
    | cons ar rest =>
        have hburst : ar.ax_burst = AXI_BURST_INCR := h ar (by rw [hbeats]; exact List.mem_cons_self)
        have hrest : ∀ ar ∈ rest, ar.ax_burst = AXI_BURST_INCR := by
          intro ar' har'
          exact h ar' (by rw [hbeats]; exact List.mem_cons_of_mem _ har')
        simp only
        rw [if_pos (Or.inr hburst)]
        refine ⟨_, rfl, ?_⟩
        intro ar' har'
        simp only at har'
        split_ifs at har'
        · exact hrest ar' har'
        · rcases List.mem_cons.mp har' with rfl | har'
          · exact hburst
          · exact hrest ar' har'
  · exact ⟨s, rfl, h⟩

/-- **A rising edge** of the reading half goes through. -/
theorem Incr.posedge (h : s.Incr)
    (hi : ∀ ar, i.ar_valid = some ar → ar.ax_burst = AXI_BURST_INCR) :
    ∃ s', s.posedge conf mem i = some s' ∧ s'.Incr := by
  obtain ⟨s₁, h₁, hincr₁⟩ := h.progress_in_flight_reads mem i.sim_time
  obtain ⟨s₂, h₂, hincr₂⟩ := (hincr₁.ar_posedge hi).progress_new_reads conf i.sim_time i.r_data
  refine ⟨s₂, ?_, hincr₂⟩
  rw [Reads.posedge, h₁, Option.bind_some, h₂]

end Incr

end Reads

def posedge (conf : Config) (mem : ℕ → BitVec 8) (s : State) (i : Inputs) : Option State :=
  (s.writes.posedge conf i).bind fun w => (s.reads.posedge conf mem i).map fun r => ⟨w, r⟩

def negedge (s : State) (i : Inputs) : State := ⟨s.writes.negedge i, s.reads.negedge i⟩

/-! ## Runs

The master has writes `ws` and reads `rs` to do. It presents their beats in order, at any
time. -/

/-- A burst with the data beats for it. -/
structure write_t where
  aw : axi_ax_beat_t 64
  beats : List axi_w_beat_t

namespace write_t

variable (w : write_t)

def burst : AxiIncr.Burst := w.aw.incr

def n_beats : ℕ := w.beats.length

/-- What AXI asks of a burst, with strobes on some lanes in a row of those that a beat has. -/
structure Valid : Prop where
  incr : w.aw.ax_burst = AXI_BURST_INCR
  legal : w.burst.Legal 6
  length_beats : w.beats.length = w.burst.len + 1
  w_last : ∀ i beat, w.beats[i]? = some beat → beat.w_last = decide (i = w.burst.len)
  w_strb : ∀ i beat, w.beats[i]? = some beat → ∃ lo m, 0 < m
    ∧ w.burst.beat_addr i % 64 ≤ lo
    ∧ lo + m ≤ w.burst.beat_addr i % 64 + (w.burst.beat_stop i - w.burst.beat_addr i)
    ∧ ∀ k < 64, beat.w_strb.getLsbD k = true ↔ lo ≤ k ∧ k < lo + m

end write_t

/-- The slave, how many beats it has taken, and what it has put on the lines. -/
structure Sys where
  slave : State
  aw_taken : ℕ
  w_taken : ℕ
  ar_taken : ℕ
  b_driven : List axi_b_beat_t
  r_driven : List axi_r_beat_t
  now : ℕ

namespace Sys

variable (s : Sys)

/-- What is seen on the lines in a cycle whose rising edge leads to `slave`. -/
def observe (i : Inputs) (slave : State) : Sys where
  slave := negedge slave i
  aw_taken := s.aw_taken + slave.writes.axi_driver_slv.aw_ready.toNat
  w_taken := s.w_taken + slave.writes.axi_driver_slv.w_ready.toNat
  ar_taken := s.ar_taken + slave.reads.axi_driver_slv.ar_ready.toNat
  b_driven := s.b_driven ++ if s.slave.writes.axi_driver_slv.b_wait then []
    else slave.writes.axi_driver_slv.b_valid.toList
  r_driven := s.r_driven ++ if s.slave.reads.axi_driver_slv.r_wait then []
    else slave.reads.axi_driver_slv.r_valid.toList
  now := i.sim_time

/-- A cycle. A failed assertion ends the simulation, so the state stays as it is. -/
def step (conf : Config) (mem : ℕ → BitVec 8) (s : Sys) (i : Inputs) : Sys :=
  match posedge conf mem s.slave i with
  | none => s
  | some slave => s.observe i slave

def init : Prop := ∃ aw w ar r b, s = ⟨reset aw w ar r b, 0, 0, 0, [], [], 0⟩

/-- A data beat that there is room for has its AW beat before it, or in the same cycle. -/
def Follows (ws : List write_t) (i : Inputs) : Prop :=
  let axi := s.slave.writes.axi_driver_slv
  i.w_valid.isSome = true → AxiMaster.has_room axi.w_beats_buffer_size axi.w_beat_requests.length →
    s.w_taken < Progress.total write_t.n_beats
      (ws.take (s.aw_taken + (axi.aw_posedge i.aw_valid).aw_ready.toNat))

/-- A cycle: on every channel nothing, or the next beat. -/
structure Allowed (ws : List write_t) (rs : List (axi_ax_beat_t 64)) (i : Inputs) : Prop where
  aw_valid : i.aw_valid = none ∨ i.aw_valid = (ws.map write_t.aw)[s.aw_taken]?
  w_valid : i.w_valid = none ∨ i.w_valid = (ws.flatMap write_t.beats)[s.w_taken]?
  follows : s.Follows ws i
  ar_valid : i.ar_valid = none ∨ i.ar_valid = rs[s.ar_taken]?
  sim_time : s.now ≤ i.sim_time

end Sys

end Pspin.PcieSlave
