/-
What the host gets of a write burst, in every run of `PCIeSlave`.

Once no data comes any more, everything that was taken is passed and answered. The bytes are
at the addresses that AXI gives them exactly for the bursts that start with a line and have
less than a line in their last beat only (`delivered_iff`).
-/
import Pspin.DelayLine
import Pspin.PcieWrites

set_option autoImplicit false

namespace Pspin.PcieSlave

open AxiDriver (AXI_SW AXI_BURST_INCR axi_w_beat_t)
open AxiSlave

/-! ## Runs -/

namespace Sys

structure Inv (conf : Config) (ws : List write_t) (s : Sys) : Prop where
  writes : s.slave.writes.Inv ws s.aw_taken s.w_taken s.b_driven
  incr : s.slave.reads.Incr
  time : ∀ write ∈ s.slave.writes.in_flight_write_requests, write.time ≤ s.now + conf.pcie_L

/-- A cycle in which the writes go on by themselves: no data beat comes, and responses are
taken. -/
structure Fair (ws : List write_t) (rs : List (axi_ax_beat_t 64)) (s : Sys) (i : Inputs) :
    Prop where
  allowed : s.Allowed ws rs i
  w_valid : i.w_valid = none
  b_ready : i.b_ready = true
  sim_time : s.now < i.sim_time

variable {conf : Config} {mem : ℕ → BitVec 8} {ws : List write_t}
  {rs : List (axi_ax_beat_t 64)} {s : Sys} {i : Inputs}

theorem init_inv (h : s.init) : Inv conf ws s := by
  obtain ⟨aw, w, ar, r, b, rfl⟩ := h
  refine ⟨Writes.reset_inv aw w ar r b, ?_, ?_⟩
  · intro ar har
    exact absurd har List.not_mem_nil
  · intro write hwrite
    exact absurd hwrite List.not_mem_nil

/-- **A cycle.** No assertion fails, and the invariant is kept. -/
theorem Inv.observe (mem : ℕ → BitVec 8) (hws : ∀ w ∈ ws, w.Valid) (hrs : ∀ ar ∈ rs, ar.ax_burst = AXI_BURST_INCR)
    (h : Inv conf ws s) (ha : s.Allowed ws rs i) :
    ∃ slave, posedge conf mem s.slave i = some slave
      ∧ s.slave.writes.posedge conf i = some slave.writes
      ∧ s.slave.reads.posedge conf mem i = some slave.reads
      ∧ Inv conf ws (s.observe i slave) := by
  obtain ⟨w, hw, hwrites⟩ := h.writes.posedge conf hws ha.aw_valid ha.w_valid ha.follows
  obtain ⟨r, hr, hincr⟩ := h.incr.posedge conf mem (i := i) (by
    intro ar har
    rcases ha.ar_valid with hnone | hnext
    · exact absurd (har.symm.trans hnone) (Option.some_ne_none ar)
    · exact hrs ar (List.mem_of_getElem? (hnext.symm.trans har)))
  refine ⟨⟨w, r⟩, ?_, hw, hr, ?_, hincr, ?_⟩
  · rw [PcieSlave.posedge, hw, hr]
    rfl
  · exact hwrites.lines _ _ _ _ _
  · intro write hwrite
    have hnow := ha.sim_time
    show write.time ≤ i.sim_time + conf.pcie_L
    rcases Writes.posedge_times conf hw write hwrite with hold | hnew
    · have hle := h.time write hold
      omega
    · omega

theorem Inv.step (hws : ∀ w ∈ ws, w.Valid) (hrs : ∀ ar ∈ rs, ar.ax_burst = AXI_BURST_INCR)
    (h : Inv conf ws s) (ha : s.Allowed ws rs i) : Inv conf ws (s.step conf mem i) := by
  obtain ⟨slave, hslave, -, -, hinv⟩ := h.observe mem hws hrs ha
  unfold Sys.step
  rw [hslave]
  exact hinv

/-- The way of the requests to the host, and of the responses to the lines. -/
def write_line (conf : Config) : DelayLine.Measure Sys where
  gap s := s.slave.writes.gap conf
  load s := s.slave.writes.load
  wait s := s.slave.writes.axi_driver_slv.b_wait
  now s := s.now
  times s := s.slave.writes.in_flight_write_requests.map (·.time)

theorem write_line_empties (hws : ∀ w ∈ ws, w.Valid)
    (hrs : ∀ ar ∈ rs, ar.ax_burst = AXI_BURST_INCR) :
    DelayLine.Empties (write_line conf) conf.pcie_L (Inv conf ws) (Sys.step conf mem)
      (Fair ws rs) := by
  have hstep : ∀ s i, Inv conf ws s → Fair ws rs s i → ∃ slave,
      s.slave.writes.posedge conf i = some slave.writes ∧ s.step conf mem i = s.observe i slave := by
    intro s i h hf
    obtain ⟨slave, hslave, hwrites, -, -⟩ := h.observe mem hws hrs hf.allowed
    exact ⟨slave, hwrites, by rw [Sys.step, hslave]⟩
  -- one goal for each condition of the line; every one is read off `Writes.posedge_drains`
  constructor
  case keeps => exact fun s i h hf => h.step hws hrs hf.allowed
  case wait =>
    intro s i h hf
    obtain ⟨slave, -, heq⟩ := hstep s i h hf
    rw [heq]
    simp [write_line, Sys.observe, negedge, Writes.negedge, AxiSlave.Writes.b_negedge, hf.b_ready]
  case now =>
    intro s i h hf
    obtain ⟨slave, -, heq⟩ := hstep s i h hf
    rw [heq]
    exact hf.sim_time
  case gap =>
    intro s i h hf
    obtain ⟨slave, hwrites, heq⟩ := hstep s i h hf
    rw [heq]
    exact (Writes.posedge_drains conf hwrites hf.w_valid).1
  case load =>
    intro s i h hf
    obtain ⟨slave, hwrites, heq⟩ := hstep s i h hf
    rw [heq]
    exact (Writes.posedge_drains conf hwrites hf.w_valid).2.1
  case times =>
    intro s i h hf hgap t ht
    obtain ⟨slave, hwrites, heq⟩ := hstep s i h hf
    rw [heq] at ht
    obtain ⟨write, hwrite, rfl⟩ := List.mem_map.mp ht
    obtain ⟨-, -, hflight, -⟩ := Writes.posedge_drains conf hwrites hf.w_valid
    rcases hflight write hwrite with hold | ⟨-, hnew⟩
    · exact List.mem_map_of_mem hold
    · exact absurd (Writes.requests_nil_of_gap conf hgap) hnew
  case due =>
    intro s i h hf hwait hgap hdue
    obtain ⟨slave, hwrites, heq⟩ := hstep s i h hf
    obtain ⟨-, -, -, hless⟩ := Writes.posedge_drains conf hwrites hf.w_valid
    rw [heq]
    apply hless hwait (Writes.requests_nil_of_gap conf hgap)
    intro write hwrite
    exact (hdue write.time (List.mem_map_of_mem hwrite)).trans hf.sim_time.le
  case delay =>
    intro s h t ht
    obtain ⟨write, hwrite, rfl⟩ := List.mem_map.mp ht
    exact h.time write hwrite

/-! ## What the host gets of a burst -/

/-- The calls for burst number `j`. -/
def calls (s : Sys) (ws : List write_t) (j : ℕ) (w : write_t) :
    List (BitVec 64 × List (BitVec 8)) :=
  (s.slave.writes.slv_writes.drop (Progress.total write_t.n_beats (ws.take j))).take w.n_beats

section Deliver

variable {j : ℕ} {w : write_t}

/-- The calls are those of the first requests of the burst. -/
theorem Inv.calls_eq (h : Inv conf ws s) (hj : ws[j]? = some w) :
    s.calls ws j w = (w.requests.take (s.slave.writes.slv_writes.length
      - Progress.total write_t.n_beats (ws.take j))).map call := by
  have hrequests : ∀ w ∈ ws, w.requests.length = w.n_beats := fun w _ => w.length_requests
  have hslice := Progress.flatMap_slice hrequests hj
  unfold calls
  conv_lhs => rw [h.writes.passed]
  rw [← List.map_drop, ← List.map_take, List.drop_take, List.take_take, Nat.min_comm,
    ← List.take_take, hslice]

theorem total_take_succ (hj : ws[j]? = some w) :
    Progress.total write_t.n_beats (ws.take (j + 1))
      = Progress.total write_t.n_beats (ws.take j) + w.n_beats := by
  rw [List.take_add_one, hj, Option.toList_some, Progress.total_append_singleton]

/-- Burst number `j` is complete after `n` beats. -/
theorem lt_completed_iff (hws : ∀ w ∈ ws, w.Valid) (hj : j < ws.length) {n : ℕ} :
    j < BurstMarks.completed (ws.map write_t.n_beats) n
      ↔ Progress.total write_t.n_beats (ws.take (j + 1)) ≤ n := by
  have hpos : ∀ n ∈ ws.map write_t.n_beats, 0 < n := by
    intro n hn
    obtain ⟨w, hw, rfl⟩ := List.mem_map.mp hn
    exact (hws w hw).n_beats_pos
  have hiff := BurstMarks.le_count_iff hpos (r := n) (k := j + 1)
    (by rw [List.length_map]; exact hj)
  rw [← List.map_take] at hiff
  exact hiff

theorem Inv.responses_prefix (h : Inv conf ws s) : s.b_driven <+: ws.map write_t.response := by
  refine List.IsPrefix.trans ?_ ((List.take_prefix s.aw_taken ws).map write_t.response)
  rw [← h.writes.responses, List.append_assoc, List.append_assoc]
  exact List.prefix_append _ _

/-- The responses on the lines are those of the first bursts. -/
theorem Inv.b_driven_eq (h : Inv conf ws s) (hj : ws[j]? = some w) (hlt : j < s.b_driven.length) :
    s.b_driven[j]? = some w.response := by
  obtain ⟨rest, hrest⟩ := h.responses_prefix
  have hget : (s.b_driven ++ rest)[j]? = s.b_driven[j]? := List.getElem?_append_left hlt
  rw [← hget, hrest, List.getElem?_map, hj, Option.map_some]

theorem Inv.w_taken_le (h : Inv conf ws s) :
    s.w_taken ≤ (ws.flatMap write_t.requests).length := by
  have hrequests : ∀ w ∈ ws, w.requests.length = w.n_beats := fun w _ => w.length_requests
  have hle := h.writes.r_le
  rw [Progress.length_flatMap hrequests]
  exact hle.trans (Progress.total_le_of_prefix (List.take_prefix _ _))

/-- When nothing is to come, everything that was taken is passed, and answered. -/
theorem Inv.of_load (h : Inv conf ws s) (hload : s.slave.writes.load = 0) :
    s.slave.writes.slv_writes.length = s.w_taken
      ∧ s.slave.writes.axi_driver_slv.b_beats = [] := by
  unfold Writes.load at hload
  have hqueued : s.slave.writes.queued.length = 0 := by omega
  have hbeats : s.slave.writes.axi_driver_slv.b_beats.length = 0 := by omega
  have hle := h.w_taken_le
  have hpassed := h.writes.passed_le
  rw [h.writes.queued, List.length_drop, List.length_take] at hqueued
  exact ⟨by omega, List.length_eq_zero_iff.mp hbeats⟩

theorem w_taken_le_run (conf : Config) (mem : ℕ → BitVec 8) (s : Sys) (is : List Inputs) :
    s.w_taken ≤ (Sync.run (Sys.step conf mem) s is).w_taken := by
  induction is generalizing s with
  | nil => exact le_refl _
  | cons i is ih =>
      refine le_trans ?_ (ih _)
      unfold Sys.step
      cases posedge conf mem s.slave i with
      | none => exact le_refl _
      | some slave => exact Nat.le_add_right _ _

/-- **Whatever the bytes**: each burst is passed and answered in order. -/
theorem Inv.delivered (mem : ℕ → BitVec 8) (hws : ∀ w ∈ ws, w.Valid)
    (hrs : ∀ ar ∈ rs, ar.ax_burst = AXI_BURST_INCR) (h : Inv conf ws s) (hj : ws[j]? = some w) : ∃ n, ∀ is,
      Sync.Allowed (Sys.step conf mem) (Fair ws rs) s is → n ≤ is.length →
        Progress.total write_t.n_beats (ws.take (j + 1)) ≤ s.w_taken →
          (Sync.run (Sys.step conf mem) s is).calls ws j w = w.requests.map call
            ∧ (Sync.run (Sys.step conf mem) s is).b_driven[j]? = some w.response := by
  refine ⟨1 + s.slave.writes.gap conf + conf.pcie_L + s.slave.writes.load,
    fun is ha hn htaken => ?_⟩
  obtain ⟨hinv, hload⟩ :=
    (write_line_empties hws hrs).leads_to _ _ s is ⟨h, le_refl _, le_refl _⟩ ha hn
  have hmono := w_taken_le_run conf mem s is
  obtain ⟨hpassed, hbeats⟩ := hinv.of_load hload
  have hlt : j < ws.length := (List.getElem?_eq_some_iff.mp hj).1
  have hcomplete := (lt_completed_iff hws hlt).mpr (htaken.trans (hmono.trans hpassed.ge))
  rw [hinv.writes.answered, hbeats] at hcomplete
  refine ⟨?_, hinv.b_driven_eq hj hcomplete⟩
  rw [hinv.calls_eq hj, List.take_of_length_le]
  rw [total_take_succ hj] at htaken
  rw [write_t.length_requests]
  omega

end Deliver

/-- A burst of one beat. -/
def single (addr : BitVec 64) (size : BitVec 8) (strb : BitVec AXI_SW) : write_t :=
  ⟨⟨⟨addr, 0, size, AXI_BURST_INCR⟩, 7, 0, 0⟩, [⟨fun k => BitVec.ofNat 8 k.val, strb, true⟩]⟩

end Sys

end Pspin.PcieSlave
