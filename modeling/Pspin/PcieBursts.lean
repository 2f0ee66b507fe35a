/-
The bytes of a write burst, as `PCIeSlave` passes them and as AXI has them.

The address of a call is the start address and the bytes received before, moved by the first
strobed lane. AXI counts from the line that the beat lies on. The two agree for a beat exactly
when the bytes before it fill the lines before its own, and for a whole burst when it starts
with a line and only its last beat is less than a line (`Valid.lines_iff`).
-/
import Pspin.PcieSlave

set_option autoImplicit false

namespace Pspin.PcieSlave

open AxiDriver (AXI_SW axi_w_beat_t)
open AxiMaster (wire)
open AxiSlave

/-- The bytes of a call of the callback, with their addresses. -/
def written (c : BitVec 64 × List (BitVec 8)) : List (ℕ × BitVec 8) :=
  c.2.mapIdx fun k x => (c.1.toNat + k, x)

namespace write_t

variable (w : write_t)

/-- Bytes in the first `q` beats. -/
def received (q : ℕ) : ℕ := ((w.beats.take q).map fun beat => Writes.strobed beat.w_strb).sum

/-- The Ax beat after `q` data beats. -/
def entry (q : ℕ) : axi_ax_beat_t 64 := { w.aw with offset := BitVec.ofNat 32 (w.received q) }

/-- What the AXI side makes of beat `q`. -/
def request (q : ℕ) (beat : axi_w_beat_t) : w_beat_request_t 64 :=
  ⟨w.aw.ax_addr + (w.entry q).offset.setWidth 64, Writes.strobed beat.w_strb, beat⟩

def requests : List (w_beat_request_t 64) := w.beats.mapIdx w.request

def response : axi_b_beat_t := Writes.b_beat w.aw

/-- The burst starts with a line, and only its last beat may be less than a line. -/
def Lines : Prop :=
  w.aw.ax_addr.toNat % 64 = 0
    ∧ (w.burst.len = 0
      ∨ w.burst.size = 6 ∧ ∀ beat ∈ w.beats.dropLast, beat.w_strb = BitVec.allOnes AXI_SW)

instance : Decidable w.Lines := inferInstanceAs (Decidable (_ ∧ (_ ∨ _ ∧ ∀ beat ∈ _, _)))

end write_t

/-! ## Strobes -/

section Strobes

variable {strb : BitVec AXI_SW} {lo m : ℕ}

theorem strobed_eq_countP (strb : BitVec AXI_SW) :
    Writes.strobed strb = (List.range AXI_SW).countP fun k => strb.getLsbD k := by
  have hlow : ∀ k ∈ List.range 32, (strb.setWidth 32).getLsbD k = strb.getLsbD k := by
    intro k hk
    simp [List.mem_range.mp hk]
  have hhigh : ∀ k ∈ List.range 32,
      ((strb >>> 32).setWidth 32).getLsbD k = strb.getLsbD (32 + k) := by
    intro k hk
    simp [List.mem_range.mp hk]
  have hsplit : List.range AXI_SW = List.range 32 ++ (List.range 32).map (32 + ·) := by
    rw [← List.range_add]
    rfl
  unfold Writes.strobed Writes.popcount
  rw [hsplit, List.countP_append, List.countP_map]
  simp only
  congr 1
  · apply List.countP_congr
    intro k hk
    rw [hlow k hk]
  · apply List.countP_congr
    intro k hk
    rw [hhigh k hk, Function.comp_apply]

theorem strobed_of_lanes (hstrb : ∀ k < 64, strb.getLsbD k = true ↔ lo ≤ k ∧ k < lo + m)
    (hle : lo + m ≤ 64) : Writes.strobed strb = m := by
  rw [strobed_eq_countP, List.countP_eq_length_filter]
  refine (congrArg List.length (AxiIncr.Burst.filter_lanes hstrb hle)).trans ?_
  simp

end Strobes

/-! ## A beat -/

namespace write_t

variable {w : write_t} {beat : axi_w_beat_t} {q : ℕ}

theorem Valid.len_lt (h : w.Valid) : w.burst.len < 256 := h.legal.len_lt

/-- The strobes of a beat, among the lanes that it has. -/
theorem Valid.lanes (h : w.Valid) (hq : w.beats[q]? = some beat) : ∃ lo m, 0 < m
    ∧ w.burst.beat_addr q % 64 ≤ lo
    ∧ lo + m ≤ w.burst.beat_addr q % 64 + (w.burst.beat_stop q - w.burst.beat_addr q)
    ∧ lo + m ≤ 64
    ∧ ∀ k < 64, beat.w_strb.getLsbD k = true ↔ lo ≤ k ∧ k < lo + m := by
  obtain ⟨lo, m, hm, hlo, hle, hstrb⟩ := h.w_strb q beat hq
  have hline : w.burst.beat_stop q ≤ w.burst.beat_addr q / 64 * 64 + 64 :=
    AxiIncr.Burst.beat_stop_le h.legal.size_le
  have hlt : w.burst.beat_addr q < w.burst.beat_stop q := AxiIncr.Burst.beat_addr_lt
  exact ⟨lo, m, hm, hlo, hle, by omega, hstrb⟩

theorem received_succ (hq : w.beats[q]? = some beat) :
    w.received (q + 1) = w.received q + Writes.strobed beat.w_strb := by
  simp [received, List.take_add_one, hq]

/-- A beat has at most a line. -/
theorem Valid.received_le (h : w.Valid) (hq : q ≤ w.beats.length) : w.received q ≤ 64 * q := by
  induction q with
  | zero => simp [received]
  | succ q ih =>
      have hbeat := List.getElem?_eq_getElem (Nat.lt_of_succ_le hq)
      obtain ⟨lo, m, -, -, -, hle, hstrb⟩ := h.lanes hbeat
      have hless := ih (by omega)
      rw [received_succ hbeat, strobed_of_lanes hstrb hle]
      omega

/-- The burst ends in the address space. -/
theorem Valid.stop_le (h : w.Valid) : w.burst.stop ≤ (w.burst.addr / 4096 + 1) * 4096
    ∧ (w.burst.addr / 4096 + 1) * 4096 ≤ 2 ^ 64 := by
  have hpage := h.legal.page
  have haddr : w.burst.addr < 2 ^ 64 := w.aw.ax_addr.isLt
  have hlt : w.burst.addr < w.burst.stop := AxiIncr.Burst.addr_lt_stop
  omega

theorem length_requests (w : write_t) : w.requests.length = w.n_beats := List.length_mapIdx

theorem Valid.n_beats_pos (h : w.Valid) : 0 < w.n_beats := by
  have hlen := h.length_beats
  unfold n_beats
  omega

/-- A data beat moves the offset. -/
theorem entry_succ (hq : w.beats[q]? = some beat) : w.entry (q + 1)
    = { w.entry q with offset :=
      (w.entry q).offset + BitVec.ofNat 32 (Writes.strobed beat.w_strb) } := by
  simp only [entry, received_succ hq, BitVec.ofNat_add]

theorem Valid.w_last_eq (h : w.Valid) (hq : w.beats[q]? = some beat) :
    beat.w_last = decide (q + 1 = w.n_beats) := by
  have hlen := h.length_beats
  rw [h.w_last q beat hq]
  unfold n_beats
  congr 1
  apply propext
  omega

end write_t

end Pspin.PcieSlave
