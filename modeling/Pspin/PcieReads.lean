/-
How `PCIeSlave` answers reads.

A read is handed out beat by beat, each with the start address and the bytes of the beats
before; the host's bytes from there on are put on the lanes from 0 on. AXI aligns every beat
but the first to its size, and puts a byte on the lane that its address has in its line. The
two agree exactly for a read that starts with a line and has one beat, or whole lines
(`read_lines_iff`).
-/
import Pspin.PcieSlave

set_option autoImplicit false

namespace Pspin.PcieSlave

open AxiDriver (AXI_SW AXI_BURST_INCR)
open AxiMaster (has_room)
open AxiSlave

/-- The lanes of a beat of data. -/
def lanes (beat : axi_r_beat_t) (k : ℕ) : BitVec 8 :=
  if h : k < AXI_SW then beat.r_data ⟨k, h⟩ else 0

namespace Read

variable (rd : axi_ax_beat_t 64)

def burst : AxiIncr.Burst := rd.incr

def n_beats : ℕ := (burst rd).len + 1

structure Valid : Prop where
  incr : rd.ax_burst = AXI_BURST_INCR
  legal : (burst rd).Legal 6

/-- The Ax beat after `q` beats of data. -/
def entry (q : ℕ) : axi_ax_beat_t 64 :=
  { rd with
    ax_addr := rd.ax_addr + BitVec.ofNat 64 (q * 2 ^ rd.ax_size.toNat)
    ax_len := rd.ax_len - BitVec.ofNat 8 q
    offset := 0 }

/-- Beat `q`, as it is handed out. -/
def request (q : ℕ) (r_data : Fin AXI_SW → BitVec 8) : r_beat_request_t 64 :=
  ⟨(entry rd q).ax_addr, 2 ^ rd.ax_size.toNat,
    ⟨AXI_RESP_OKAY, decide (q = (burst rd).len), rd.ax_id, rd.ax_user, r_data⟩⟩

/-- The read starts with a line, and has one beat or whole lines. -/
def Lines : Prop := rd.ax_addr.toNat % 64 = 0 ∧ ((burst rd).len = 0 ∨ (burst rd).size = 6)

instance : Decidable (Lines rd) := inferInstanceAs (Decidable (_ ∧ (_ ∨ _)))

variable {rd} {q : ℕ} {mem : ℕ → BitVec 8} {r_data : Fin AXI_SW → BitVec 8}

/-! ## A beat -/

theorem Valid.stop_le (h : Valid rd) : (burst rd).stop ≤ ((burst rd).addr / 4096 + 1) * 4096
    ∧ ((burst rd).addr / 4096 + 1) * 4096 ≤ 2 ^ 64 := by
  have hpage := h.legal.page
  have haddr : (burst rd).addr < 2 ^ 64 := rd.ax_addr.isLt
  have hlt : (burst rd).addr < (burst rd).stop := AxiIncr.Burst.addr_lt_stop
  omega

/-- The address of a beat is in the address space. -/
theorem Valid.toNat_entry (h : Valid rd) (hq : q ≤ (burst rd).len) :
    (entry rd q).ax_addr.toNat = (burst rd).addr + q * 2 ^ (burst rd).size
      ∧ (burst rd).addr + q * 2 ^ (burst rd).size < (burst rd).beat_stop q := by
  obtain ⟨hstop, hspace⟩ := h.stop_le
  have hlt : (burst rd).addr < (burst rd).aligned + 2 ^ (burst rd).size := AxiIncr.Burst.addr_lt
  have hbeat : (burst rd).addr + q * 2 ^ (burst rd).size < (burst rd).beat_stop q := by
    unfold AxiIncr.Burst.beat_stop
    rw [Nat.succ_mul]
    omega
  have hin : (burst rd).beat_stop q ≤ (burst rd).stop := by
    unfold AxiIncr.Burst.stop AxiIncr.Burst.beat_stop
    exact Nat.add_le_add_left (Nat.mul_le_mul_right _ (by omega)) _
  refine ⟨?_, hbeat⟩
  have hsum : (entry rd q).ax_addr.toNat
      = ((burst rd).addr + q * 2 ^ (burst rd).size) % 2 ^ 64 := by
    simp only [entry, BitVec.toNat_add, BitVec.toNat_ofNat, Nat.add_mod_mod]
    rfl
  rw [hsum, Nat.mod_eq_of_lt (by omega)]

theorem lanes_fill {k : ℕ} (hk : k < 64) : lanes (fill mem (request rd q r_data)) k
    = if k < 2 ^ (burst rd).size then mem ((entry rd q).ax_addr.toNat + k)
      else r_data ⟨k, hk⟩ := by
  unfold lanes
  rw [dif_pos (show k < AXI_SW from hk)]
  rfl

/-- A beat whose address is its line has its bytes on their lanes. -/
theorem Valid.carries (h : Valid rd) (hq : q ≤ (burst rd).len)
    (hline : (burst rd).addr + q * 2 ^ (burst rd).size = (burst rd).beat_addr q / 64 * 64) :
    (burst rd).Carries 6 q mem (lanes (fill mem (request rd q r_data))) := by
  intro a ha
  obtain ⟨hentry, -⟩ := h.toNat_entry hq
  have hlane : (burst rd).beat_addr q / 64 * 64 + a % 64 = a :=
    AxiIncr.Burst.lane_addr_mod h.legal.size_le ha
  have hstop : a < (burst rd).beat_stop q := by
    obtain ⟨hlo, hhi⟩ := List.mem_range'_1.mp ha
    omega
  have hdown : (burst rd).aligned ≤ (burst rd).addr := AxiIncr.Burst.aligned_le
  have hfirst : a % 64 < 2 ^ (burst rd).size := by
    unfold AxiIncr.Burst.beat_stop at hstop
    rw [Nat.succ_mul] at hstop
    omega
  show lanes _ (a % 64) = mem a
  rw [lanes_fill (Nat.mod_lt a (by decide)), if_pos hfirst, hentry, hline, hlane]

/-- A beat that has its first byte on its lane, whatever is in memory, has the address of its
line. -/
theorem Valid.line_of_carries (h : Valid rd) (hq : q ≤ (burst rd).len)
    (hcarries : (burst rd).Carries 6 q (fun a => if a = (burst rd).beat_addr q then 1 else 0)
      (lanes (fill (fun a => if a = (burst rd).beat_addr q then 1 else 0)
        (request rd q fun _ => 0)))) :
    (burst rd).addr + q * 2 ^ (burst rd).size = (burst rd).beat_addr q / 64 * 64 := by
  obtain ⟨hentry, -⟩ := h.toNat_entry hq
  have hlt : (burst rd).beat_addr q < (burst rd).beat_stop q := AxiIncr.Burst.beat_addr_lt
  have hfirst : (burst rd).beat_addr q ∈ (burst rd).beat_bytes q :=
    List.mem_range'_1.mpr ⟨le_refl _, by omega⟩
  have hlane : lanes _ ((burst rd).beat_addr q % 64) = (1 : BitVec 8) :=
    (hcarries _ hfirst).trans (if_pos rfl)
  rw [lanes_fill (Nat.mod_lt _ (by decide)), hentry] at hlane
  split_ifs at hlane with hlanes haddr
  · omega
  · exact absurd hlane (by decide)
  · exact absurd hlane (by decide)

/-- **A read is answered as AXI wants it** exactly when it consists of lines. -/
theorem Valid.read_lines_iff (h : Valid rd) : Lines rd
    ↔ ∀ q ≤ (burst rd).len,
      (burst rd).addr + q * 2 ^ (burst rd).size = (burst rd).beat_addr q / 64 * 64 := by
  have hsize : (burst rd).size ≤ 6 := h.legal.size_le
  have hlines : Lines rd
    ↔ (burst rd).addr % 64 = 0 ∧ ((burst rd).len = 0 ∨ (burst rd).size = 6) := Iff.rfl
  rw [hlines]
  constructor
  · rintro ⟨haligned, hrest⟩ q hq
    rcases hrest with hone | hsix
    · obtain rfl : q = 0 := by omega
      rw [AxiIncr.Burst.beat_addr_zero]
      omega
    · unfold AxiIncr.Burst.beat_addr AxiIncr.Burst.aligned
      rw [hsix]
      split_ifs <;> omega
  · intro hall
    have hstart := hall 0 (Nat.zero_le _)
    rw [AxiIncr.Burst.beat_addr_zero] at hstart
    refine ⟨by omega, ?_⟩
    by_cases hone : (burst rd).len = 0
    · exact Or.inl hone
    · right
      by_contra hne
      -- the second beat has an address inside of a line
      have hsecond := hall 1 (by omega)
      have hpow : 2 ^ (burst rd).size ≤ 2 ^ 5 := Nat.pow_le_pow_right (by omega) (by omega)
      have hpos := Nat.two_pow_pos (burst rd).size
      omega

/-! ## The queue of reads -/

theorem n_beats_pos (rd : axi_ax_beat_t 64) : 0 < n_beats rd := Nat.succ_pos _

theorem entry_zero (rd : axi_ax_beat_t 64) : entry rd 0 = { rd with offset := 0 } := by
  simp [entry]

theorem Valid.toNat_ax_len (h : Valid rd) (hq : q ≤ (burst rd).len) :
    (entry rd q).ax_len.toNat = (burst rd).len - q := by
  have hlen : (burst rd).len < 256 := h.legal.len_lt
  have hlt : rd.ax_len.toNat = (burst rd).len := rfl
  simp only [entry, BitVec.toNat_sub, BitVec.toNat_ofNat]
  omega

/-- **A beat is handed out**, and the read goes on to the next one. -/
theorem Valid.get_next_r_beat (h : Valid rd) (hq : q < n_beats rd) {axi : AxiSlave.Reads 64}
    {rest : List (axi_ax_beat_t 64)} (hbeats : axi.ar_beats = entry rd q :: rest) :
    axi.get_next_r_beat r_data = some (request rd q r_data, { axi with
      ar_beats := if q + 1 = n_beats rd then rest else entry rd (q + 1) :: rest }) := by
  have hle : q ≤ (burst rd).len := Nat.lt_succ_iff.mp hq
  have hlen : (burst rd).len < 256 := h.legal.len_lt
  have hcount := h.toNat_ax_len hle
  have hlast : ((entry rd q).ax_len == 0) = decide (q = (burst rd).len) := by
    rw [Bool.eq_iff_iff, beq_iff_eq, decide_eq_true_eq, ← BitVec.toNat_inj, hcount]
    simp only [BitVec.toNat_zero, BitVec.ofNat_eq_ofNat]
    omega
  have hburst : (entry rd q).ax_burst = AXI_BURST_INCR := h.incr
  have hnext : { entry rd q with
      ax_addr := (entry rd q).ax_addr + BitVec.ofNat 64 (2 ^ (entry rd q).ax_size.toNat)
      ax_len := (entry rd q).ax_len - 1 } = entry rd (q + 1) := by
    simp only [entry, Nat.succ_mul, BitVec.ofNat_add, BitVec.add_assoc, BitVec.sub_sub]
    rfl
  unfold AxiSlave.Reads.get_next_r_beat
  rw [hbeats]
  simp only
  rw [if_pos (Or.inr hburst), if_pos hburst, hlast, hnext]
  congr 3
  simp only [n_beats, decide_eq_true_eq, Nat.add_right_cancel_iff]

end Read

namespace Reads

/-- All beats of data that were handed out, as they are answered: on the lines before, waiting
for them, or in flight. -/
def arrived (mem : ℕ → BitVec 8) (s : Reads) (r_driven : List axi_r_beat_t) :
    List axi_r_beat_t :=
  r_driven ++ s.axi_driver_slv.r_beats ++ s.in_flight_read_requests.map fun read => fill mem read.req

/-- After `ar` Ax beats, with `r_driven` on the lines so far. `J` is what is known of storage
that is not initialised. -/
structure Inv (J : (Fin AXI_SW → BitVec 8) → Prop) (mem : ℕ → BitVec 8)
    (rs : List (axi_ax_beat_t 64)) (s : Reads) (ar : ℕ) (r_driven : List axi_r_beat_t) :
    Prop where
  arrived_le : (s.arrived mem r_driven).length ≤ Progress.total Read.n_beats (rs.take ar)
  ar_beats : s.axi_driver_slv.ar_beats
    = Progress.queue_at Read.n_beats Read.entry (rs.take ar) (s.arrived mem r_driven).length
  beats : ∀ k beat, (s.arrived mem r_driven)[k]? = some beat → ∃ rd q r_data,
    Progress.place Read.n_beats rs k = some (rd, q) ∧ J r_data
      ∧ beat = fill mem (Read.request rd q r_data)

section Steps

variable {J : (Fin AXI_SW → BitVec 8) → Prop} {mem : ℕ → BitVec 8}
  {rs : List (axi_ax_beat_t 64)} {s : Reads} {ar t : ℕ} {r_driven : List axi_r_beat_t}
  {i : Inputs} (conf : Config)

theorem reset_inv (aw w arr r b : ℕ) : Inv J mem rs (reset aw w arr r b).reads 0 [] := by
  constructor <;> simp [reset, arrived, Progress.queue_at]

/-- The invariant is about the queue of Ax beats and what arrived. -/
theorem Inv.congr (h : Inv J mem rs s ar r_driven) {s' : Reads} {r_driven' : List axi_r_beat_t}
    (hbeats : s'.axi_driver_slv.ar_beats = s.axi_driver_slv.ar_beats)
    (harrived : s'.arrived mem r_driven' = s.arrived mem r_driven) :
    Inv J mem rs s' ar r_driven' := by
  refine ⟨?_, ?_, ?_⟩
  · rw [harrived]
    exact h.arrived_le
  · rw [hbeats, harrived]
    exact h.ar_beats
  · rw [harrived]
    exact h.beats

/-- **An Ax beat** is put behind the others. -/
theorem Inv.ar_posedge (h : Inv J mem rs s ar r_driven)
    (hi : i.ar_valid = none ∨ i.ar_valid = rs[ar]?) :
    Inv J mem rs { s with axi_driver_slv := s.axi_driver_slv.ar_posedge i.ar_valid }
      (ar + (s.axi_driver_slv.ar_posedge i.ar_valid).ar_ready.toNat) r_driven := by
  unfold AxiSlave.Reads.ar_posedge
  cases hvalid : i.ar_valid with
  | none => exact h.congr rfl rfl
  | some rd =>
      simp only
      split_ifs with hroom
      · -- the address that was taken is the next one of the list
        have hget : rs[ar]? = some rd := by
          rcases hi with hi | hi
          · exact absurd (hvalid.symm.trans hi) (Option.some_ne_none rd)
          · exact hi.symm.trans hvalid
        have htake : rs.take (ar + 1) = rs.take ar ++ [rd] := by
          rw [List.take_add_one, hget, Option.toList_some]
        refine ⟨?_, ?_, h.beats⟩
        · have hle := h.arrived_le
          simp only [Bool.toNat_true, htake, Progress.total_append_singleton]
          exact Nat.le_add_right_of_le hle
        · -- a queue of addresses grows by the new one, at its first beat
          have hqueue : Progress.queue_at Read.n_beats Read.entry (rs.take ar ++ [rd]) _ = _ :=
            Progress.queue_at_append (Read.n_beats_pos rd) h.arrived_le
          rw [← h.ar_beats, Read.entry_zero] at hqueue
          simp only [Bool.toNat_true, htake]
          exact hqueue.symm
      · -- no room: nothing is taken
        exact h.congr rfl rfl

/-- The beat that goes on the lines. -/
theorem Inv.r_posedge (h : Inv J mem rs s ar r_driven) :
    Inv J mem rs { s with axi_driver_slv := s.axi_driver_slv.r_posedge } ar
      (r_driven ++ if s.axi_driver_slv.r_wait then []
        else s.axi_driver_slv.r_posedge.r_valid.toList) := by
  unfold AxiSlave.Reads.r_posedge
  by_cases hwait : s.axi_driver_slv.r_wait = true
  · simpa only [if_pos hwait, List.append_nil] using h
  · simp only [if_neg hwait]
    cases hbeats : s.axi_driver_slv.r_beats with
    | nil => exact h.congr rfl (by simp [arrived, hbeats])
    | cons beat rest => exact h.congr rfl (by simp [arrived, hbeats])

/-- A beat that is due is filled, and waits for the lines. -/
theorem progress_in_flight_cases {s' : Reads} (h : s.progress_in_flight_reads mem t = some s') :
    (s' = s ∧ ∀ read ∈ s.in_flight_read_requests.head?, read.time ≤ t →
        s.axi_driver_slv.can_send_r_beat = false)
      ∨ ∃ read rest, s.in_flight_read_requests = read :: rest
        ∧ s' = { s with
          in_flight_read_requests := rest
          axi_driver_slv := { s.axi_driver_slv with
            r_beats := s.axi_driver_slv.r_beats ++ [fill mem read.req] } } := by
  unfold Reads.progress_in_flight_reads at h
  cases hflight : s.in_flight_read_requests with
  | nil =>
      rw [hflight] at h
      exact Or.inl ⟨(Option.some.inj h).symm, by simp⟩
  | cons read rest =>
      rw [hflight] at h
      simp only at h
      split_ifs at h with hgo
      · -- the oldest request is due and there is room: its beat is sent
        obtain ⟨axi, haxi, rfl⟩ := Option.map_eq_some_iff.mp h
        rw [AxiSlave.Reads.send_r_beat, if_pos hgo.2] at haxi
        obtain rfl := Option.some.inj haxi
        exact Or.inr ⟨read, rest, rfl, rfl⟩
      · -- not due, or no room
        refine Or.inl ⟨(Option.some.inj h).symm, ?_⟩
        intro read' hread' hdue
        obtain rfl : read = read' := by simpa using hread'
        simpa [hdue] using hgo

theorem Inv.progress_in_flight_reads (h : Inv J mem rs s ar r_driven) {s' : Reads}
    (hs : s.progress_in_flight_reads mem t = some s') : Inv J mem rs s' ar r_driven := by
  obtain ⟨rfl, -⟩ | ⟨read, rest, hflight, rfl⟩ := progress_in_flight_cases hs
  · exact h
  · exact h.congr rfl (by simp [arrived, hflight])

/-- **A beat is handed out** at its place. -/
theorem Inv.progress_new_reads (hrs : ∀ rd ∈ rs, Read.Valid rd) (h : Inv J mem rs s ar r_driven)
    {r_data : Fin AXI_SW → BitVec 8} (hdata : J r_data) {s' : Reads}
    (hs : s.progress_new_reads conf t r_data = some s') : Inv J mem rs s' ar r_driven := by
  unfold Reads.progress_new_reads at hs
  split_ifs at hs with hwait hbeat
  · obtain rfl := Option.some.inj hs
    exact h.congr rfl rfl
  · -- there is an address in the queue, so not all beats have been asked for
    have hlt : (s.arrived mem r_driven).length < Progress.total Read.n_beats (rs.take ar) := by
      by_contra hge
      have hnone := Progress.queue_at_of_le Read.entry (Nat.le_of_not_lt hge)
      rw [← h.ar_beats] at hnone
      simp [AxiSlave.Reads.has_r_beat, hnone] at hbeat
    -- the place of the next beat: beat `q` of read `rd`
    obtain ⟨rd, q, hplace⟩ := Progress.place_of_lt hlt
    have hmem := Progress.mem_of_place hplace
    have hvalid := hrs rd (List.mem_of_mem_take hmem)
    obtain ⟨rest, hnow, hnext⟩ := Progress.queue_at_succ Read.entry
      (fun rd _ => Read.n_beats_pos rd) hplace
    rw [hvalid.get_next_r_beat (Progress.lt_parts_of_place hplace)
      (h.ar_beats.trans hnow)] at hs
    obtain rfl := Option.some.inj hs
    generalize hnew : fill mem (Read.request rd q r_data) = new
    have harrived : Reads.arrived mem ⟨{ s.axi_driver_slv with
        ar_beats := if q + 1 = Read.n_beats rd then rest else Read.entry rd (q + 1) :: rest },
        conf.pcie_G (2 ^ rd.ax_size.toNat), s.in_flight_read_requests
          ++ [⟨Read.request rd q r_data, t + conf.pcie_L⟩]⟩ r_driven
        -- what is in flight grows by the request of that beat
        = s.arrived mem r_driven ++ [new] := by
      simp [arrived, hnew]
    have hlength : (s.arrived mem r_driven ++ [new]).length
        = (s.arrived mem r_driven).length + 1 := List.length_append
    refine ⟨?_, ?_, ?_⟩
    · refine (congrArg List.length harrived).le.trans ?_
      rw [hlength]
      exact hlt
    · refine Eq.trans ?_ (congrArg _ (congrArg List.length harrived).symm)
      rw [hlength, hnext]
    · intro k beat hk
      replace hk : (s.arrived mem r_driven ++ [new])[k]? = some beat :=
        (congrArg (·[k]?) harrived).symm.trans hk
      -- the beats that were there, the new one, and none behind it
      rcases Nat.lt_trichotomy k (s.arrived mem r_driven).length with hold | rfl | hover
      · rw [List.getElem?_append_left hold] at hk
        exact h.beats k beat hk
      · rw [List.getElem?_concat_length] at hk
        obtain rfl := Option.some.inj hk
        refine ⟨rd, q, r_data, ?_, hdata, hnew.symm⟩
        rw [← List.take_append_drop ar rs, Progress.place_append hlt, hplace]
      · rw [List.getElem?_eq_none (by rw [hlength]; omega)] at hk
        exact absurd hk nofun
  · obtain rfl := Option.some.inj hs
    exact h

/-! An edge. -/

theorem r_posedge_axi (axi : AxiSlave.Reads 64) :
    axi.r_posedge = { axi with
      r_beats := if axi.r_wait then axi.r_beats else axi.r_beats.tail
      r_valid := axi.r_posedge.r_valid } := by
  unfold AxiSlave.Reads.r_posedge
  split_ifs
  · rfl
  · cases axi.r_beats <;> rfl

theorem ar_posedge_axi (axi : AxiSlave.Reads 64) (ar_valid : Option (axi_ax_beat_t 64)) :
    axi.ar_posedge ar_valid = { axi with
      ar_beats := (axi.ar_posedge ar_valid).ar_beats
      ar_ready := (axi.ar_posedge ar_valid).ar_ready } := by
  unfold AxiSlave.Reads.ar_posedge
  split
  · rfl
  · split_ifs <;> rfl

/-- The parts of a rising edge. -/
theorem posedge_eq_some {s' : Reads} : s.posedge conf mem i = some s' ↔ ∃ s₁,
    s.progress_in_flight_reads mem i.sim_time = some s₁
      ∧ Reads.progress_new_reads conf { s₁ with
          axi_driver_slv := (s₁.axi_driver_slv.ar_posedge i.ar_valid).r_posedge }
        i.sim_time i.r_data = some s' := by
  unfold Reads.posedge
  rw [Option.bind_eq_some_iff]

/-- What a beat that is handed out changes of the port. -/
theorem progress_new_axi {s' : Reads} {r_data : Fin AXI_SW → BitVec 8}
    (h : s.progress_new_reads conf t r_data = some s') :
    s'.axi_driver_slv = { s.axi_driver_slv with ar_beats := s'.axi_driver_slv.ar_beats } := by
  unfold Reads.progress_new_reads at h
  split_ifs at h
  · obtain rfl := Option.some.inj h
    rfl
  · obtain ⟨⟨req, axi⟩, hnext, rfl⟩ := Option.map_eq_some_iff.mp h
    unfold AxiSlave.Reads.get_next_r_beat at hnext
    split at hnext
    · exact absurd hnext nofun
    · simp only at hnext
      split at hnext
      · obtain ⟨-, rfl⟩ := Prod.mk.inj (Option.some.inj hnext)
        rfl
      · exact absurd hnext nofun
  · obtain rfl := Option.some.inj h
    rfl

/-- An Ax beat is taken when there is room for it. -/
theorem posedge_ar_ready {s' : Reads} (h : s.posedge conf mem i = some s') :
    s'.axi_driver_slv.ar_ready = (i.ar_valid.isSome && has_room
      s.axi_driver_slv.ar_beats_buffer_size s.axi_driver_slv.ar_beats.length) := by
  obtain ⟨s₁, h₁, h₂⟩ := (posedge_eq_some conf).mp h
  have hport : s₁.axi_driver_slv.ar_beats = s.axi_driver_slv.ar_beats
      ∧ s₁.axi_driver_slv.ar_beats_buffer_size = s.axi_driver_slv.ar_beats_buffer_size := by
    obtain ⟨rfl, -⟩ | ⟨_, _, -, rfl⟩ := progress_in_flight_cases h₁ <;> exact ⟨rfl, rfl⟩
  rw [progress_new_axi conf h₂, r_posedge_axi, ← hport.1, ← hport.2]
  show (s₁.axi_driver_slv.ar_posedge i.ar_valid).ar_ready = _
  unfold AxiSlave.Reads.ar_posedge
  cases i.ar_valid with
  | none => rfl
  | some ar =>
      simp only
      split_ifs with hroom
      · exact hroom.symm
      · exact (Bool.eq_false_iff.mpr hroom).symm

/-- **A rising edge** keeps the invariant, with what is taken. -/
theorem Inv.posedge (hrs : ∀ rd ∈ rs, Read.Valid rd) (h : Inv J mem rs s ar r_driven)
    (hi : i.ar_valid = none ∨ i.ar_valid = rs[ar]?) (hdata : J i.r_data) {s' : Reads}
    (hs : s.posedge conf mem i = some s') :
    Inv J mem rs s' (ar + s'.axi_driver_slv.ar_ready.toNat)
      (r_driven ++ if s.axi_driver_slv.r_wait then []
        else s'.axi_driver_slv.r_valid.toList) := by
  obtain ⟨s₁, h₁, h₂⟩ := (posedge_eq_some conf).mp hs
  have hinv := (((h.progress_in_flight_reads h₁).ar_posedge hi).r_posedge).progress_new_reads
    conf hrs hdata h₂
  have haxi₂ := progress_new_axi conf h₂
  have hwait : s₁.axi_driver_slv.r_wait = s.axi_driver_slv.r_wait := by
    obtain ⟨rfl, -⟩ | ⟨_, _, -, rfl⟩ := progress_in_flight_cases h₁ <;> rfl
  have hready : (s₁.axi_driver_slv.ar_posedge i.ar_valid).ar_ready
      = s'.axi_driver_slv.ar_ready := by
    rw [haxi₂, r_posedge_axi]
  have hvalid : (s₁.axi_driver_slv.ar_posedge i.ar_valid).r_posedge.r_valid
      = s'.axi_driver_slv.r_valid := by
    rw [haxi₂]
  have hwait' : (s₁.axi_driver_slv.ar_posedge i.ar_valid).r_wait = s.axi_driver_slv.r_wait := by
    rw [ar_posedge_axi, hwait]
  simpa only [hready, hvalid, hwait'] using hinv

/-! ## How long it takes -/

/-- The cycles until all beats are handed out. -/
def gap (conf : Config) (s : Reads) : ℕ :=
  s.read_wait_cycles + (s.axi_driver_slv.ar_beats.map fun ar =>
    (ar.ax_len.toNat + 1) * (conf.pcie_G (2 ^ ar.ax_size.toNat) + 1)).sum

/-- The beats that are to come, and their ways. -/
def load (s : Reads) : ℕ :=
  2 * ((s.axi_driver_slv.ar_beats.map fun ar => ar.ax_len.toNat + 1).sum
    + s.in_flight_read_requests.length) + s.axi_driver_slv.r_beats.length

theorem ar_beats_nil_of_gap (h : s.gap conf = 0) : s.axi_driver_slv.ar_beats = [] := by
  unfold gap at h
  cases hbeats : s.axi_driver_slv.ar_beats with
  | nil => rfl
  | cons ar rest =>
      rw [hbeats] at h
      simp at h

/-- Handing out a beat takes it off its read. -/
theorem get_next_cases {axi axi' : AxiSlave.Reads 64} {r_data : Fin AXI_SW → BitVec 8}
    {req : r_beat_request_t 64} (h : axi.get_next_r_beat r_data = some (req, axi')) :
    ∃ ar rest, axi.ar_beats = ar :: rest ∧ req.data_size = 2 ^ ar.ax_size.toNat
      ∧ (ar.ax_len.toNat = 0 ∧ axi'.ar_beats = rest
        ∨ ∃ ar', axi'.ar_beats = ar' :: rest ∧ ar'.ax_size = ar.ax_size
          ∧ ar'.ax_len.toNat + 1 = ar.ax_len.toNat) := by
  unfold AxiSlave.Reads.get_next_r_beat at h
  split at h
  · exact absurd h nofun
  · rename_i ar rest hbeats
    simp only at h
    split at h
    · obtain ⟨rfl, rfl⟩ := Prod.mk.inj (Option.some.inj h)
      refine ⟨ar, rest, hbeats, rfl, ?_⟩
      -- after its last beat the address leaves the queue
      by_cases hlast : ar.ax_len = 0
      · exact Or.inl ⟨by rw [hlast]; rfl, if_pos (beq_iff_eq.mpr hlast)⟩
      · refine Or.inr ⟨_, if_neg (by simpa using hlast), rfl, ?_⟩
        -- else the length goes down by one, without a wrap
        have hpos : ar.ax_len.toNat ≠ 0 := by
          intro hzero
          exact hlast (BitVec.eq_of_toNat_eq hzero)
        have hlt := ar.ax_len.isLt
        have hone : (1 : BitVec 8).toNat = 1 := rfl
        rw [BitVec.toNat_sub, hone]
        omega
    · exact absurd h nofun

theorem progress_new_spec {s' : Reads} {r_data : Fin AXI_SW → BitVec 8}
    (h : s.progress_new_reads conf t r_data = some s') :
    s'.gap conf ≤ s.gap conf - 1 ∧ s'.load = s.load
      ∧ ∀ read ∈ s'.in_flight_read_requests, read ∈ s.in_flight_read_requests
        ∨ read.time = t + conf.pcie_L ∧ s.axi_driver_slv.ar_beats ≠ [] := by
  have haxi := progress_new_axi conf h
  unfold Reads.progress_new_reads at h
  split_ifs at h with hwait hbeat
  · -- still waiting for the bus
    obtain rfl := Option.some.inj h
    refine ⟨?_, rfl, fun read hread => Or.inl hread⟩
    unfold gap
    simp only
    omega
  · -- a new request
    obtain ⟨⟨req, axi⟩, hnext, rfl⟩ := Option.map_eq_some_iff.mp h
    obtain ⟨ar, rest, hbeats, hsize, hrest⟩ := get_next_cases hnext
    have hr_beats := congrArg AxiSlave.Reads.r_beats haxi
    simp only at hr_beats
    refine ⟨?_, ?_, fun read hread => ?_⟩
    · -- the cycles for the beats that are left: fewer by those of this one
      unfold gap
      simp only [hbeats, List.map_cons, List.sum_cons, hsize]
      rcases hrest with ⟨hlast, hbeats'⟩ | ⟨ar', hbeats', hsize', hlen⟩
      · rw [hbeats', hlast]
        omega
      · rw [hbeats', List.map_cons, List.sum_cons, hsize', ← hlen, Nat.succ_mul (_ + 1)]
        omega
    · -- the load only moves from the addresses to the requests in flight
      unfold load
      simp only [hbeats, List.map_cons, List.sum_cons, hr_beats, List.length_append,
        List.length_singleton]
      rcases hrest with ⟨hlast, hbeats'⟩ | ⟨ar', hbeats', -, hlen⟩
      · rw [hbeats', hlast]
        omega
      · rw [hbeats', List.map_cons, List.sum_cons]
        omega
    · -- the new request is due after the latency
      rcases List.mem_append.mp hread with hold | hnew
      · exact Or.inl hold
      · rw [List.mem_singleton.mp hnew]
        exact Or.inr ⟨rfl, by simp [hbeats]⟩
  · -- nothing to ask for
    obtain rfl := Option.some.inj h
    refine ⟨?_, rfl, fun read hread => Or.inl hread⟩
    have hbeats : s.axi_driver_slv.ar_beats = [] := by
      simpa [AxiSlave.Reads.has_r_beat] using hbeat
    simp only [gap, hbeats, List.map_nil, List.sum_nil]
    omega

theorem in_flight_subset {s' : Reads} (h : s.progress_in_flight_reads mem t = some s') :
    ∀ read ∈ s'.in_flight_read_requests, read ∈ s.in_flight_read_requests := by
  obtain ⟨rfl, -⟩ | ⟨_, _, hflight, rfl⟩ := progress_in_flight_cases h
  · exact fun _ hread => hread
  · rw [hflight]
    exact fun _ hread => List.mem_cons_of_mem _ hread

/-- A beat is in flight for `pcie_L` at most, before it is due. -/
theorem posedge_times {s' : Reads} (h : s.posedge conf mem i = some s') :
    ∀ read ∈ s'.in_flight_read_requests, read ∈ s.in_flight_read_requests
      ∨ read.time = i.sim_time + conf.pcie_L := by
  obtain ⟨s₁, h₁, h₂⟩ := (posedge_eq_some conf).mp h
  obtain ⟨-, -, hflight⟩ := progress_new_spec conf h₂
  intro read hread
  rcases hflight read hread with hold | ⟨htime, -⟩
  · exact Or.inl (in_flight_subset h₁ read hold)
  · exact Or.inr htime

theorem load_progress_in_flight {s' : Reads} (h : s.progress_in_flight_reads mem t = some s') :
    s'.load ≤ s.load ∧ s'.gap conf = s.gap conf := by
  obtain ⟨rfl, -⟩ | ⟨read, rest, hflight, rfl⟩ := progress_in_flight_cases h
  · exact ⟨le_refl _, rfl⟩
  · refine ⟨?_, rfl⟩
    unfold load
    simp only [hflight, List.length_append, List.length_cons, List.length_nil]
    omega

/-- A beat that is due is answered, or one is there to go. -/
theorem load_lt_of_due {s' : Reads} (h : s.progress_in_flight_reads mem t = some s')
    (hdue : ∀ read ∈ s.in_flight_read_requests, read.time ≤ t)
    (hbeats : s.axi_driver_slv.ar_beats = []) :
    s'.load < s.load ∨ s' = s ∧ (s.axi_driver_slv.r_beats ≠ [] ∨ s.load = 0) := by
  obtain ⟨rfl, hfull⟩ | ⟨read, rest, hflight, rfl⟩ := progress_in_flight_cases h
  · refine Or.inr ⟨rfl, ?_⟩
    cases hflight : s'.in_flight_read_requests with
    | nil =>
        rw [or_iff_not_imp_left, not_not]
        intro hr_beats
        simp [load, hflight, hbeats, hr_beats]
    | cons read rest =>
        left
        have hroom := hfull read (by simp [hflight]) (hdue read (by simp [hflight]))
        intro hr_beats
        simp only [AxiSlave.Reads.can_send_r_beat, hr_beats, has_room, List.length_nil,
          Bool.or_eq_false_iff, beq_eq_false_iff_ne, decide_eq_false_iff_not] at hroom
        omega
  · left
    unfold load
    simp only [hflight, List.length_append, List.length_cons, List.length_nil]
    omega

/-- **A rising edge without an Ax beat.** The beats are handed out, nothing is added to what is
to come, and what is due goes on unless the lines wait. -/
theorem posedge_drains {s' : Reads} (h : s.posedge conf mem i = some s') (hi : i.ar_valid = none) :
    s'.gap conf ≤ s.gap conf - 1 ∧ s'.load ≤ s.load
      ∧ (∀ read ∈ s'.in_flight_read_requests, read ∈ s.in_flight_read_requests
        ∨ read.time = i.sim_time + conf.pcie_L ∧ s.axi_driver_slv.ar_beats ≠ [])
      ∧ (s.axi_driver_slv.r_wait = false → s.axi_driver_slv.ar_beats = [] →
        (∀ read ∈ s.in_flight_read_requests, read.time ≤ i.sim_time) → s'.load ≤ s.load - 1) := by
  obtain ⟨s₁, h₁, h₂⟩ := (posedge_eq_some conf).mp h
  obtain ⟨hgap, hload, hflight⟩ := progress_new_spec conf h₂
  obtain ⟨hload₁, hgap₁⟩ := load_progress_in_flight conf h₁
  have hport : s₁.axi_driver_slv.ar_beats = s.axi_driver_slv.ar_beats
      ∧ s₁.axi_driver_slv.r_wait = s.axi_driver_slv.r_wait := by
    obtain ⟨rfl, -⟩ | ⟨_, _, -, rfl⟩ := progress_in_flight_cases h₁ <;> exact ⟨rfl, rfl⟩
  -- the port: only a beat of data can leave it
  rw [hi, r_posedge_axi, ar_posedge_axi] at hgap hload hflight
  have hgap₂ : s'.gap conf ≤ s₁.gap conf - 1 := hgap
  have hload₂ : s'.load + s₁.axi_driver_slv.r_beats.length = s₁.load
      + (if s₁.axi_driver_slv.r_wait then s₁.axi_driver_slv.r_beats
        else s₁.axi_driver_slv.r_beats.tail).length := by
    rw [hload]
    show 2 * _ + _ + _ = 2 * _ + _ + _
    exact Nat.add_right_comm _ _ _
  refine ⟨hgap₁ ▸ hgap₂, ?_, ?_, ?_⟩
  · have hle : (if s₁.axi_driver_slv.r_wait then s₁.axi_driver_slv.r_beats
        else s₁.axi_driver_slv.r_beats.tail).length ≤ s₁.axi_driver_slv.r_beats.length := by
      split_ifs <;> simp
    omega
  · intro read hread
    rcases hflight read hread with hold | ⟨htime, hne⟩
    · exact Or.inl (in_flight_subset h₁ read hold)
    · exact Or.inr ⟨htime, hport.1 ▸ hne⟩
  · intro hwait hnone hdue
    have htail : (if s₁.axi_driver_slv.r_wait then s₁.axi_driver_slv.r_beats
        else s₁.axi_driver_slv.r_beats.tail).length = s₁.axi_driver_slv.r_beats.length - 1 := by
      rw [hport.2, hwait]
      simp
    rcases load_lt_of_due h₁ hdue hnone with hless | ⟨rfl, hready | hzero⟩
    · omega
    · have hpos := List.length_pos_iff.mpr hready
      omega
    · omega

end Steps

end Reads

end Pspin.PcieSlave
