/-
What the port gets of a read, in every run of `PCIeSlave`.

Every beat has the identity of its read and the mark of the last one at its place, and once no
read comes any more all beats come. The bytes are on the lanes that AXI gives them exactly for
the reads that start with a line and have one beat, or whole lines (`answered_iff`).
-/
import Pspin.PcieReads
import Pspin.PcieWriteRuns

set_option autoImplicit false

namespace Pspin.PcieSlave

open AxiDriver (AXI_SW AXI_BURST_INCR axi_w_beat_t)
open AxiSlave

namespace Sys

/-- What a run keeps of the reads; `J` is what is known of storage that is not initialised. -/
structure ReadInv (conf : Config) (J : (Fin AXI_SW → BitVec 8) → Prop) (mem : ℕ → BitVec 8)
    (rs : List (axi_ax_beat_t 64)) (s : Sys) : Prop where
  reads : s.slave.reads.Inv J mem rs s.ar_taken s.r_driven
  time : ∀ read ∈ s.slave.reads.in_flight_read_requests, read.time ≤ s.now + conf.pcie_L

/-- A cycle in which the reads go on by themselves: none comes, and the beats are taken. -/
structure FairReads (ws : List write_t) (rs : List (axi_ax_beat_t 64)) (s : Sys) (i : Inputs) :
    Prop where
  allowed : s.Allowed ws rs i
  ar_valid : i.ar_valid = none
  r_ready : i.r_ready = true
  sim_time : s.now < i.sim_time

variable {conf : Config} {J : (Fin AXI_SW → BitVec 8) → Prop} {mem : ℕ → BitVec 8}
  {ws : List write_t} {rs : List (axi_ax_beat_t 64)} {s : Sys} {i : Inputs}

theorem init_read_inv (h : s.init) : ReadInv conf J mem rs s := by
  obtain ⟨aw, w, ar, r, b, rfl⟩ := h
  refine ⟨Reads.reset_inv aw w ar r b, ?_⟩
  intro read hread
  exact absurd hread List.not_mem_nil

theorem ReadInv.observe (hrs : ∀ rd ∈ rs, Read.Valid rd) (h : ReadInv conf J mem rs s)
    (ha : s.Allowed ws rs i) (hdata : J i.r_data) {slave : State}
    (hreads : s.slave.reads.posedge conf mem i = some slave.reads) :
    ReadInv conf J mem rs (s.observe i slave) := by
  refine ⟨?_, ?_⟩
  · exact (h.reads.posedge conf hrs ha.ar_valid hdata hreads).congr rfl rfl
  · intro read hread
    have hnow := ha.sim_time
    show read.time ≤ i.sim_time + conf.pcie_L
    rcases Reads.posedge_times conf hreads read hread with hold | hnew
    · have hle := h.time read hold
      omega
    · omega

section Runs

variable (hws : ∀ w ∈ ws, w.Valid) (hrs : ∀ rd ∈ rs, Read.Valid rd)

include hws hrs

theorem ReadInv.step (hinv : Inv conf ws s) (h : ReadInv conf J mem rs s) (ha : s.Allowed ws rs i)
    (hdata : J i.r_data) : ReadInv conf J mem rs (s.step conf mem i) := by
  obtain ⟨slave, hslave, -, hreads, -⟩ := hinv.observe mem hws (fun rd hrd => (hrs rd hrd).incr) ha
  unfold Sys.step
  rw [hslave]
  exact h.observe hrs ha hdata hreads

theorem reach_read_inv (h : Sync.Reach init (Sys.step conf mem)
      (fun s i => s.Allowed ws rs i ∧ J i.r_data) s) :
    Inv conf ws s ∧ ReadInv conf J mem rs s := by
  refine Sync.Reach.inv (P := fun s => Inv conf ws s ∧ ReadInv conf J mem rs s)
    (fun _ hs => ⟨init_inv hs, init_read_inv hs⟩) ?_ h
  rintro s i ⟨hinv, hread⟩ ⟨ha, hdata⟩
  exact ⟨hinv.step hws (fun rd hrd => (hrs rd hrd).incr) ha, hread.step hws hrs hinv ha hdata⟩

/-! What was taken is answered. -/

/-- The way of the beats to the lines. -/
def read_line (conf : Config) : DelayLine.Measure Sys where
  gap s := s.slave.reads.gap conf
  load s := s.slave.reads.load
  wait s := s.slave.reads.axi_driver_slv.r_wait
  now s := s.now
  times s := s.slave.reads.in_flight_read_requests.map (·.time)

theorem read_line_empties : DelayLine.Empties (read_line conf) conf.pcie_L
    (fun s => Inv conf ws s ∧ ReadInv conf J mem rs s) (Sys.step conf mem)
    (fun s i => FairReads ws rs s i ∧ J i.r_data) := by
  have hincr : ∀ rd ∈ rs, rd.ax_burst = AXI_BURST_INCR := fun rd hrd => (hrs rd hrd).incr
  have hstep : ∀ s i, Inv conf ws s → FairReads ws rs s i → ∃ slave,
      s.slave.reads.posedge conf mem i = some slave.reads
        ∧ s.step conf mem i = s.observe i slave := by
    intro s i h hf
    obtain ⟨slave, hslave, -, hreads, -⟩ := h.observe mem hws hincr hf.allowed
    exact ⟨slave, hreads, by rw [Sys.step, hslave]⟩
  -- one goal for each condition of the line; every one is read off `Reads.posedge_drains`
  constructor
  case keeps =>
    rintro s i ⟨hinv, hread⟩ ⟨hf, hdata⟩
    exact ⟨hinv.step hws hincr hf.allowed, hread.step hws hrs hinv hf.allowed hdata⟩
  case wait =>
    rintro s i ⟨hinv, -⟩ ⟨hf, -⟩
    obtain ⟨slave, -, heq⟩ := hstep s i hinv hf
    rw [heq]
    simp [read_line, Sys.observe, negedge, Reads.negedge, AxiSlave.Reads.r_negedge, hf.r_ready]
  case now =>
    rintro s i ⟨hinv, -⟩ ⟨hf, -⟩
    obtain ⟨slave, -, heq⟩ := hstep s i hinv hf
    rw [heq]
    exact hf.sim_time
  case gap =>
    rintro s i ⟨hinv, -⟩ ⟨hf, -⟩
    obtain ⟨slave, hreads, heq⟩ := hstep s i hinv hf
    rw [heq]
    exact (Reads.posedge_drains conf hreads hf.ar_valid).1
  case load =>
    rintro s i ⟨hinv, -⟩ ⟨hf, -⟩
    obtain ⟨slave, hreads, heq⟩ := hstep s i hinv hf
    rw [heq]
    exact (Reads.posedge_drains conf hreads hf.ar_valid).2.1
  case times =>
    rintro s i ⟨hinv, -⟩ ⟨hf, -⟩ hgap t ht
    obtain ⟨slave, hreads, heq⟩ := hstep s i hinv hf
    rw [heq] at ht
    obtain ⟨read, hread, rfl⟩ := List.mem_map.mp ht
    obtain ⟨-, -, hflight, -⟩ := Reads.posedge_drains conf hreads hf.ar_valid
    rcases hflight read hread with hold | ⟨-, hnew⟩
    · exact List.mem_map_of_mem hold
    · exact absurd (Reads.ar_beats_nil_of_gap conf hgap) hnew
  case due =>
    rintro s i ⟨hinv, -⟩ ⟨hf, -⟩ hwait hgap hdue
    obtain ⟨slave, hreads, heq⟩ := hstep s i hinv hf
    obtain ⟨-, -, -, hless⟩ := Reads.posedge_drains conf hreads hf.ar_valid
    rw [heq]
    apply hless hwait (Reads.ar_beats_nil_of_gap conf hgap)
    intro read hread
    exact (hdue read.time (List.mem_map_of_mem hread)).trans hf.sim_time.le
  case delay =>
    rintro s ⟨-, h⟩ t ht
    obtain ⟨read, hread, rfl⟩ := List.mem_map.mp ht
    exact h.time read hread

/-! ## What the port gets of a read -/

end Runs

/-- Read number `j` is answered: its beats carry what is in memory, with the mark of the last
one and the identity of the read. Once it is taken and no more reads come, all its beats come
within some number of cycles. -/
structure Answered (conf : Config) (mem : ℕ → BitVec 8) (ws : List write_t)
    (rs : List (axi_ax_beat_t 64)) (j : ℕ) (rd : axi_ax_beat_t 64) (s : Sys) : Prop where
  no_other : s.r_driven.length ≤ Progress.total Read.n_beats (rs.take s.ar_taken)
  beats : ∀ q beat, q ≤ (Read.burst rd).len →
    s.r_driven[Progress.total Read.n_beats (rs.take j) + q]? = some beat →
      (Read.burst rd).Carries 6 q mem (lanes beat)
        ∧ beat.r_last = decide (q = (Read.burst rd).len) ∧ beat.r_id = rd.ax_id
  all : j < s.ar_taken → ∃ n, ∀ is,
    Sync.Allowed (Sys.step conf mem) (FairReads ws rs) s is → n ≤ is.length →
      Progress.total Read.n_beats (rs.take (j + 1))
        ≤ (Sync.run (Sys.step conf mem) s is).r_driven.length

section Answer

variable {j q : ℕ} {rd : axi_ax_beat_t 64} {beat : axi_r_beat_t}

/-- A beat on the lines is one that was handed out. -/
theorem ReadInv.beat_eq (h : ReadInv conf J mem rs s) (hj : rs[j]? = some rd)
    (hq : q ≤ (Read.burst rd).len)
    (hbeat : s.r_driven[Progress.total Read.n_beats (rs.take j) + q]? = some beat) :
    ∃ r_data, J r_data ∧ beat = fill mem (Read.request rd q r_data) := by
  have harrived : (s.slave.reads.arrived mem s.r_driven)[
      Progress.total Read.n_beats (rs.take j) + q]? = some beat := by
    unfold Reads.arrived
    rw [List.append_assoc, List.getElem?_append_left (List.getElem?_eq_some_iff.mp hbeat).1, hbeat]
  obtain ⟨rd', q', r_data, hplace, hdata, heq⟩ := h.reads.beats _ _ harrived
  rw [Progress.place_start hj (Nat.lt_succ_of_le hq)] at hplace
  obtain ⟨rfl, rfl⟩ := Prod.mk.inj (Option.some.inj hplace)
  exact ⟨r_data, hdata, heq⟩

theorem ar_taken_le_run (conf : Config) (mem : ℕ → BitVec 8) (s : Sys) (is : List Inputs) :
    s.ar_taken ≤ (Sync.run (Sys.step conf mem) s is).ar_taken := by
  induction is generalizing s with
  | nil => exact le_refl _
  | cons i is ih =>
      refine le_trans ?_ (ih _)
      unfold Sys.step
      cases posedge conf mem s.slave i with
      | none => exact le_refl _
      | some slave => exact Nat.le_add_right _ _

/-- When nothing is to come, every beat that was asked for is on the lines. -/
theorem ReadInv.of_load (h : ReadInv conf J mem rs s) (hload : s.slave.reads.load = 0) :
    s.r_driven.length = Progress.total Read.n_beats (rs.take s.ar_taken) := by
  unfold Reads.load at hload
  -- no load means that nothing is under way
  have hflight : s.slave.reads.in_flight_read_requests = [] :=
    List.length_eq_zero_iff.mp (by omega)
  have hr_beats : s.slave.reads.axi_driver_slv.r_beats = [] :=
    List.length_eq_zero_iff.mp (by omega)
  have har_beats : s.slave.reads.axi_driver_slv.ar_beats = [] := by
    cases hbeats : s.slave.reads.axi_driver_slv.ar_beats with
    | nil => rfl
    | cons ar rest =>
        rw [hbeats] at hload
        simp at hload
  have harrived : s.slave.reads.arrived mem s.r_driven = s.r_driven := by
    simp [Reads.arrived, hflight, hr_beats]
  have hle := h.reads.arrived_le
  have hqueue := h.reads.ar_beats
  rw [harrived] at hle hqueue
  -- if a beat were missing, its address would still be in the queue
  by_contra hne
  obtain ⟨rd, q, hplace⟩ := Progress.place_of_lt (show s.r_driven.length
    < Progress.total Read.n_beats (rs.take s.ar_taken) by omega)
  obtain ⟨rest, hnow, -⟩ := Progress.queue_at_succ Read.entry
    (fun rd _ => Read.n_beats_pos rd) hplace
  rw [← hqueue, har_beats] at hnow
  exact absurd hnow (by simp)

/-- Once a read is taken and no more come, all its beats come. -/
theorem ReadInv.all_come (hws : ∀ w ∈ ws, w.Valid) (hrs : ∀ rd ∈ rs, Read.Valid rd)
    (hinv : Inv conf ws s) (h : ReadInv conf J mem rs s) (hj : j < s.ar_taken) : ∃ n, ∀ is,
      Sync.Allowed (Sys.step conf mem) (fun s i => FairReads ws rs s i ∧ J i.r_data) s is →
        n ≤ is.length → Progress.total Read.n_beats (rs.take (j + 1))
          ≤ (Sync.run (Sys.step conf mem) s is).r_driven.length := by
  refine ⟨1 + s.slave.reads.gap conf + conf.pcie_L + s.slave.reads.load, fun is ha hn => ?_⟩
  have hline : DelayLine.Empties (read_line conf) conf.pcie_L
      (fun s => Inv conf ws s ∧ ReadInv conf J mem rs s) (Sys.step conf mem)
      (fun s i => FairReads ws rs s i ∧ J i.r_data) := read_line_empties hws hrs
  obtain ⟨⟨-, hread⟩, hload⟩ :=
    hline.leads_to _ _ s is ⟨⟨hinv, h⟩, le_refl _, le_refl _⟩ ha hn
  rw [hread.of_load hload]
  have hmono := ar_taken_le_run conf mem s is
  exact Progress.total_le_of_prefix (List.take_prefix_take_left (by omega))

/-- Reads of lines are answered, in every state. -/
theorem ReadInv.answered (hws : ∀ w ∈ ws, w.Valid) (hrs : ∀ rd ∈ rs, Read.Valid rd)
    (hinv : Inv conf ws s) (h : ReadInv conf (fun _ => True) mem rs s) (hj : rs[j]? = some rd)
    (hlines : Read.Lines rd) : Answered conf mem ws rs j rd s := by
  have hrd : Read.Valid rd := hrs rd (List.mem_of_getElem? hj)
  refine ⟨?_, ?_, ?_⟩
  · have hle := h.reads.arrived_le
    unfold Reads.arrived at hle
    simp only [List.length_append] at hle
    omega
  · intro q beat hq hbeat
    obtain ⟨r_data, -, rfl⟩ := h.beat_eq hj hq hbeat
    exact ⟨hrd.carries hq (hrd.read_lines_iff.mp hlines q hq), rfl, rfl⟩
  · intro htaken
    obtain ⟨n, hn⟩ := h.all_come hws hrs hinv htaken
    exact ⟨n, fun is ha hle => hn is (ha.mono fun _ _ hf => ⟨hf, trivial⟩) hle⟩

/-! A slave that has just one read. -/

/-- A cycle of a master that has only reads to do. -/
def read_cycle (ar_valid : Option (axi_ax_beat_t 64)) (sim_time : ℕ) : Inputs :=
  ⟨none, none, true, ar_valid, true, sim_time, fun _ => 0⟩

theorem read_cycle_follows (s : Sys) (ar_valid : Option (axi_ax_beat_t 64)) (n : ℕ) :
    s.Follows ws (read_cycle ar_valid n) := fun h => absurd h (by simp [read_cycle])

/-- All beats of one read come on the lines, whatever is in memory. -/
theorem exists_answer (conf : Config) (mem : ℕ → BitVec 8) (hrd : Read.Valid rd)
    (h : ∀ s, Sync.Reach init (Sys.step conf mem) (fun s i => s.Allowed [] [rd] i) s →
      Answered conf mem [] [rd] 0 rd s) (hq : q ≤ (Read.burst rd).len) :
    (Read.burst rd).Carries 6 q mem (lanes (fill mem (Read.request rd q fun _ => 0))) := by
  have hws : ∀ w ∈ ([] : List write_t), w.Valid := by simp
  have hrs : ∀ rd' ∈ [rd], Read.Valid rd' := fun rd' hrd' => List.mem_singleton.mp hrd' ▸ hrd
  have hincr : ∀ rd' ∈ [rd], rd'.ax_burst = AXI_BURST_INCR := fun rd' hrd' => (hrs rd' hrd').incr
  -- the read is taken in the first cycle
  let s₀ : Sys := ⟨reset 0 0 0 0 0, 0, 0, 0, [], [], 0⟩
  have hinit : s₀.init := ⟨0, 0, 0, 0, 0, rfl⟩
  have hallowed : s₀.Allowed [] [rd] (read_cycle (some rd) 0) :=
    ⟨Or.inl rfl, Or.inl rfl, read_cycle_follows _ _ _, Or.inr rfl, le_refl _⟩
  obtain ⟨slave, hslave, -, hreads, -⟩ := (init_inv hinit).observe mem hws hincr hallowed
  have hstep : s₀.step conf mem (read_cycle (some rd) 0)
      = s₀.observe (read_cycle (some rd) 0) slave := by
    unfold Sys.step
    rw [hslave]
  generalize hs : s₀.step conf mem (read_cycle (some rd) 0) = s at hstep
  have hreach : Sync.Reach init (Sys.step conf mem)
      (fun s i => s.Allowed [] [rd] i ∧ i.r_data = fun _ => 0) s := by
    rw [← hs]
    exact .clock (.reset hinit) ⟨hallowed, rfl⟩
  have htaken : 0 < s.ar_taken := by
    rw [hstep]
    show 0 < s₀.ar_taken + slave.reads.axi_driver_slv.ar_ready.toNat
    rw [Reads.posedge_ar_ready conf hreads]
    exact Nat.zero_lt_one
  obtain ⟨n, hn⟩ := (h s (hreach.mono fun _ _ ha => ha.1)).all htaken
  have hfair : ∀ s, ∃ i, FairReads [] [rd] s i ∧ i.r_data = fun _ => 0 := by
    intro s
    exact ⟨read_cycle none (s.now + 1), ⟨⟨Or.inl rfl, Or.inl rfl, read_cycle_follows _ _ _,
      Or.inl rfl, Nat.le_succ _⟩, rfl, rfl, Nat.lt_succ_self _⟩, rfl⟩
  obtain ⟨is, his, hlen⟩ := Sync.exists_allowed (Sys.step conf mem) hfair n s
  have hall := hn is (his.mono fun _ _ hf => hf.1) hlen.ge
  have hend := hreach.run (his.mono fun _ _ hf => ⟨hf.1.allowed, hf.2⟩)
  have hlt : q < (Sync.run (Sys.step conf mem) s is).r_driven.length := by
    refine (Nat.lt_succ_of_le hq).trans_le (le_trans ?_ hall)
    simp [Progress.total, Read.n_beats]
  obtain ⟨beat, hget⟩ : ∃ beat, (Sync.run (Sys.step conf mem) s is).r_driven[q]? = some beat :=
    ⟨_, List.getElem?_eq_getElem hlt⟩
  have hbeat : (Sync.run (Sys.step conf mem) s is).r_driven[
      Progress.total Read.n_beats ([rd].take 0) + q]? = some beat := by
    rw [List.take_zero, Progress.total, List.map_nil, List.sum_nil, Nat.zero_add, hget]
  obtain ⟨-, hread⟩ := reach_read_inv (J := fun r_data => r_data = fun _ => 0) hws hrs hend
  obtain ⟨r_data, rfl, heq⟩ := hread.beat_eq rfl hq hbeat
  obtain ⟨hcarries, -⟩ := (h _ (hend.mono fun _ _ ha => ha.1)).beats q _ hq hbeat
  rw [heq] at hcarries
  exact hcarries

end Answer

/-- **The exact condition.** In all runs, with any other reads and writes around it and whatever
is in memory, a read is answered as AXI wants it exactly when it starts with a line and has one
beat, or whole lines. -/
theorem answered_iff {rd : axi_ax_beat_t 64} (hrd : Read.Valid rd) :
    (∀ conf mem ws rs j s, (∀ w ∈ ws, w.Valid) → (∀ rd ∈ rs, Read.Valid rd) → rs[j]? = some rd →
      Sync.Reach init (Sys.step conf mem) (fun s i => s.Allowed ws rs i) s →
        Answered conf mem ws rs j rd s) ↔ Read.Lines rd := by
  constructor
  · intro h
    refine hrd.read_lines_iff.mpr fun q hq => hrd.line_of_carries hq ?_
    refine exists_answer ⟨0, fun _ => 0⟩ _ hrd (fun s hs => ?_) hq
    exact h _ _ [] [rd] 0 s (by simp) (by simpa using hrd) rfl hs
  · intro hlines conf mem ws rs j s hws hrs hj hs
    obtain ⟨hinv, hread⟩ := reach_read_inv (J := fun _ => True) hws hrs
      (hs.mono fun _ _ ha => ⟨ha, trivial⟩)
    exact hread.answered hws hrs hinv hj hlines

/-- A read of one beat. -/
def single_read (addr : BitVec 64) (size : BitVec 8) : axi_ax_beat_t 64 :=
  ⟨⟨addr, 0, size, AXI_BURST_INCR⟩, 7, 0, 0⟩

theorem answered_iff_demo : Read.Valid (single_read 64 2) ∧ ∀ conf mem ws rs j s,
    (∀ w ∈ ws, w.Valid) → (∀ rd ∈ rs, Read.Valid rd) → rs[j]? = some (single_read 64 2) →
      Sync.Reach init (Sys.step conf mem) (fun s i => s.Allowed ws rs i) s →
        Answered conf mem ws rs j (single_read 64 2) s := by
  have hvalid : Read.Valid (single_read 64 2) := ⟨rfl, by decide⟩
  exact ⟨hvalid, (answered_iff hvalid).mpr (by decide)⟩

/-- The bytes of an address in the middle of a line come on the first lanes. -/
theorem first_lanes : Read.Valid (single_read 4 2) ∧ ¬ ∀ conf mem ws rs j s,
    (∀ w ∈ ws, w.Valid) → (∀ rd ∈ rs, Read.Valid rd) → rs[j]? = some (single_read 4 2) →
      Sync.Reach init (Sys.step conf mem) (fun s i => s.Allowed ws rs i) s →
        Answered conf mem ws rs j (single_read 4 2) s := by
  have hvalid : Read.Valid (single_read 4 2) := ⟨rfl, by decide⟩
  refine ⟨hvalid, fun h => ?_⟩
  let rd := single_read 4 2
  let step := Sys.step ⟨0, fun _ => 0⟩ fun a => BitVec.ofNat 8 a
  let s₀ : Sys := ⟨reset 0 0 0 0 0, 0, 0, 0, [], [], 0⟩
  let s₁ := step s₀ (read_cycle (some rd) 0)
  have hs₀ : Sync.Reach init step (fun s i => s.Allowed [] [rd] i) s₀ := .reset ⟨0, 0, 0, 0, 0, rfl⟩
  have hs₁ : Sync.Reach init step (fun s i => s.Allowed [] [rd] i) s₁ :=
    .clock hs₀ ⟨Or.inl rfl, Or.inl rfl, read_cycle_follows _ _ _, Or.inr rfl, le_refl _⟩
  have hs₂ := Sync.Reach.clock hs₁ (i := read_cycle none 1)
    ⟨Or.inl rfl, Or.inl rfl, read_cycle_follows _ _ _, Or.inl rfl, Nat.zero_le _⟩
  have hbeats := (h _ _ [] [rd] 0 _ (by simp) (by simpa [rd] using hvalid) rfl hs₂).beats 0
  have hlane : (step s₁ (read_cycle none 1)).r_driven[0]?.map (fun beat => lanes beat 4)
      = some 0 := by decide
  obtain ⟨beat, hbeat, hzero⟩ := Option.map_eq_some_iff.mp hlane
  obtain ⟨hcarries, -⟩ := hbeats beat (Nat.zero_le _) hbeat
  have hfour : lanes beat 4 = 4 := hcarries 4 (by decide)
  rw [hzero] at hfour
  exact absurd hfour (by decide)

end Sys

end Pspin.PcieSlave
