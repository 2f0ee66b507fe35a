/-
`PCIeMaster`: reads and writes of NIC memory by the host.

Requests go to an AXI master; a read keeps the caller's buffer and the offset of the next
line in it. Every beat of data advances the offset by a line before the beat is consumed,
under the assertion that the line ends before the buffer does, and the beat that completes
the read must find the offset at the end of the buffer.

The two assertions are about the same value and contradict each other, so no read is ever
completed (`never_completed`).

The counts of bytes for the statistics are left out. A failing `assert` ends the
simulation, so the functions that assert return `none` there.
-/
import Pspin.AxiReads

set_option autoImplicit false

namespace Pspin.PcieMaster

open AxiDriver (AXI_SW)
open AxiMaster (Responses Readies)
open AxiReads (read_t)
open AxiReads.Sys (Inv)
open AxiIncr (Answers)

variable {AW : ℕ}

/-- A write that waits for its completion. -/
structure write_descr_t where
  user_ptr : ℕ
deriving DecidableEq

/-- A read in flight; `data` is the address of the caller's buffer. -/
structure read_descr_t where
  data : ℕ
  offset : BitVec 32
  len : ℕ
  user_ptr : ℕ
deriving DecidableEq

/-- The master, with the bytes it has written to buffers of the host and the pointers it has
called back with. -/
structure State (AW : ℕ) where
  axi_driver : AxiMaster.State AW
  in_flight_reads : List read_descr_t
  in_flight_writes : List write_descr_t
  host_bytes : List (ℕ × BitVec 8)
  read_cbs : List ℕ
  write_cbs : List ℕ

def reset : State AW := ⟨AxiMaster.reset, [], [], [], [], []⟩

/-! ## Requests -/

/-- `nic_mem_write`: the master writes the data and remembers who asked. -/
def nic_mem_write (s : State AW) (nic_mem_addr : BitVec 32) (data : ℕ → BitVec 8) (len user_ptr : ℕ) :
    Option (State AW) :=
  (AxiMaster.write s.axi_driver (nic_mem_addr.setWidth AW) data (len % 2 ^ 32) 0).map fun axi =>
    { s with axi_driver := axi, in_flight_writes := s.in_flight_writes ++ [⟨user_ptr⟩] }

/-- `nic_mem_read`: the master reads, and where the data go is remembered. -/
def nic_mem_read (s : State AW) (nic_mem_addr : BitVec 32) (data len user_ptr : ℕ) : State AW :=
  { s with
    axi_driver := AxiMaster.read s.axi_driver (nic_mem_addr.setWidth AW) (len % 2 ^ 32)
    in_flight_reads := s.in_flight_reads ++ [⟨data, 0, len, user_ptr⟩] }

/-! ## Edges -/

/-- One beat of each channel moves to the driver. -/
def progress_axi_writes (s : State AW) : State AW :=
  let axi := s.axi_driver
  let axi := if AxiMaster.has_aw_beat axi && AxiMaster.can_send_aw_beat axi then
    AxiMaster.send_aw_beat axi else axi
  let axi := if AxiMaster.has_w_beat axi && AxiMaster.can_send_w_beat axi then
    AxiMaster.send_w_beat axi else axi
  { s with axi_driver := axi }

/-- And one of the read addresses. -/
def progress_axi_reads (s : State AW) : State AW :=
  let axi := s.axi_driver
  { s with axi_driver :=
      if AxiMaster.has_ar_beat axi && AxiMaster.can_send_ar_beat axi then
        AxiMaster.send_ar_beat axi else axi }

/-- A write that is complete is reported to who asked. -/
def progress_axi_write_responses (s : State AW) : Option (State AW) :=
  if !AxiMaster.has_b_beat s.axi_driver then some s
  else
    let (write_completed, axi) := AxiMaster.consume_b_beat s.axi_driver
    let s := { s with axi_driver := axi }
    if !write_completed then some s
    else
      match s.in_flight_writes with
      | [] => none
      | write_descr :: rest =>
        some { s with
          write_cbs := s.write_cbs ++ [write_descr.user_ptr]
          in_flight_writes := rest }

/-- A read beat is copied to its read. The assertion compares what arrived with the whole read,
before the beat counts. -/
def progress_axi_read_responses (s : State AW) : Option (State AW) :=
  if !AxiMaster.has_r_beat s.axi_driver then some s
  else
    let length := AXI_SW
    match s.in_flight_reads with
    | [] => none
    | read_descr :: rest =>
      let offset := read_descr.offset + BitVec.ofNat 32 length
      -- the line must end before the buffer
      if offset.toNat < read_descr.len then
        let dest_ptr := read_descr.data + read_descr.offset.toNat
        match AxiMaster.consume_r_beat s.axi_driver length with
        | none => none
        | some (length, data, read_complete, axi) =>
          let s := { s with
            axi_driver := axi
            host_bytes := s.host_bytes ++ AxiIncr.stretch dest_ptr length data }
          if read_complete then
            -- a complete read must have filled it
            if offset.toNat = read_descr.len then
              some { s with
                read_cbs := s.read_cbs ++ [read_descr.user_ptr]
                in_flight_reads := rest }
            else none
          else some { s with in_flight_reads := { read_descr with offset := offset } :: rest }
      else none

def posedge (s : State AW) (i : Responses) : Option (State AW) :=
  let s := progress_axi_reads (progress_axi_writes s)
  (AxiMaster.posedge s.axi_driver i).bind fun axi =>
    (progress_axi_write_responses { s with axi_driver := axi }).bind progress_axi_read_responses

def negedge (s : State AW) (i : Readies) : State AW :=
  { s with axi_driver := AxiMaster.negedge s.axi_driver i }

/-! ## The assertions of a read -/

section Assertions

variable {s s' : State AW}

/-- **No call completes a read.** The offset that passed the first assertion is in front of
the end of the buffer, and the last one wants it there. -/
theorem read_responses_spec (h : progress_axi_read_responses s = some s') :
    s'.read_cbs = s.read_cbs ∧ s'.in_flight_writes = s.in_flight_writes
      ∧ ((AxiMaster.has_r_beat s.axi_driver = false ∧ s' = s)
        ∨ ∃ length data axi, AxiMaster.consume_r_beat s.axi_driver AXI_SW
          = some (length, data, false, axi) ∧ s'.axi_driver = axi) := by
  unfold progress_axi_read_responses at h
  by_cases hbeat : AxiMaster.has_r_beat s.axi_driver = true
  · rw [hbeat] at h
    simp only [Bool.not_true, Bool.false_eq_true, ↓reduceIte] at h
    cases hq : s.in_flight_reads with
    | nil => simp [hq] at h
    | cons read_descr rest =>
        simp only [hq] at h
        -- a first beat of a long read: it is consumed, and the driver must not call it complete
        by_cases hfirst : (read_descr.offset + BitVec.ofNat 32 AXI_SW).toNat < read_descr.len
        · rw [if_pos hfirst] at h
          cases hr : AxiMaster.consume_r_beat s.axi_driver AXI_SW with
          | none => simp [hr] at h
          | some r =>
              obtain ⟨length, data, read_complete, axi⟩ := r
              simp only [hr, if_neg (Nat.ne_of_lt hfirst)] at h
              cases read_complete with
              | true => exact absurd h (by simp)
              | false =>
                  obtain rfl := Option.some.inj h
                  exact ⟨rfl, rfl, Or.inr ⟨length, data, axi, rfl, rfl⟩⟩
        · -- a read that one beat completes ends in the assertion
          rw [if_neg hfirst] at h
          exact absurd h (by simp)
  · -- no beat, nothing happens
    have hno := Bool.eq_false_of_not_eq_true hbeat
    rw [hno] at h
    obtain rfl := Option.some.inj h
    exact ⟨rfl, rfl, Or.inl ⟨hno, rfl⟩⟩

/-- Completing a write has no part in the reads. -/
theorem write_responses_spec (h : progress_axi_write_responses s = some s') :
    s'.read_cbs = s.read_cbs ∧ s'.in_flight_reads = s.in_flight_reads
      ∧ (s'.axi_driver = s.axi_driver ∨ s'.axi_driver = (AxiMaster.consume_b_beat s.axi_driver).2) := by
  unfold progress_axi_write_responses at h
  simp only at h
  split_ifs at h
  · obtain rfl := Option.some.inj h
    exact ⟨rfl, rfl, Or.inl rfl⟩
  · obtain rfl := Option.some.inj h
    exact ⟨rfl, rfl, Or.inr rfl⟩
  · split at h
    · exact absurd h (by simp)
    · obtain rfl := Option.some.inj h
      exact ⟨rfl, rfl, Or.inr rfl⟩

end Assertions

/-! ## The system -/

/-- A call of `nic_mem_read`. -/
structure request_t where
  nic_mem_addr : BitVec 32
  data : ℕ
  len : ℕ
  user_ptr : ℕ
deriving DecidableEq

/-- The read that the request makes on the bus. -/
def request_t.read (AW : ℕ) (r : request_t) : read_t AW :=
  ⟨r.nic_mem_addr.setWidth AW, r.len % 2 ^ 32⟩

/-- What can happen: a request of the host, or an edge. -/
inductive op_t
  | nic_mem_read (r : request_t)
  | nic_mem_write (nic_mem_addr : BitVec 32) (data : ℕ → BitVec 8) (len user_ptr : ℕ)
  | posedge (i : Responses)
  | negedge (i : Readies)

/-- The master, the requests so far, and what was on the bus: the Ax beats driven and the
number of beats of data. -/
structure Sys (AW : ℕ) where
  master : State AW
  requests : List request_t
  ar_driven : List (AxiDriver.axi_ax_beat_t AW)
  received : ℕ
  failed : Bool

namespace Sys

/-- The side of the bus, as far as it concerns the reads. -/
def bus (s : Sys AW) (delivered : List (List (BitVec 8) × Bool)) : AxiReads.Sys AW :=
  ⟨s.master.axi_driver, s.requests.map (·.read AW), s.ar_driven, s.received, delivered⟩

/-- A call or an edge. After a failed assertion nothing happens any more. -/
def step (s : Sys AW) (op : op_t) : Sys AW :=
  if s.failed then s
  else
    match op with
    | .nic_mem_read r =>
      { s with
        master := nic_mem_read s.master r.nic_mem_addr r.data r.len r.user_ptr
        requests := s.requests ++ [r] }
    | .nic_mem_write nic_mem_addr data len user_ptr =>
      match nic_mem_write s.master nic_mem_addr data len user_ptr with
      | none => { s with failed := true }
      | some master => { s with master := master }
    | .posedge i =>
      let axi := (progress_axi_reads (progress_axi_writes s.master)).axi_driver
      let s := { s with
        ar_driven := s.ar_driven ++ if axi.ar_wait then [] else axi.ar_queue.take 1
        received := s.received + i.r_valid.toNat }
      match posedge s.master i with
      | none => { s with failed := true }
      | some master => { s with master := master }
    | .negedge i => { s with master := negedge s.master i }

def init (s : Sys AW) : Prop := s = ⟨reset, [], [], 0, false⟩

/-- Reads have bytes and stay in the address space. The slave answers writes that there are,
and reads in order with what is in memory. -/
def allowed (mem : ℕ → BitVec 8) (s : Sys AW) : op_t → Prop
  | .nic_mem_read r => (r.read AW).Valid ∧ r.len < 2 ^ 32
  | .nic_mem_write .. => True
  | .posedge i => (i.b_valid = true → s.master.axi_driver.write_queue ≠ [])
    ∧ (i.r_valid = true → Answers 6 mem (s.bus []).accepted s.received i.r_data i.r_last)
  | .negedge _ => True

/-- All beats of data have come. -/
def Answered (s : Sys AW) : Prop :=
  s.received = Progress.total read_t.n_r_beats (s.requests.map (·.read AW))

/-- What a caller expects then: no assertion has failed, one call back for each request, in
order, and the buffers written, each with its bytes and none beyond. -/
structure Served (s : Sys AW) : Prop where
  asserts : s.failed = false
  read_cbs : s.master.read_cbs = s.requests.map (·.user_ptr)
  host_bytes : s.master.host_bytes.map (·.1)
    = s.requests.flatMap fun r => List.range' r.data r.len

/-! ## Every run -/

/-- As long as no assertion has failed, the first read waits for a beat. -/
structure Waiting (mem : ℕ → BitVec 8) (s : Sys AW) : Prop where
  bus : ∃ delivered, Inv mem (s.bus delivered)
  r_queue : s.master.axi_driver.r_queue = []
  first : ∀ r ∈ s.requests.head?, s.received < (r.read AW).n_r_beats

/-- No read has been reported, and as long as no assertion failed all of them wait. -/
structure SysInv (mem : ℕ → BitVec 8) (s : Sys AW) : Prop where
  read_cbs : s.master.read_cbs = []
  waiting : s.failed = false → Waiting mem s

variable {s : Sys AW} {op : op_t} {mem : ℕ → BitVec 8}

theorem init_inv (h : init s) : SysInv mem s := by
  obtain rfl := h
  refine ⟨rfl, fun _ => ⟨⟨[], ?_⟩, rfl, fun r hr => absurd hr (by simp)⟩⟩
  exact AxiReads.Sys.init_inv ⟨0, 0, 0, 0, rfl⟩

/-- What moves to the port before an edge is nothing to the answers. -/
theorem progress_inv {bus : AxiReads.Sys AW} {master : State AW} (h : Inv mem bus)
    (haxi : bus.axi = master.axi_driver) :
    Inv mem { bus with axi := (progress_axi_reads (progress_axi_writes master)).axi_driver } := by
  obtain ⟨axi, reads, ar_driven, received, delivered⟩ := bus
  obtain rfl : axi = master.axi_driver := haxi
  have hwrites : Inv mem ⟨(progress_axi_writes master).axi_driver, reads, ar_driven, received,
      delivered⟩ := by
    unfold progress_axi_writes
    simp only
    split_ifs <;> exact h.congr rfl rfl rfl rfl rfl
  unfold progress_axi_reads
  simp only
  split_ifs
  · exact hwrites.send_ar_beat
  · exact hwrites

/-- Moving beats to the driver changes nothing but the pending queues. -/
theorem progress_frame (master : State AW) :
    (progress_axi_reads (progress_axi_writes master)).axi_driver.write_queue
        = master.axi_driver.write_queue
      ∧ (progress_axi_reads (progress_axi_writes master)).axi_driver.ar_wait
        = master.axi_driver.ar_wait
      ∧ (progress_axi_reads (progress_axi_writes master)).axi_driver.r_queue
        = master.axi_driver.r_queue
      ∧ (progress_axi_reads (progress_axi_writes master)).read_cbs = master.read_cbs := by
  refine ⟨?_, ?_, ?_, ?_⟩ <;> unfold progress_axi_reads progress_axi_writes <;> simp only <;>
    split_ifs <;> rfl

/-- The Ax beats on the lines once an edge is over. -/
def driven (s : Sys AW) : List (AxiDriver.axi_ax_beat_t AW) :=
  s.ar_driven ++ if (progress_axi_reads (progress_axi_writes s.master)).axi_driver.ar_wait then []
    else (progress_axi_reads (progress_axi_writes s.master)).axi_driver.ar_queue.take 1

/-- The edge of the AXI master: the beat that comes is the only one in its queue. -/
theorem Waiting.axi_edge (hAW : 6 < AW) (h : Waiting mem s) {i : Responses}
    (ha : allowed mem s (.posedge i)) {axi : AxiMaster.State AW}
    (haxi : AxiMaster.posedge (progress_axi_reads (progress_axi_writes s.master)).axi_driver i
      = some axi) :
    ∃ delivered, delivered.length = s.received ∧ axi.r_queue.length = i.r_valid.toNat
      ∧ Inv mem ⟨axi, s.requests.map (·.read AW), s.driven, s.received + i.r_valid.toNat,
        delivered⟩ := by
  obtain ⟨delivered, hbus⟩ := h.bus
  obtain ⟨hwq, hwait, -, -⟩ := progress_frame s.master
  have hmoved := progress_inv hbus rfl
  -- what the environment promises of the port is what the driver asks for
  have hallowed : AxiReads.Sys.allowed mem
      ({ s.bus delivered with axi := (progress_axi_reads (progress_axi_writes s.master)).axi_driver } :
        AxiReads.Sys AW) (.posedge i) := by
    refine ⟨fun hv => ?_, fun hv => ?_⟩
    · show (progress_axi_reads (progress_axi_writes s.master)).axi_driver.write_queue ≠ []
      rw [hwq]
      exact ha.1 hv
    · unfold AxiReads.Sys.accepted
      simp only
      rw [hwait]
      exact ha.2 hv
  have hedge : Inv mem ⟨axi, s.requests.map (·.read AW), s.driven, s.received + i.r_valid.toNat,
      delivered⟩ := by
    have hinv := hmoved.posedge hAW hallowed
    simp only [AxiReads.Sys.step, haxi, Option.getD_some] at hinv
    exact hinv
  -- every beat received is delivered or in the queue, which was empty
  have hnow := hedge.length_arrived
  have hbefore := hbus.length_arrived
  simp only [AxiReads.Sys.arrived, Sys.bus, h.r_queue, List.map_nil, List.append_nil,
    List.length_append, List.length_map] at hnow hbefore
  exact ⟨delivered, hbefore, by omega, hedge⟩

/-- A beat that completes nothing is not the last one of the first read. -/
theorem beat_not_last {bus : AxiReads.Sys AW} (h : Inv mem bus) {r : AxiMaster.axi_r_buffered_t}
    (hqueue : bus.axi.r_queue = [r]) (hlast : (AxiReads.Sys.item r).2 = false) {rd : read_t AW}
    (hhead : bus.reads[0]? = some rd) (hfirst : bus.delivered.length < rd.n_r_beats) :
    bus.delivered.length + 1 < rd.n_r_beats := by
  have hat : bus.arrived[bus.delivered.length]? = some (AxiReads.Sys.item r) := by
    rw [AxiReads.Sys.arrived, hqueue, List.map_singleton, List.getElem?_concat_length]
  obtain ⟨rd', q, hplace, hitem⟩ := h.items _ _ hat
  -- the beats of the first read are numbered from zero
  have hstart := Progress.place_start hhead hfirst
  rw [List.take_zero, Progress.total, List.map_nil, List.sum_nil, Nat.zero_add] at hstart
  obtain ⟨rfl, rfl⟩ := Prod.mk.inj (Option.some.inj (hstart.symm.trans hplace))
  have hnot := hitem.complete
  rw [hlast, eq_comm, decide_eq_false_iff_not] at hnot
  omega

/-- **A rising edge** that fails no assertion handles the beat it brings, and this beat is not
the last one of the first read. -/
theorem Waiting.posedge (hAW : 6 < AW) (h : Waiting mem s) {i : Responses}
    (ha : allowed mem s (.posedge i)) {master : State AW}
    (hp : PcieMaster.posedge s.master i = some master) : Waiting mem
      { s with master := master, ar_driven := s.driven, received := s.received + i.r_valid.toNat } := by
  unfold PcieMaster.posedge at hp
  simp only at hp
  obtain ⟨axi, haxi, hresp⟩ := Option.bind_eq_some_iff.mp hp
  obtain ⟨m₁, hb, hr⟩ := Option.bind_eq_some_iff.mp hresp
  obtain ⟨delivered, hdelivered, hlength, hedge⟩ := h.axi_edge hAW ha haxi
  -- the answer to a write
  obtain ⟨-, -, hdriver⟩ := write_responses_spec hb
  have hsame : m₁.axi_driver.r_queue = axi.r_queue := by
    rcases hdriver with heq | heq
    · rw [heq]
    · rw [heq]
      rfl
  have hm₁ : Inv mem ⟨m₁.axi_driver, s.requests.map (·.read AW), s.driven,
      s.received + i.r_valid.toNat, delivered⟩ := by
    rcases hdriver with heq | heq <;> rw [heq]
    · exact hedge
    · exact hedge.congr rfl rfl rfl rfl rfl
  rw [← hsame] at hlength
  -- the beat of data
  obtain ⟨-, -, hcase⟩ := read_responses_spec hr
  rcases hcase with ⟨hno, rfl⟩ | ⟨length, data, axi₂, hconsume, hmaster⟩
  · have hempty : master.axi_driver.r_queue = [] := by
      rw [AxiMaster.has_r_beat, Bool.not_eq_false', List.isEmpty_iff] at hno
      exact hno
    have hzero : i.r_valid.toNat = 0 := by
      rw [← hlength, hempty]
      rfl
    refine ⟨⟨delivered, hm₁⟩, hempty, fun r hr => ?_⟩
    show s.received + i.r_valid.toNat < _
    rw [hzero]
    exact h.first r hr
  · have hstep := hm₁.consume_r_beat (le_refl AXI_SW)
    unfold AxiMaster.consume_r_beat at hconsume
    cases hq : m₁.axi_driver.r_queue with
    | nil => simp [hq] at hconsume
    | cons r rest =>
        simp only [hq, Option.some.injEq, Prod.mk.injEq] at hconsume
        obtain ⟨-, -, hlast, rfl⟩ := hconsume
        rw [hq, List.length_cons] at hlength
        have hle := Bool.toNat_le i.r_valid
        obtain rfl : rest = [] := List.eq_nil_of_length_eq_zero (by omega)
        have hone : i.r_valid.toNat = 1 := by omega
        simp only [AxiReads.Sys.step, AxiMaster.consume_r_beat, hq] at hstep
        refine ⟨⟨delivered ++ [((List.range (min AXI_SW r.data_length)).map r.data, r.is_last)], ?_⟩,
          ?_, fun rq hrq => ?_⟩
        · unfold Sys.bus
          simp only
          rw [hmaster]
          exact hstep
        · show master.axi_driver.r_queue = []
          rw [hmaster]
        · show s.received + i.r_valid.toNat < _
          have hhead : (s.requests.map (·.read AW))[0]? = some (rq.read AW) := by
            rw [List.getElem?_map, ← List.head?_eq_getElem?, hrq]
            rfl
          have hfirst : delivered.length < (rq.read AW).n_r_beats := by
            rw [hdelivered]
            exact h.first rq hrq
          have hnext := beat_not_last hm₁ hq hlast hhead hfirst
          rw [hone, ← hdelivered]
          exact hnext

/-- **A request** is put behind the others. If it is the first of all, nothing has come for it. -/
theorem Waiting.nic_mem_read (h : Waiting mem s) {r : request_t}
    (hvalid : (r.read AW).Valid) : Waiting mem
      { s with
        master := PcieMaster.nic_mem_read s.master r.nic_mem_addr r.data r.len r.user_ptr
        requests := s.requests ++ [r] } := by
  obtain ⟨delivered, hbus⟩ := h.bus
  refine ⟨⟨delivered, ?_⟩, h.r_queue, fun r' hr' => ?_⟩
  · have hread := hbus.read hvalid
    simp only [AxiReads.Sys.step, Sys.bus] at hread
    unfold Sys.bus PcieMaster.nic_mem_read
    simp only [List.map_append, List.map_singleton]
    exact hread
  · cases hreq : s.requests with
    | nil =>
        have hle := hbus.received_le
        simp only [Sys.bus, hreq, List.map_nil, Progress.total, List.sum_nil] at hle
        simp only [hreq, List.nil_append, List.head?_cons, Option.mem_some_iff] at hr'
        obtain rfl := hr'
        have hpos := hvalid.beats_pos
        show s.received < _
        omega
    | cons r₀ rest =>
        rw [hreq] at hr'
        exact h.first r' (by rw [hreq]; exact hr')

/-- An edge calls nobody back. -/
theorem posedge_read_cbs {m m' : State AW} {i : Responses} (h : PcieMaster.posedge m i = some m') :
    m'.read_cbs = m.read_cbs := by
  rw [PcieMaster.posedge] at h
  obtain ⟨axi, -, hresp⟩ := Option.bind_eq_some_iff.mp h
  obtain ⟨m₁, hb, hr⟩ := Option.bind_eq_some_iff.mp hresp
  rw [(read_responses_spec hr).1, (write_responses_spec hb).1]
  exact (progress_frame m).2.2.2

/-- **A call or an edge.** -/
theorem step_inv (hAW : 6 < AW) (h : SysInv mem s) (ha : allowed mem s op) :
    SysInv mem (step s op) := by
  unfold step
  -- once an assertion has failed nothing happens any more
  cases hfailed : s.failed with
  | true => exact h
  | false =>
      have hwait := h.waiting hfailed
      simp only [Bool.false_eq_true, ↓reduceIte]
      cases op with
      | nic_mem_read r =>
          refine ⟨h.read_cbs, fun _ => ?_⟩
          have hread := hwait.nic_mem_read ha.1
          rw [hfailed] at hread
          exact hread
      -- a write leaves the reads alone
      | nic_mem_write nic_mem_addr data len user_ptr =>
          simp only
          cases hw : nic_mem_write s.master nic_mem_addr data len user_ptr with
          | none => exact ⟨h.read_cbs, fun hc => absurd hc (by simp)⟩
          | some master =>
              obtain ⟨axi, haxi, rfl⟩ := Option.map_eq_some_iff.mp hw
              obtain ⟨w_pending_queue, rfl⟩ := AxiMaster.write_spec haxi
              obtain ⟨delivered, hbus⟩ := hwait.bus
              exact ⟨h.read_cbs, fun _ => ⟨⟨delivered, hbus.congr rfl rfl rfl rfl rfl⟩,
                hwait.r_queue, hwait.first⟩⟩
      | posedge i =>
          simp only
          cases hp : PcieMaster.posedge s.master i with
          | none => exact ⟨h.read_cbs, fun hc => absurd hc (by simp)⟩
          | some master =>
              refine ⟨(posedge_read_cbs hp).trans h.read_cbs, fun _ => ?_⟩
              have hposedge := hwait.posedge hAW ha hp
              rw [hfailed] at hposedge
              exact hposedge
      | negedge i =>
          obtain ⟨delivered, hbus⟩ := hwait.bus
          exact ⟨h.read_cbs, fun _ => ⟨⟨delivered, hbus.congr rfl rfl rfl rfl rfl⟩,
            hwait.r_queue, hwait.first⟩⟩

/-- Every reachable state has the invariant. -/
theorem inv_reach (hAW : 6 < AW) (h : Sync.Reach init step (allowed mem) s) : SysInv mem s :=
  Sync.Reach.inv (P := SysInv mem) (fun _ hs => init_inv hs) (fun _ _ hi ha => step_inv hAW hi ha) h

/-- When all beats have come, the first read has had its own. -/
theorem n_r_beats_le_of_answered (h : Answered s) {r : request_t} (hr : r ∈ s.requests.head?) :
    (r.read AW).n_r_beats ≤ s.received := by
  cases hreq : s.requests with
  | nil => simp [hreq] at hr
  | cons r₀ rest =>
      simp only [hreq, List.head?_cons, Option.mem_some_iff] at hr
      obtain rfl := hr
      rw [h, hreq, List.map_cons, Progress.total_cons]
      exact Nat.le_add_right _ _

/-- **No read is ever completed.** In every run in which something is read, nobody is called
back, and an assertion has failed by the time the reads are answered. -/
theorem never_completed (hAW : 6 < AW) (h : Sync.Reach init step (allowed mem) s)
    (hne : s.requests ≠ []) :
    ¬ Served s ∧ s.master.read_cbs = [] ∧ (Answered s → s.failed = true) := by
  have hinv := inv_reach hAW h
  refine ⟨fun hserved => ?_, hinv.read_cbs, fun hanswered => ?_⟩
  · have hcbs := hserved.read_cbs
    rw [hinv.read_cbs] at hcbs
    exact hne (List.map_eq_nil_iff.mp hcbs.symm)
  · by_contra hnot
    obtain ⟨r, rest, hreq⟩ := List.exists_cons_of_ne_nil hne
    have hr : r ∈ s.requests.head? := by rw [hreq]; rfl
    have hfirst := (hinv.waiting (Bool.eq_false_of_not_eq_true hnot)).first r hr
    exact absurd (n_r_beats_le_of_answered hanswered hr) (Nat.not_le_of_lt hfirst)

/-! ## A run -/

def demo_start : Sys 32 := ⟨reset, [], [], 0, false⟩

/-- A line of the packet buffer is read; the answer is one beat. -/
def demo_ops : List op_t :=
  [.nic_mem_read ⟨0x1c100000#32, 0x1000, 64, 7⟩, .posedge ⟨false, false, false, fun _ => 0⟩,
    .negedge ⟨true, true, true⟩, .posedge ⟨false, true, true, fun _ => 0⟩]

theorem demo_reach : Sync.Reach init step (allowed fun _ => 0) (Sync.run step demo_start demo_ops) := by
  have hallowed : Sync.Allowed step (allowed fun _ => 0) demo_start demo_ops := by
    refine ⟨⟨by decide, by decide⟩, ⟨by simp, by simp⟩, trivial, ⟨by simp, fun _ => ?_⟩, trivial⟩
    exact ⟨⟨0x1c100000, 0, 6⟩, 0, by decide +kernel, by decide +kernel, rfl⟩
  have hstart : init demo_start := rfl
  exact Sync.Reach.run (.reset hstart) hallowed

theorem never_completed_demo : ¬ Served (Sync.run step demo_start demo_ops)
    ∧ (Sync.run step demo_start demo_ops).failed = true := by
  obtain ⟨hnot, -, hfailed⟩ := never_completed (by decide) demo_reach (by decide +kernel)
  exact ⟨hnot, hfailed (by unfold Answered; decide +kernel)⟩

/-- **A read of one line** fails the assertion in front of its only beat. -/
theorem line_not_served : ¬ ∀ (mem : ℕ → BitVec 8) (s : Sys 32),
    Sync.Reach init step (allowed mem) s → Answered s → Served s := by
  intro hall
  have hserved := hall _ _ demo_reach (by unfold Answered; decide +kernel)
  have hasserts := hserved.asserts
  revert hasserts
  decide +kernel

end Sys

end Pspin.PcieMaster
