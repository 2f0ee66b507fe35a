/-
`AXIMaster`: reads and writes over an AXI port.

A write is split into bursts. Its Ax beats and data beats wait in the pending queues until
the owner moves them on (`send_aw_beat`, `send_w_beat`), and leave at rising edges. A
response takes one from the count of bursts of the oldest write; the one that takes the
last completes it. Reads go the same way, with a response for every beat and the count
taken at the last beat of a burst.

A failing `assert` ends the simulation, so the functions that assert return `none` there.
A size of 0 makes a buffer unbounded.
-/
import Mathlib.Data.Bool.Basic
import Mathlib.Data.Nat.Bitwise
import Pspin.AxiDriver
import Pspin.BurstMarks

set_option autoImplicit false

namespace Pspin.AxiMaster

open AxiDriver

/-- A write that is not complete: the bursts whose response is missing. -/
structure axi_b_queue_entry_t where
  n_bursts : BitVec 32
deriving DecidableEq

/-- A read that is not complete: the bytes and the bursts that are missing. -/
structure axi_r_queue_entry_t where
  data_left : BitVec 32
  n_bursts : BitVec 32
deriving DecidableEq

/-- A read beat, cut to the bytes that belong to the read. -/
structure axi_r_buffered_t where
  data_length : ℕ
  data : ℕ → BitVec 8
  is_last : Bool

/-- The queues, and the lines that the master drives. -/
structure State (AW : ℕ) where
  aw_queue : List (axi_ax_beat_t AW)
  w_queue : List axi_w_beat_t
  r_queue : List axi_r_buffered_t
  write_queue : List axi_b_queue_entry_t
  read_queue : List axi_r_queue_entry_t
  ar_queue : List (axi_ax_beat_t AW)
  b_queue : List Bool
  aw_pending_queue : List (axi_ax_beat_t AW)
  ar_pending_queue : List (axi_ax_beat_t AW)
  w_pending_queue : List axi_w_beat_t
  aw_wait : Bool
  ar_wait : Bool
  w_wait : Bool
  aw_beats_buffer_size : ℕ
  w_beats_buffer_size : ℕ
  b_beats_buffer_size : ℕ
  ar_beats_buffer_size : ℕ
  r_beats_buffer_size : ℕ
  /-- The beat on the lines of a channel, while valid. -/
  aw_valid : Option (axi_ax_beat_t AW)
  ar_valid : Option (axi_ax_beat_t AW)
  w_valid : Option axi_w_beat_t
  b_ready : Bool
  r_ready : Bool

/-- What the master reads at a rising edge. -/
structure Responses where
  b_valid : Bool
  r_valid : Bool
  r_last : Bool
  r_data : ℕ → BitVec 8

/-- What it reads at a falling edge. -/
structure Readies where
  aw_ready : Bool
  ar_ready : Bool
  w_ready : Bool

variable {AW : ℕ}

/-- The constructor: all queues are empty. -/
def reset : State AW where
  aw_queue := []
  w_queue := []
  r_queue := []
  write_queue := []
  read_queue := []
  ar_queue := []
  b_queue := []
  aw_pending_queue := []
  ar_pending_queue := []
  w_pending_queue := []
  aw_wait := false
  ar_wait := false
  w_wait := false
  aw_beats_buffer_size := 0
  w_beats_buffer_size := 0
  b_beats_buffer_size := 0
  ar_beats_buffer_size := 0
  r_beats_buffer_size := 0
  aw_valid := none
  ar_valid := none
  w_valid := none
  b_ready := false
  r_ready := false

/-! ## The pending queues -/

/-- A size of 0 stands for a buffer without bound. -/
def has_room (size length : ℕ) : Bool := size == 0 || decide (length < size)

/-- An address beat of a write waits to be sent. -/
def has_aw_beat (s : State AW) : Bool := !s.aw_pending_queue.isEmpty
/-- The driver's buffer takes it. -/
def can_send_aw_beat (s : State AW) : Bool := has_room s.aw_beats_buffer_size s.aw_queue.length
/-- An address beat of a read waits. -/
def has_ar_beat (s : State AW) : Bool := !s.ar_pending_queue.isEmpty
def can_send_ar_beat (s : State AW) : Bool := has_room s.ar_beats_buffer_size s.ar_queue.length
def has_w_beat (s : State AW) : Bool := !s.w_pending_queue.isEmpty
def can_send_w_beat (s : State AW) : Bool := has_room s.w_beats_buffer_size s.w_queue.length

/-- The first one moves to the buffer. -/
def send_aw_beat (s : State AW) : State AW :=
  { s with
    aw_queue := s.aw_queue ++ s.aw_pending_queue.take 1
    aw_pending_queue := s.aw_pending_queue.tail }

def send_ar_beat (s : State AW) : State AW :=
  { s with
    ar_queue := s.ar_queue ++ s.ar_pending_queue.take 1
    ar_pending_queue := s.ar_pending_queue.tail }

def send_w_beat (s : State AW) : State AW :=
  { s with
    w_queue := s.w_queue ++ s.w_pending_queue.take 1
    w_pending_queue := s.w_pending_queue.tail }

/-! ## Responses -/

/-- A read beat can be taken. -/
def has_r_beat (s : State AW) : Bool := !s.r_queue.isEmpty

/-- Up to `data_length` bytes, whether the read is complete, and the state. -/
def consume_r_beat (s : State AW) (data_length : ℕ) : Option (ℕ × (ℕ → BitVec 8) × Bool × State AW) :=
  match s.r_queue with
  | [] => none
  | r :: rest => some (min data_length r.data_length, r.data, r.is_last, { s with r_queue := rest })

def has_b_beat (s : State AW) : Bool := !s.b_queue.isEmpty

/-- Whether the response completes a write. -/
def consume_b_beat (s : State AW) : Bool × State AW :=
  (s.b_queue.headD false, { s with b_queue := s.b_queue.tail })

/-! ## Writes and reads -/

/-- The bytes that beat `i_beat` of a burst takes from the data. -/
def beat_size (bs : beat_and_size_t AW) (i_beat : ℕ) : ℕ :=
  min (beat_upper_byte bs.beat i_beat bs.n_bytes - beat_lower_byte bs.beat i_beat).toNat bs.n_bytes

/-- Beat `i_beat` of a burst; the data of the burst begins at `data`, and
`burst_bytes_written` of its bytes are in the beats before. -/
def w_beat (bs : beat_and_size_t AW) (data : ℕ → BitVec 8) (burst_bytes_written i_beat : ℕ) :
    axi_w_beat_t :=
  let lower_byte := (beat_lower_byte bs.beat i_beat).toNat
  let upper_byte := (beat_upper_byte bs.beat i_beat bs.n_bytes).toNat
  { w_data := fun k => if lower_byte ≤ k.val ∧ k.val < lower_byte + beat_size bs i_beat
      then data (burst_bytes_written + (k.val - lower_byte)) else 0
    w_strb := BitVec.ofNat AXI_SW (Nat.ofBits fun k : Fin AXI_SW =>
      decide (lower_byte ≤ k.val) && decide (k.val < upper_byte)
        && decide (burst_bytes_written < bs.n_bytes))
    w_last := i_beat == bs.beat.ax_len.toNat }

/-- The data beats of a burst, from beat `i_beat` on, and the bytes that they hold. -/
def w_beats (bs : beat_and_size_t AW) (data : ℕ → BitVec 8) :
    ℕ → ℕ → ℕ → List axi_w_beat_t × ℕ
  | 0, _, burst_bytes_written => ([], burst_bytes_written)
  | n + 1, i_beat, burst_bytes_written =>
    let (beats, bytes) := w_beats bs data n (i_beat + 1) (burst_bytes_written + beat_size bs i_beat)
    (w_beat bs data burst_bytes_written i_beat :: beats, bytes)

/-- The data beats of all bursts, and the bytes that they hold. -/
def write_beats (data : ℕ → BitVec 8) : List (beat_and_size_t AW) → ℕ → List axi_w_beat_t × ℕ
  | [], bytes_written => ([], bytes_written)
  | bs :: rest, bytes_written =>
    let (burst, burst_bytes_written) :=
      w_beats bs (fun k => data (bytes_written + k)) (bs.beat.ax_len.toNat + 1) 0 0
    let (beats, bytes) := write_beats data rest (bytes_written + burst_bytes_written)
    (burst ++ beats, bytes)

/-- `write`: the bursts of the transfer and their data. The assertion at its end compares the bytes
that the beats took with those that were asked for. -/
def write (s : State AW) (addr : BitVec AW) (data : ℕ → BitVec 8) (n_bytes offset : ℕ) :
    Option (State AW) :=
  let aw_beats := create_ax_beats addr n_bytes
  let (beats, bytes_written) := write_beats (fun k => data (offset + k)) aw_beats 0
  -- the assertion that the beats hold all of the data
  if bytes_written = n_bytes then
    some { s with
      write_queue := s.write_queue ++ [⟨BitVec.ofNat 32 aw_beats.length⟩]
      aw_pending_queue := s.aw_pending_queue ++ aw_beats.map (·.beat)
      w_pending_queue := s.w_pending_queue ++ beats }
  else none

/-- `read`: the bursts of the transfer. -/
def read (s : State AW) (addr : BitVec AW) (n_bytes : ℕ) : State AW :=
  let ar_beats := create_ax_beats addr n_bytes
  { s with
    read_queue := s.read_queue ++ [⟨BitVec.ofNat 32 n_bytes, BitVec.ofNat 32 ar_beats.length⟩]
    ar_pending_queue := s.ar_pending_queue ++ ar_beats.map (·.beat) }

/-! ## Edges -/

/-- At the rising edge the next beat is driven, unless the last one was not taken. -/
def aw_posedge (s : State AW) : State AW :=
  if s.aw_wait then s
  else { s with aw_valid := s.aw_queue.head?, aw_queue := s.aw_queue.tail }

def ar_posedge (s : State AW) : State AW :=
  if s.ar_wait then s
  else { s with ar_valid := s.ar_queue.head?, ar_queue := s.ar_queue.tail }

def w_posedge (s : State AW) : State AW :=
  if s.w_wait then s
  else { s with w_valid := s.w_queue.head?, w_queue := s.w_queue.tail }

/-- A write response. One that belongs to no write fails the assertion. -/
def b_posedge (s : State AW) (i : Responses) : Option (State AW) :=
  if i.b_valid && has_room s.b_beats_buffer_size s.b_queue.length then
    match s.write_queue with
    | [] => none
    | entry :: rest =>
      -- the last response of a write completes it
      let n_bursts := entry.n_bursts - 1
      let is_complete := n_bursts == 0
      some { s with
        b_ready := true
        write_queue := if is_complete then rest else ⟨n_bursts⟩ :: rest
        b_queue := s.b_queue ++ [is_complete] }
  else some s

/-- A read beat. One that belongs to no read fails the assertion. -/
def r_posedge (s : State AW) (i : Responses) : Option (State AW) :=
  if i.r_valid && has_room s.r_beats_buffer_size s.r_queue.length then
    match s.read_queue with
    | [] => none
    | entry :: rest =>
      let data_size := min AXI_SW entry.data_left.toNat
      let completed_burst := if i.r_last then 1 else 0
      let n_bursts := entry.n_bursts - completed_burst
      let is_complete := n_bursts == 0
      some { s with
        r_ready := true
        read_queue := if is_complete then rest
          else ⟨entry.data_left - BitVec.ofNat 32 data_size, n_bursts⟩ :: rest
        r_queue := s.r_queue ++ [⟨data_size, i.r_data, is_complete⟩] }
  else some s

/-- The rising edge: all five channels. -/
def posedge (s : State AW) (i : Responses) : Option (State AW) :=
  (b_posedge (w_posedge (ar_posedge (aw_posedge s))) i).bind fun s' => r_posedge s' i

/-- The falling edge: a beat that was not taken is driven once more. -/
def negedge (s : State AW) (i : Readies) : State AW :=
  { s with
    aw_wait := s.aw_valid.isSome && !i.aw_ready
    ar_wait := s.ar_valid.isSome && !i.ar_ready
    w_wait := s.w_valid.isSome && !i.w_ready }

/-! ## What an edge does to the writes -/

/-- The bursts that the writes in flight still wait for. -/
def write_counts (s : State AW) : List ℕ := s.write_queue.map fun entry => entry.n_bursts.toNat

/-- The bursts that the reads in flight still wait for. -/
def read_counts (s : State AW) : List ℕ := s.read_queue.map fun entry => entry.n_bursts.toNat

section Edges

variable {s s' : State AW} {i : Responses}

/-- The read channel changes nothing but its own queues. -/
theorem r_posedge_frame (h : r_posedge s i = some s') : ∃ r_ready read_queue r_queue,
    s' = { s with r_ready := r_ready, read_queue := read_queue, r_queue := r_queue } := by
  rw [r_posedge] at h
  by_cases hr : (i.r_valid && has_room s.r_beats_buffer_size s.r_queue.length) = true
  · rw [if_pos hr] at h
    cases hq : s.read_queue with
    | nil =>
      rw [hq] at h
      exact absurd h (by simp)
    | cons entry rest =>
      rw [hq] at h
      exact ⟨_, _, _, (Option.some.inj h).symm⟩
  · rw [if_neg hr] at h
    exact ⟨s.r_ready, s.read_queue, s.r_queue, (Option.some.inj h).symm⟩

/-- A count of bursts that goes down by one. -/
theorem toNat_sub_one {n : BitVec 32} (hpos : 0 < n.toNat) : (n - 1).toNat = n.toNat - 1 := by
  have hlt := n.isLt
  bv_omega

theorem sub_one_eq_zero {n : BitVec 32} (hpos : 0 < n.toNat) :
    (n - 1 == 0) = decide (n.toNat = 1) := by
  rw [Bool.eq_iff_iff, beq_iff_eq, decide_eq_true_eq, ← BitVec.toNat_inj, toNat_sub_one hpos]
  show n.toNat - 1 = 0 ↔ _
  omega

/-- **A response.** It takes the first mark of the writes in flight. -/
theorem b_posedge_response (hsize : s.b_beats_buffer_size = 0) (hvalid : i.b_valid = true)
    (hpos : ∀ n ∈ write_counts s, 0 < n) (hne : BurstMarks.marks (write_counts s) ≠ []) :
    ∃ b_ready write_queue mark, b_posedge s i
        = some { s with b_ready := b_ready, write_queue := write_queue, b_queue := s.b_queue ++ [mark] }
      ∧ BurstMarks.marks (write_counts s)
        = mark :: BurstMarks.marks (write_queue.map fun entry => entry.n_bursts.toNat)
      ∧ ∀ n ∈ write_queue.map fun entry => entry.n_bursts.toNat, 0 < n := by
  unfold b_posedge write_counts at *
  rw [hvalid, hsize]
  cases hq : s.write_queue with
  | nil =>
    rw [hq] at hne
    exact absurd rfl hne
  | cons entry rest =>
    rw [hq, List.map_cons] at hpos
    obtain ⟨hentry, hrest⟩ := List.forall_mem_cons.mp hpos
    refine ⟨true, _, _, rfl, ?_, ?_⟩
    · rw [List.map_cons, BurstMarks.marks_cons hentry, sub_one_eq_zero hentry]
      congr 2
      -- the last burst of a write takes its entry off the queue
      by_cases hone : entry.n_bursts.toNat = 1
      · rw [if_pos hone, decide_eq_true hone, if_pos rfl]
      · rw [if_neg hone, decide_eq_false hone, if_neg Bool.false_ne_true, List.map_cons,
          toNat_sub_one hentry]
    · rw [sub_one_eq_zero hentry]
      by_cases hone : entry.n_bursts.toNat = 1
      · rw [decide_eq_true hone, if_pos rfl]
        exact hrest
      · rw [decide_eq_false hone, if_neg Bool.false_ne_true, List.map_cons, toNat_sub_one hentry]
        exact List.forall_mem_cons.mpr ⟨by omega, hrest⟩

/-- Without a response nothing happens. -/
theorem b_posedge_idle (hvalid : i.b_valid = false) : b_posedge s i = some s := by
  rw [b_posedge, hvalid]
  rfl

/-- A rising edge on the side of the writes, up to the responses. -/
def before_responses (s : State AW) : State AW := w_posedge (ar_posedge (aw_posedge s))

/-- Driving beats changes nothing but the drivers. -/
theorem before_responses_frame (s : State AW) : ∃ aw_valid ar_valid w_valid w_queue,
    before_responses s = { s with
      aw_valid := aw_valid
      aw_queue := if s.aw_wait then s.aw_queue else s.aw_queue.tail
      ar_valid := ar_valid
      ar_queue := if s.ar_wait then s.ar_queue else s.ar_queue.tail
      w_valid := w_valid
      w_queue := w_queue } := by
  -- each channel writes its own fields only, whichever branch it takes
  have haw : ∀ s : State AW, ∃ aw_valid, aw_posedge s = { s with
      aw_valid := aw_valid, aw_queue := if s.aw_wait then s.aw_queue else s.aw_queue.tail } := by
    intro s
    unfold aw_posedge
    split_ifs
    · exact ⟨s.aw_valid, rfl⟩
    · exact ⟨_, rfl⟩
  have har : ∀ s : State AW, ∃ ar_valid, ar_posedge s = { s with
      ar_valid := ar_valid, ar_queue := if s.ar_wait then s.ar_queue else s.ar_queue.tail } := by
    intro s
    unfold ar_posedge
    split_ifs
    · exact ⟨s.ar_valid, rfl⟩
    · exact ⟨_, rfl⟩
  have hw : ∀ s : State AW, ∃ w_valid w_queue,
      w_posedge s = { s with w_valid := w_valid, w_queue := w_queue } := by
    intro s
    unfold w_posedge
    split_ifs
    · exact ⟨s.w_valid, s.w_queue, rfl⟩
    · exact ⟨_, _, rfl⟩
  obtain ⟨w_valid, w_queue, heqw⟩ := hw (ar_posedge (aw_posedge s))
  obtain ⟨ar_valid, heqar⟩ := har (aw_posedge s)
  obtain ⟨aw_valid, heqaw⟩ := haw s
  refine ⟨aw_valid, ar_valid, w_valid, w_queue, ?_⟩
  rw [before_responses, heqw, heqar, heqaw]

/-- In particular it leaves the writes alone. -/
theorem before_responses_writes (s : State AW) :
    (before_responses s).b_beats_buffer_size = s.b_beats_buffer_size
      ∧ write_counts (before_responses s) = write_counts s := by
  obtain ⟨_, _, _, _, hbefore⟩ := before_responses_frame s
  rw [hbefore]
  exact ⟨rfl, rfl⟩

section Writes

variable {ns : List ℕ} {r : ℕ}

/-- A response that is due finds a write that waits for it. -/
theorem b_posedge_isSome (hsize : s.b_beats_buffer_size = 0)
    (hout : BurstMarks.Outstanding ns r (write_counts s)) (hdue : i.b_valid = true → r < ns.sum) :
    (b_posedge (before_responses s) i).isSome = true := by
  obtain ⟨hsize', hcounts⟩ := before_responses_writes s
  by_cases hvalid : i.b_valid = true
  · obtain ⟨_, _, _, hb, -, -⟩ := b_posedge_response (hsize'.trans hsize) hvalid
      (hcounts ▸ hout.left_pos) (hcounts ▸ hout.waits (hdue hvalid))
    rw [hb]
    rfl
  · rw [b_posedge_idle (Bool.eq_false_of_not_eq_true hvalid)]
    rfl

/-- **A rising edge, for the writes.** The oldest Ax beat leaves, unless it waits. Responses
that are due are queued, with the marks of the writes they belong to. -/
theorem posedge_writes (hsize : s.b_beats_buffer_size = 0)
    (hout : BurstMarks.Outstanding ns r (write_counts s)) (hdue : i.b_valid = true → r < ns.sum)
    (h : posedge s i = some s') :
    s'.b_beats_buffer_size = 0
      ∧ s'.aw_queue = (if s.aw_wait then s.aw_queue else s.aw_queue.tail)
      ∧ s'.aw_pending_queue = s.aw_pending_queue
      ∧ ∃ queued, s'.b_queue = s.b_queue ++ queued
        ∧ queued.length = (if i.b_valid then 1 else 0)
        ∧ BurstMarks.Outstanding ns (r + queued.length) (write_counts s')
        ∧ BurstMarks.completed ns (r + queued.length)
          = BurstMarks.completed ns r + queued.count true := by
  obtain ⟨_, _, _, _, hbefore⟩ := before_responses_frame s
  obtain ⟨hsize', hcounts⟩ := before_responses_writes s
  obtain ⟨s₁, hb₁, hr⟩ := Option.bind_eq_some_iff.mp h
  have hb₁ : b_posedge (before_responses s) i = some s₁ := hb₁
  -- the read channel and the drivers leave the write queues alone
  obtain ⟨_, _, _, rfl⟩ := r_posedge_frame hr
  by_cases hvalid : i.b_valid = true
  · obtain ⟨_, write_queue, m, heq, hmarks, hpos⟩ := b_posedge_response (hsize'.trans hsize) hvalid
      (hcounts ▸ hout.left_pos) (hcounts ▸ hout.waits (hdue hvalid))
    obtain rfl := Option.some.inj (hb₁.symm.trans heq)
    obtain ⟨hout', hcompleted⟩ := hout.answer (hcounts ▸ hmarks) hpos
    refine ⟨hsize'.trans hsize, by rw [hbefore], by rw [hbefore], [m], by rw [hbefore], ?_, hout', ?_⟩
    · rw [if_pos hvalid, List.length_singleton]
    · rw [List.length_singleton, hcompleted]
      cases m <;> rfl
  · rw [b_posedge_idle (Bool.eq_false_of_not_eq_true hvalid)] at hb₁
    obtain rfl := Option.some.inj hb₁
    refine ⟨hsize'.trans hsize, by rw [hbefore], by rw [hbefore], [], ?_, ?_, hcounts ▸ hout, rfl⟩
    · rw [hbefore, List.append_nil]
    · rw [if_neg hvalid, List.length_nil]

end Writes

section Reads

/-- A response changes nothing but the queues of the writes. -/
theorem b_posedge_frame (h : b_posedge s i = some s') : ∃ b_ready write_queue b_queue,
    s' = { s with b_ready := b_ready, write_queue := write_queue, b_queue := b_queue } := by
  rw [b_posedge] at h
  by_cases hb : (i.b_valid && has_room s.b_beats_buffer_size s.b_queue.length) = true
  · rw [if_pos hb] at h
    cases hq : s.write_queue with
    | nil =>
      rw [hq] at h
      exact absurd h (by simp)
    | cons entry rest =>
      rw [hq] at h
      exact ⟨_, _, _, (Option.some.inj h).symm⟩
  · rw [if_neg hb] at h
    exact ⟨s.b_ready, s.write_queue, s.b_queue, (Option.some.inj h).symm⟩

/-- The entry of a read after a response, and whether the read is complete. -/
def after_response (entry : axi_r_queue_entry_t) (r_last : Bool) : axi_r_queue_entry_t × Bool :=
  let n_bursts := entry.n_bursts - if r_last then 1 else 0
  (⟨entry.data_left - BitVec.ofNat 32 (min AXI_SW entry.data_left.toNat), n_bursts⟩, n_bursts == 0)

/-- **A rising edge, for the reads.** The oldest Ax beat leaves, unless it waits. A response
belongs to the oldest read. -/
theorem posedge_reads (hsize : s.r_beats_buffer_size = 0) (h : posedge s i = some s') :
    s'.r_beats_buffer_size = 0
      ∧ s'.ar_queue = (if s.ar_wait then s.ar_queue else s.ar_queue.tail)
      ∧ s'.ar_pending_queue = s.ar_pending_queue
      ∧ (i.r_valid = false → s'.r_queue = s.r_queue ∧ s'.read_queue = s.read_queue)
      ∧ (i.r_valid = true → ∃ entry rest, s.read_queue = entry :: rest
        ∧ s'.read_queue = (if (after_response entry i.r_last).2 then rest
          else (after_response entry i.r_last).1 :: rest)
        ∧ s'.r_queue = s.r_queue ++
          [⟨min AXI_SW entry.data_left.toNat, i.r_data, (after_response entry i.r_last).2⟩]) := by
  obtain ⟨_, _, _, _, hbefore⟩ := before_responses_frame s
  obtain ⟨s₁, hb, hr⟩ := Option.bind_eq_some_iff.mp h
  have hb : b_posedge (before_responses s) i = some s₁ := hb
  rw [hbefore] at hb
  obtain ⟨_, _, _, rfl⟩ := b_posedge_frame hb
  unfold r_posedge at hr
  by_cases hvalid : i.r_valid = true
  · rw [hvalid, hsize, has_room, beq_self_eq_true, Bool.true_or, Bool.true_and, if_pos rfl] at hr
    -- a beat with no read to belong to ends the simulation
    cases hq : s.read_queue with
    | nil =>
      rw [hq] at hr
      exact absurd hr (by simp)
    | cons entry rest =>
      rw [hq] at hr
      obtain rfl := Option.some.inj hr
      refine ⟨rfl, rfl, rfl, fun hno => absurd (hvalid.symm.trans hno) (by decide), fun _ => ?_⟩
      exact ⟨entry, rest, rfl, rfl, rfl⟩
  · have hoff := Bool.eq_false_of_not_eq_true hvalid
    rw [hoff, Bool.false_and, if_neg Bool.false_ne_true] at hr
    obtain rfl := Option.some.inj hr
    exact ⟨hsize, rfl, rfl, fun _ => ⟨rfl, rfl⟩, fun hyes => absurd hyes hvalid⟩

/-- An edge goes well when every response finds a write or a read. -/
theorem posedge_isSome_of (hb : i.b_valid = true → s.write_queue ≠ [])
    (hr : i.r_valid = true → s.read_queue ≠ []) : (posedge s i).isSome = true := by
  obtain ⟨_, _, _, _, hbefore⟩ := before_responses_frame s
  have hbsome : (b_posedge (before_responses s) i).isSome = true := by
    rw [b_posedge]
    by_cases hvalid : (i.b_valid && has_room (before_responses s).b_beats_buffer_size
        (before_responses s).b_queue.length) = true
    · have hqueue : (before_responses s).write_queue = s.write_queue := by rw [hbefore]
      rw [if_pos hvalid, hqueue]
      cases hq : s.write_queue with
      | nil => exact absurd hq (hb (Bool.and_eq_true_iff.mp hvalid).1)
      | cons entry rest => rfl
    · rw [if_neg hvalid]
      rfl
  obtain ⟨s₁, hs₁⟩ := Option.isSome_iff_exists.mp hbsome
  obtain ⟨_, _, _, hframe⟩ := b_posedge_frame hs₁
  rw [posedge, ← before_responses, hs₁, Option.bind_some, r_posedge]
  by_cases hvalid : (i.r_valid && has_room s₁.r_beats_buffer_size s₁.r_queue.length) = true
  · have hqueue : s₁.read_queue = s.read_queue := by rw [hframe, hbefore]
    rw [if_pos hvalid, hqueue]
    cases hq : s.read_queue with
    | nil => exact absurd hq (hr (Bool.and_eq_true_iff.mp hvalid).1)
    | cons entry rest => rfl
  · rw [if_neg hvalid]
    rfl

/-- An edge goes well when nothing is written and a response finds a read. -/
theorem posedge_isSome (hb : i.b_valid = false) (hr : i.r_valid = true → s.read_queue ≠ []) :
    (posedge s i).isSome = true :=
  posedge_isSome_of (fun hyes => absurd (hb.symm.trans hyes) Bool.false_ne_true) hr

end Reads

/-- What a write adds: an entry with its bursts, and the beats that are to be sent. -/
theorem write_spec {addr : BitVec AW} {data : ℕ → BitVec 8} {n_bytes offset : ℕ}
    (h : write s addr data n_bytes offset = some s') : ∃ w_pending_queue,
      s' = { s with
        write_queue := s.write_queue ++ [⟨BitVec.ofNat 32 (create_ax_beats addr n_bytes).length⟩]
        aw_pending_queue := s.aw_pending_queue ++ (create_ax_beats addr n_bytes).map (·.beat)
        w_pending_queue := w_pending_queue } := by
  unfold write at h
  simp only at h
  split_ifs at h
  exact ⟨_, (Option.some.inj h).symm⟩

end Edges

end Pspin.AxiMaster
