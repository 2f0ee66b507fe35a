/-
What `AXIMaster::read` gives back.

Reads are requested at any time and answered in order by a slave that follows AXI: every
byte of a beat is on the lane of its address, and the other lanes hold anything. The master
counts the bytes of a read that are to come, 64 for every beat, and takes them from lane 0
on. `ar_driven` records the Ax beats that were on the lines, `received` counts the beats of
data, and `delivered` is what `consume_r_beat` has handed over.

Which beat completes a read is always right. The bytes are those in memory, in every run,
exactly when the address of the read is a multiple of 64 (`read_iff`).
-/
import Pspin.AxiMaster
import Pspin.AxiSplit
import Pspin.Progress
import Pspin.Sync

set_option autoImplicit false

namespace Pspin.AxiReads

open AxiDriver
open AxiMaster
open AxiIncr (Answers)

variable {AW : ℕ}

/-- A read that was asked for. -/
structure read_t (AW : ℕ) where
  addr : BitVec AW
  n_bytes : ℕ
deriving DecidableEq

namespace read_t

variable (rd : read_t AW)

/-- The bytes are in the address space, and their number in its type. -/
structure Valid : Prop where
  pos : 0 < rd.n_bytes
  lt : rd.n_bytes < 2 ^ 32
  inside : rd.addr.toNat + rd.n_bytes ≤ 2 ^ AW

instance : Decidable rd.Valid :=
  decidable_of_iff (0 < rd.n_bytes ∧ rd.n_bytes < 2 ^ 32 ∧ rd.addr.toNat + rd.n_bytes ≤ 2 ^ AW)
    ⟨fun ⟨h, h', h''⟩ => ⟨h, h', h''⟩, fun ⟨h, h', h''⟩ => ⟨h, h', h''⟩⟩

/-- The address beats of the read. -/
def ar_beats : List (axi_ax_beat_t AW) := (create_ax_beats rd.addr rd.n_bytes).map (·.beat)

def bursts : List AxiIncr.Burst := rd.ar_beats.map axi_ax_beat_t.incr

/-- The beats of data that answer the read. -/
def n_r_beats : ℕ := (AxiIncr.beats rd.bursts).length

/-- Which of them are the last of a burst. -/
def lasts : List Bool := (AxiIncr.beats rd.bursts).map fun x => decide (x.2 = x.1.len)

/-- What the master keeps of the read after `q` of its beats. -/
def entry (q : ℕ) : axi_r_queue_entry_t :=
  ⟨BitVec.ofNat 32 (rd.n_bytes - AXI_SW * q), BitVec.ofNat 32 ((rd.lasts.drop q).count true)⟩

/-- The bytes asked for. -/
def bytes (mem : ℕ → BitVec 8) : List (BitVec 8) :=
  (List.range rd.n_bytes).map fun k => mem (rd.addr.toNat + k)

/-- Those that beat `q` should bring. -/
def chunk (mem : ℕ → BitVec 8) (q : ℕ) : List (BitVec 8) :=
  (List.range (min AXI_SW (rd.n_bytes - AXI_SW * q))).map
    fun k => mem (rd.addr.toNat + AXI_SW * q + k)

end read_t

/-! ## The system -/

/-- The calls of the owner, and the edges. -/
inductive op_t (AW : ℕ)
  | read (rd : read_t AW)
  | write (addr : BitVec AW) (data : ℕ → BitVec 8) (n_bytes offset : ℕ)
  | send_aw_beat
  | send_ar_beat
  | send_w_beat
  | posedge (i : Responses)
  | negedge (i : Readies)
  | consume_r_beat (data_length : ℕ)
  | consume_b_beat

/-- The master with the reads that were asked for, and what it drove and received for them. -/
structure Sys (AW : ℕ) where
  axi : State AW
  reads : List (read_t AW)
  ar_driven : List (axi_ax_beat_t AW)
  received : ℕ
  delivered : List (List (BitVec 8) × Bool)

namespace Sys

variable (s : Sys AW)

/-- The bursts that the slave has taken: all on the lines so far, but for one that waits. -/
def accepted : List AxiIncr.Burst :=
  (if s.axi.ar_wait then s.ar_driven.dropLast else s.ar_driven).map axi_ax_beat_t.incr

/-- A call or an edge. A failed assertion in an edge leaves the master as it was, while the
beat on the lines is lost. -/
def step : op_t AW → Sys AW
  | .read rd => { s with axi := read s.axi rd.addr rd.n_bytes, reads := s.reads ++ [rd] }
  | .write addr data n_bytes offset =>
    { s with axi := (write s.axi addr data n_bytes offset).getD s.axi }
  | .send_aw_beat => { s with axi := send_aw_beat s.axi }
  | .send_ar_beat => { s with axi := send_ar_beat s.axi }
  | .send_w_beat => { s with axi := send_w_beat s.axi }
  | .posedge i =>
    { s with
      axi := (posedge s.axi i).getD s.axi
      ar_driven := s.ar_driven ++ if s.axi.ar_wait then [] else s.axi.ar_queue.take 1
      received := s.received + i.r_valid.toNat }
  | .negedge i => { s with axi := negedge s.axi i }
  | .consume_r_beat data_length =>
    match consume_r_beat s.axi data_length with
    | none => s
    | some (length, data, read_complete, axi) =>
      { s with
        axi := axi
        delivered := s.delivered ++ [((List.range length).map data, read_complete)] }
  | .consume_b_beat => { s with axi := (consume_b_beat s.axi).2 }

/-- Nobody gives the buffer of the data a size. -/
def init (s : Sys AW) : Prop :=
  ∃ aw ar w b, s = ⟨{ reset with
    aw_beats_buffer_size := aw
    ar_beats_buffer_size := ar
    w_beats_buffer_size := w
    b_beats_buffer_size := b }, [], [], 0, []⟩

/-- The owner asks before it sends or consumes, and takes whole beats. The slave answers
writes that there are, and reads in order with what is in memory. -/
def allowed (mem : ℕ → BitVec 8) (s : Sys AW) : op_t AW → Prop
  | .read rd => rd.Valid
  | .write .. => True
  | .send_aw_beat => has_aw_beat s.axi = true ∧ can_send_aw_beat s.axi = true
  | .send_ar_beat => has_ar_beat s.axi = true ∧ can_send_ar_beat s.axi = true
  | .send_w_beat => has_w_beat s.axi = true ∧ can_send_w_beat s.axi = true
  | .posedge i => (i.b_valid = true → s.axi.write_queue ≠ [])
    ∧ (i.r_valid = true → Answers 6 mem s.accepted s.received i.r_data i.r_last)
  | .negedge _ => True
  | .consume_r_beat data_length => has_r_beat s.axi = true ∧ AXI_SW ≤ data_length
  | .consume_b_beat => has_b_beat s.axi = true

/-- The beats delivered for read number `j`. -/
def answer (j : ℕ) (rd : read_t AW) : List (List (BitVec 8) × Bool) :=
  (s.delivered.drop (Progress.total read_t.n_r_beats (s.reads.take j))).take rd.n_r_beats

/-- The read is reported complete with its last beat only. -/
def Completes (j : ℕ) (rd : read_t AW) : Prop :=
  (s.answer j rd).map (·.2) = (BurstMarks.mark rd.n_r_beats).take (s.answer j rd).length

/-- The beats so far bring the first bytes asked for, and all beats bring all of them. -/
structure Brings (mem : ℕ → BitVec 8) (s : Sys AW) (j : ℕ) (rd : read_t AW) : Prop where
  first : (s.answer j rd).flatMap (·.1) <+: rd.bytes mem
  all : (s.answer j rd).length = rd.n_r_beats → (s.answer j rd).flatMap (·.1) = rd.bytes mem

end Sys

/-! ## The beats of a read -/

section Beats

variable {rd : read_t AW} {addr : BitVec AW} {n q i : ℕ} {b : AxiIncr.Burst}

theorem n_r_beats_eq (rd : read_t AW) :
    rd.n_r_beats = (burst_beats rd.addr rd.n_bytes).sum := by
  rw [read_t.n_r_beats, AxiIncr.length_beats, read_t.bursts, read_t.ar_beats, List.map_map,
    List.map_map]
  rfl

/-- A read has bursts, and each of them has beats. -/
theorem read_t.Valid.bursts_pos (h : rd.Valid) : burst_beats rd.addr rd.n_bytes ≠ []
    ∧ ∀ m ∈ burst_beats rd.addr rd.n_bytes, 0 < m :=
  burst_beats_pos h.pos

theorem read_t.Valid.beats_pos (h : rd.Valid) : 0 < rd.n_r_beats := by
  obtain ⟨hne, hpos⟩ := h.bursts_pos
  obtain ⟨m, hm⟩ := List.exists_mem_of_ne_nil _ hne
  rw [n_r_beats_eq]
  exact (hpos m hm).trans_le (List.le_sum_of_mem hm)

/-- The lines of all beats hold the bytes. -/
theorem n_bytes_le (rd : read_t AW) : rd.n_bytes ≤ AXI_SW * rd.n_r_beats := by
  rw [n_r_beats_eq]
  exact bytes_le_burst_beats

/-- The last beat of a burst is the one that its length names. -/
theorem marks_of_bursts (bs : List AxiIncr.Burst) :
    ((AxiIncr.beats bs).map fun x => decide (x.2 = x.1.len))
      = BurstMarks.marks (bs.map fun b => b.len + 1) := by
  induction bs with
  | nil => rfl
  | cons b bs ih =>
      rw [AxiIncr.beats_cons, List.map_append, ih, List.map_map, List.map_cons]
      have hmark : (List.range (b.len + 1)).map
          ((fun x : AxiIncr.Burst × ℕ => decide (x.2 = x.1.len)) ∘ fun i => (b, i))
          = BurstMarks.mark (b.len + 1) := by
        rw [BurstMarks.mark_eq_map (Nat.succ_pos _)]
        exact List.map_congr_left fun i _ => by simp
      rw [hmark]
      rfl

theorem lasts_eq (rd : read_t AW) : rd.lasts = BurstMarks.marks (burst_beats rd.addr rd.n_bytes) := by
  rw [read_t.lasts, marks_of_bursts, read_t.bursts, read_t.ar_beats, List.map_map, List.map_map]
  rfl

/-- The bursts that are to come. -/
theorem count_lasts (rd : read_t AW) :
    (rd.lasts.drop 0).count true = (create_ax_beats rd.addr rd.n_bytes).length := by
  rw [List.drop_zero, lasts_eq, BurstMarks.count_marks, burst_beats, List.length_map]

theorem length_lasts (rd : read_t AW) : rd.lasts.length = rd.n_r_beats := List.length_map _

/-- Until its last beat has come, a read waits for the last beat of some burst. -/
theorem read_t.Valid.count_drop (h : rd.Valid) (hq : q ≤ rd.n_r_beats) :
    (rd.lasts.drop q).count true = 0 ↔ q = rd.n_r_beats := by
  obtain ⟨l, hl⟩ := BurstMarks.marks_concat h.bursts_pos.1
  have hlasts : rd.lasts = l ++ [true] := (lasts_eq rd).trans hl
  have hlength := length_lasts rd
  rw [hlasts, List.length_append, List.length_singleton] at hlength
  constructor
  · intro hzero
    by_contra hne
    rw [hlasts, List.drop_append_of_le_length (by omega), List.count_append,
      List.count_singleton_self] at hzero
    omega
  · rintro rfl
    rw [← length_lasts, List.drop_length]
    rfl

/-- A beat that is the last of its burst takes one burst off. -/
theorem count_drop_succ {x : AxiIncr.Burst × ℕ} (h : (AxiIncr.beats rd.bursts)[q]? = some x) :
    (rd.lasts.drop q).count true
      = (rd.lasts.drop (q + 1)).count true + if decide (x.2 = x.1.len) then 1 else 0 := by
  have hget : rd.lasts[q]? = some (decide (x.2 = x.1.len)) := by
    rw [read_t.lasts, List.getElem?_map, h]
    rfl
  obtain ⟨hlt, heq⟩ := List.getElem?_eq_some_iff.mp hget
  rw [List.drop_eq_getElem_cons hlt, heq, List.count_cons]
  cases decide (x.2 = x.1.len) <;> rfl

/-- The bursts that are to come fit their counter. -/
theorem read_t.Valid.count_lt (h : rd.Valid) (q : ℕ) :
    (rd.lasts.drop q).count true < 2 ^ 32 := by
  have hle : (rd.lasts.drop q).count true ≤ (rd.lasts.drop 0).count true := by
    rw [List.drop_zero]
    exact (List.drop_sublist q _).count_le true
  have hbursts := count_lasts rd
  have hlength : (create_ax_beats rd.addr rd.n_bytes).length ≤ rd.n_bytes :=
    length_create_ax_beats_le
  have hlt := h.lt
  omega

/-- **An answer**, as the master counts: the entry goes on to the next beat, and the read is
complete after its last one. -/
theorem read_t.Valid.after_response (h : rd.Valid) {x : AxiIncr.Burst × ℕ}
    (hx : (AxiIncr.beats rd.bursts)[q]? = some x) :
    AxiMaster.after_response (rd.entry q) (decide (x.2 = x.1.len))
      = (rd.entry (q + 1), decide (q + 1 = rd.n_r_beats)) := by
  have hq : q < rd.n_r_beats := (List.getElem?_eq_some_iff.mp hx).1
  have hsucc := count_drop_succ hx
  have hlt := h.count_lt q
  have hlt' := h.count_lt (q + 1)
  have hdone := h.count_drop (Nat.succ_le_of_lt hq)
  have hn := h.lt
  -- the bytes that are left are those of the lines behind
  have hleft : (BitVec.ofNat 32 (rd.n_bytes - AXI_SW * q)).toNat = rd.n_bytes - AXI_SW * q := by
    rw [BitVec.toNat_ofNat, Nat.mod_eq_of_lt (by omega)]
  -- the count of bursts goes down with each last beat
  have hcount : BitVec.ofNat 32 ((rd.lasts.drop q).count true)
      - (if decide (x.2 = x.1.len) then 1 else 0)
      = BitVec.ofNat 32 ((rd.lasts.drop (q + 1)).count true) := by
    rw [hsucc]
    cases decide (x.2 = x.1.len)
    · simp
    · rw [if_pos rfl, if_pos rfl, BitVec.ofNat_add]
      exact BitVec.add_sub_cancel _ _
  -- it is zero after the last beat of the read
  have hzero : (BitVec.ofNat 32 ((rd.lasts.drop (q + 1)).count true) == 0)
      = decide (q + 1 = rd.n_r_beats) := by
    rw [Bool.eq_iff_iff, beq_iff_eq, decide_eq_true_eq, ← hdone, ← BitVec.toNat_inj,
      BitVec.toNat_ofNat, Nat.mod_eq_of_lt hlt']
    rfl
  unfold AxiMaster.after_response read_t.entry
  simp only
  rw [hcount, hzero, hleft]
  congr 2
  apply BitVec.eq_of_toNat_eq
  simp only [BitVec.toNat_sub, BitVec.toNat_ofNat]
  unfold AXI_SW
  omega

/-! An aligned read: beat `q` is the line `q`. -/

/-- In a page that begins at a line the beats are lines, one after the other. -/
theorem page_beat (hAW : 6 < AW) (hpos : 0 < n) (hle : addr.toNat + n ≤ 2 ^ AW)
    (hpage : addr.toNat % 4096 + n ≤ 4096) (haligned : addr.toNat % 64 = 0)
    (hq : q < (burst_at addr n).beat.incr.len + 1) :
    (burst_at addr n).beat.incr.beat_addr q = addr.toNat + 64 * q
      ∧ addr.toNat + 64 * q + min 64 (n - 64 * q) ≤ (burst_at addr n).beat.incr.beat_stop q
      ∧ (burst_at addr n).beat.incr.len + 1 = (n + 63) / 64 := by
  obtain ⟨-, haddr, hsize, hlen⟩ := burst_at_page addr hpos hpage
  have hincr : (burst_at addr n).beat.incr
      = ⟨addr.toNat, (addr.toNat + n - 1) / 64 - addr.toNat / 64, (ax_size_of addr n).toNat⟩ := by
    rw [axi_ax_beat_t.incr, haddr, hlen, hsize]
  rw [hincr] at hq ⊢
  simp only at hq ⊢
  by_cases hline : addr.toNat / 64 = (addr.toNat + n - 1) / 64
  · -- a single beat, which covers the bytes
    obtain ⟨-, hcovers, -, -⟩ := ax_size_of_line hAW hpos hle hline
    obtain rfl : q = 0 := by omega
    refine ⟨rfl, ?_, by omega⟩
    have hstop : AxiIncr.Burst.beat_stop ⟨addr.toNat,
        (addr.toNat + n - 1) / 64 - addr.toNat / 64, (ax_size_of addr n).toNat⟩ 0
        = beat_end addr.toNat (ax_size_of addr n).toNat := rfl
    rw [hstop]
    omega
  · obtain ⟨hsix, -⟩ := ax_size_of_lines hpos hle hline
    rw [hsix]
    refine ⟨?_, ?_, by omega⟩
    · unfold AxiIncr.Burst.beat_addr AxiIncr.Burst.aligned
      simp only
      split_ifs <;> omega
    · unfold AxiIncr.Burst.beat_stop AxiIncr.Burst.aligned
      simp only
      omega

theorem aligned_beat (hAW : 6 < AW) (hpos : 0 < n) (hle : addr.toNat + n ≤ 2 ^ AW)
    (haligned : addr.toNat % 64 = 0) : ∀ q b i,
    (AxiIncr.beats ((create_ax_beats addr n).map fun bs => bs.beat.incr))[q]? = some (b, i) →
      b.size ≤ 6 ∧ b.beat_addr i = addr.toNat + 64 * q
        ∧ addr.toNat + 64 * q + min 64 (n - 64 * q) ≤ b.beat_stop i := by
  revert haligned
  refine create_rounds_induction (P := fun addr n bursts => addr.toNat % 64 = 0 → ∀ q b i,
    (AxiIncr.beats (bursts.map fun bs => bs.beat.incr))[q]? = some (b, i) →
      b.size ≤ 6 ∧ b.beat_addr i = addr.toNat + 64 * q
        ∧ addr.toNat + 64 * q + min 64 (n - 64 * q) ≤ b.beat_stop i) ?_ ?_ hpos hle
  · intro addr n hpos hle hpage haligned q b i hbeat
    rw [List.map_singleton, AxiIncr.getElem?_beats_cons] at hbeat
    split_ifs at hbeat with hq
    · obtain ⟨rfl, rfl⟩ := Prod.mk.inj (Option.some.inj hbeat)
      obtain ⟨hstart, hstop, -⟩ := page_beat hAW hpos hle hpage haligned hq
      exact ⟨(burst_at_fits hAW hpos hle hpage).legal.size_le, hstart, hstop⟩
    · exact absurd hbeat (by simp [AxiIncr.beats])
  · intro addr n rest hle hpage hnext hrest haligned q b i hbeat
    have hpage_pos : 0 < bytes_in_page addr := bytes_in_page_pos
    have hin : addr.toNat % 4096 + bytes_in_page addr ≤ 4096 := by
      unfold bytes_in_page
      omega
    have hless : bytes_in_page addr < n := by
      unfold bytes_in_page
      omega
    -- the first page is left at the end of a line
    have hlines : bytes_in_page addr % 64 = 0 := by
      unfold bytes_in_page
      omega
    obtain ⟨-, -, hlen⟩ := page_beat (q := 0) hAW hpage_pos (by omega) hin haligned
      (Nat.succ_pos _)
    rw [List.map_cons, AxiIncr.getElem?_beats_cons] at hbeat
    split_ifs at hbeat with hq
    · obtain ⟨rfl, rfl⟩ := Prod.mk.inj (Option.some.inj hbeat)
      obtain ⟨hstart, hstop, -⟩ := page_beat hAW hpage_pos (by omega) hin haligned hq
      exact ⟨(burst_at_fits hAW hpage_pos (by omega) hin).legal.size_le, hstart, by omega⟩
    · obtain ⟨hsize, hstart, hstop⟩ := hrest (by omega) _ b i hbeat
      exact ⟨hsize, by omega, by omega⟩

/-- **What an aligned read gets.** The lanes from 0 on have the bytes of the line, as far as
they were asked for. -/
theorem read_t.Valid.chunk_of_carries (hAW : 6 < AW) (h : rd.Valid)
    (haligned : rd.addr.toNat % 64 = 0) {mem data : ℕ → BitVec 8}
    (hbeat : (AxiIncr.beats rd.bursts)[q]? = some (b, i)) (hdata : b.Carries 6 i mem data) :
    (List.range (min AXI_SW (rd.n_bytes - AXI_SW * q))).map data = rd.chunk mem q := by
  rw [read_t.bursts, read_t.ar_beats, List.map_map] at hbeat
  obtain ⟨hsize, hstart, hstop⟩ := aligned_beat hAW h.pos h.inside haligned q b i hbeat
  refine List.map_congr_left fun k hk => ?_
  have hlt := List.mem_range.mp hk
  unfold AXI_SW at hlt ⊢
  have hmem : rd.addr.toNat + 64 * q + k ∈ b.beat_bytes i := by
    rw [AxiIncr.Burst.beat_bytes, List.mem_range'_1]
    omega
  have hlane : (rd.addr.toNat + 64 * q + k) % 2 ^ 6 = k := by omega
  rw [← hdata _ hmem, hlane]

/-- The chunks make up the bytes asked for. -/
theorem flatMap_chunk (rd : read_t AW) (mem : ℕ → BitVec 8) (m : ℕ) :
    (List.range m).flatMap (rd.chunk mem)
      = (List.range (min rd.n_bytes (AXI_SW * m))).map fun k => mem (rd.addr.toNat + k) := by
  induction m with
  | zero => rw [Nat.mul_zero, Nat.min_zero]; rfl
  | succ m ih =>
      have hsplit : min rd.n_bytes (AXI_SW * (m + 1))
          = min rd.n_bytes (AXI_SW * m) + min AXI_SW (rd.n_bytes - AXI_SW * m) := by
        unfold AXI_SW
        omega
      rw [List.range_succ, List.flatMap_append, ih, List.flatMap_singleton, hsplit,
        List.range_add, List.map_append, List.map_map, read_t.chunk]
      congr 1
      refine List.map_congr_left fun k hk => ?_
      have hlt := List.mem_range.mp hk
      have hfull : min rd.n_bytes (AXI_SW * m) = AXI_SW * m := by omega
      rw [Function.comp_apply, hfull, Nat.add_assoc]

/-- Where a beat of all reads is among those of its own. -/
theorem beats_of_place (reads : List (read_t AW)) {r : ℕ} :
    (AxiIncr.beats (reads.flatMap read_t.bursts))[r]?
      = (Progress.place read_t.n_r_beats reads r).bind
        fun x => (AxiIncr.beats x.1.bursts)[x.2]? := by
  have hbeats : AxiIncr.beats (reads.flatMap read_t.bursts)
      = reads.flatMap fun rd => AxiIncr.beats rd.bursts := List.flatMap_assoc
  rw [hbeats]
  exact Progress.getElem?_flatMap fun rd _ => rfl

end Beats

namespace Sys

/-! ## The invariant -/

/-- A buffered beat as it will be handed over. -/
def item (r : axi_r_buffered_t) : List (BitVec 8) × Bool :=
  ((List.range r.data_length).map r.data, r.is_last)

/-- What came as beat `q` of a read. -/
structure Item (mem : ℕ → BitVec 8) (rd : read_t AW) (q : ℕ) (x : List (BitVec 8) × Bool) :
    Prop where
  complete : x.2 = decide (q + 1 = rd.n_r_beats)
  bytes : rd.addr.toNat % 64 = 0 → x.1 = rd.chunk mem q

/-- All beats that came, delivered or buffered. -/
def arrived (s : Sys AW) : List (List (BitVec 8) × Bool) :=
  s.delivered ++ s.axi.r_queue.map item

/-- The invariant: what was asked for, what is on its way and what came back, beat by beat. -/
structure Inv (mem : ℕ → BitVec 8) (s : Sys AW) : Prop where
  valid : ∀ rd ∈ s.reads, rd.Valid
  r_beats_buffer_size : s.axi.r_beats_buffer_size = 0
  r_queue : ∀ r ∈ s.axi.r_queue, r.data_length ≤ AXI_SW
  ar_beats : s.ar_driven ++ s.axi.ar_queue ++ s.axi.ar_pending_queue
    = s.reads.flatMap read_t.ar_beats
  received_le : s.received ≤ Progress.total read_t.n_r_beats s.reads
  read_queue : s.axi.read_queue
    = Progress.queue_at read_t.n_r_beats read_t.entry s.reads s.received
  length_arrived : s.arrived.length = s.received
  items : ∀ r x, s.arrived[r]? = some x → ∃ rd q,
    Progress.place read_t.n_r_beats s.reads r = some (rd, q) ∧ Item mem rd q x

variable {s : Sys AW} {op : op_t AW} {mem : ℕ → BitVec 8}

/-- Every read that was asked for has beats. -/
theorem Inv.beats_pos (h : Inv mem s) : ∀ rd ∈ s.reads, 0 < rd.n_r_beats :=
  fun rd hrd => (h.valid rd hrd).beats_pos

theorem init_inv (h : init s) : Inv mem s := by
  obtain ⟨aw, ar, w, b, rfl⟩ := h
  exact ⟨fun rd hrd => absurd hrd List.not_mem_nil, rfl, fun r hr => absurd hr List.not_mem_nil,
    rfl, le_refl 0, rfl, rfl, fun r x hx => absurd hx (by simp [arrived, reset])⟩

/-- Nothing of the reads is different. -/
theorem Inv.congr (h : Inv mem s) {axi : State AW}
    (hsize : axi.r_beats_buffer_size = s.axi.r_beats_buffer_size)
    (hqueue : axi.r_queue = s.axi.r_queue) (har : axi.ar_queue = s.axi.ar_queue)
    (hpending : axi.ar_pending_queue = s.axi.ar_pending_queue)
    (hread : axi.read_queue = s.axi.read_queue) : Inv mem { s with axi := axi } := by
  have harrived : Sys.arrived { s with axi := axi } = s.arrived := by
    unfold arrived
    rw [hqueue]
  refine ⟨h.valid, hsize.trans h.r_beats_buffer_size, ?_, ?_, h.received_le, ?_, ?_, ?_⟩
  · show ∀ r ∈ axi.r_queue, _
    rw [hqueue]
    exact h.r_queue
  · show s.ar_driven ++ axi.ar_queue ++ axi.ar_pending_queue = _
    rw [har, hpending]
    exact h.ar_beats
  · exact hread.trans h.read_queue
  · rw [harrived]
    exact h.length_arrived
  · rw [harrived]
    exact h.items

/-! ## The steps -/

/-- **A read** is requested: its bursts are put behind the others. -/
theorem Inv.read (h : Inv mem s) {rd : read_t AW} (hrd : rd.Valid) :
    Inv mem (step s (.read rd)) := by
  -- the beats asked for before are where they were
  have hplace : ∀ r x, Progress.place read_t.n_r_beats s.reads r = some x →
      Progress.place read_t.n_r_beats (s.reads ++ [rd]) r = some x := by
    intro r x hx
    rw [Progress.place_append, hx]
    exact Progress.place_isSome_iff.mp (by rw [hx]; rfl)
  refine ⟨?_, h.r_beats_buffer_size, h.r_queue, ?_, ?_, ?_, h.length_arrived, ?_⟩
  · -- the new read is valid
    intro rd' hrd'
    rcases List.mem_append.mp hrd' with hrd' | hrd'
    · exact h.valid rd' hrd'
    · rw [List.mem_singleton.mp hrd']
      exact hrd
  · -- its addresses wait behind those of the others
    show s.ar_driven ++ s.axi.ar_queue ++ (s.axi.ar_pending_queue ++ rd.ar_beats)
      = (s.reads ++ [rd]).flatMap read_t.ar_beats
    rw [← List.append_assoc, h.ar_beats, List.flatMap_append, List.flatMap_singleton]
  · show s.received ≤ Progress.total read_t.n_r_beats (s.reads ++ [rd])
    have hle := h.received_le
    rw [Progress.total_append_singleton]
    omega
  · -- its entry is last in the queue, with all its data left
    show s.axi.read_queue ++ [_] = _
    rw [h.read_queue]
    refine Eq.trans ?_ (Progress.queue_at_append hrd.beats_pos h.received_le).symm
    rw [read_t.entry, count_lasts, Nat.mul_zero, Nat.sub_zero]
  · -- what has been received is of the reads before
    intro r x hx
    obtain ⟨rd', q, hat, hitem⟩ := h.items r x hx
    exact ⟨rd', q, hplace _ _ hat, hitem⟩

/-- An Ax beat moves on. -/
theorem Inv.send_ar_beat (h : Inv mem s) : Inv mem (step s .send_ar_beat) := by
  refine ⟨h.valid, h.r_beats_buffer_size, h.r_queue, ?_, h.received_le, h.read_queue,
    h.length_arrived, h.items⟩
  show s.ar_driven ++ (s.axi.ar_queue ++ s.axi.ar_pending_queue.take 1)
    ++ s.axi.ar_pending_queue.tail = s.reads.flatMap read_t.ar_beats
  rw [← h.ar_beats]
  cases s.axi.ar_pending_queue with
  | nil => simp
  | cons ax rest => simp

/-- The slave has only taken bursts of the reads. -/
theorem Inv.accepted_prefix (h : Inv mem s) : s.accepted <+: s.reads.flatMap read_t.bursts := by
  have hall : s.reads.flatMap read_t.bursts
      = (s.ar_driven ++ s.axi.ar_queue ++ s.axi.ar_pending_queue).map axi_ax_beat_t.incr := by
    rw [h.ar_beats, List.map_flatMap]
    rfl
  rw [hall, List.append_assoc, List.map_append]
  unfold accepted
  split_ifs
  · exact ((List.dropLast_prefix _).map _).trans (List.prefix_append _ _)
  · exact List.prefix_append _ _

/-- A beat of data belongs to a read, at its place. -/
theorem Inv.answers (h : Inv mem s) {i : Responses}
    (hi : Answers 6 mem s.accepted s.received i.r_data i.r_last) : ∃ rd q b k,
      Progress.place read_t.n_r_beats s.reads s.received = some (rd, q) ∧ rd.Valid
        ∧ (AxiIncr.beats rd.bursts)[q]? = some (b, k) ∧ b.Carries 6 k mem i.r_data
        ∧ i.r_last = decide (k = b.len) := by
  obtain ⟨b, k, hbeat, hdata, hlast⟩ := hi.of_prefix h.accepted_prefix
  rw [beats_of_place] at hbeat
  obtain ⟨⟨rd, q⟩, hplace, hbeat⟩ := Option.bind_eq_some_iff.mp hbeat
  exact ⟨rd, q, b, k, hplace, h.valid rd (Progress.mem_of_place hplace), hbeat, hdata, hlast⟩

/-- A beat that comes is buffered, at its place, and the entry of its read goes on. -/
theorem Inv.beat (hAW : 6 < AW) (h : Inv mem s) {i : Responses} {axi : State AW}
    (hi : Answers 6 mem s.accepted s.received i.r_data i.r_last) (hvalid : i.r_valid = true)
    (haxi : AxiMaster.posedge s.axi i = some axi) : ∃ rd q r,
      Progress.place read_t.n_r_beats s.reads s.received = some (rd, q)
        ∧ axi.read_queue = Progress.queue_at read_t.n_r_beats read_t.entry s.reads (s.received + 1)
        ∧ axi.r_queue = s.axi.r_queue ++ [r] ∧ r.data_length ≤ AXI_SW ∧ Item mem rd q (item r) := by
  obtain ⟨-, -, -, -, hresp⟩ := posedge_reads h.r_beats_buffer_size haxi
  obtain ⟨entry, rest, hnow, hnext, hrq⟩ := hresp hvalid
  obtain ⟨rd, q, b, k, hplace, hrd, hbeat, hdata, hlast⟩ := h.answers hi
  obtain ⟨rest', hnow', hnext'⟩ := Progress.queue_at_succ read_t.entry h.beats_pos hplace
  -- the entry of the read at its beat
  rw [h.read_queue, hnow'] at hnow
  obtain ⟨rfl, rfl⟩ := List.cons.inj hnow
  have hafter := hrd.after_response hbeat
  rw [← hlast] at hafter
  rw [hafter] at hnext hrq
  have hleft : (rd.entry q).data_left.toNat = rd.n_bytes - AXI_SW * q := by
    have hn := hrd.lt
    show (BitVec.ofNat 32 _).toNat = _
    rw [BitVec.toNat_ofNat, Nat.mod_eq_of_lt (by omega)]
  rw [hleft] at hrq
  refine ⟨rd, q, _, hplace, ?_, hrq, Nat.min_le_left _ _, rfl, fun haligned => ?_⟩
  · rw [hnext, hnext']
    by_cases hq : q + 1 = rd.n_r_beats
    · simp [hq]
    · simp [hq]
  · exact hrd.chunk_of_carries hAW haligned hbeat hdata

/-- A slave that answers reads only finds a read to answer. -/
theorem Inv.posedge_isSome (h : Inv mem s) {i : Responses} (ha : allowed mem s (.posedge i)) :
    ∃ axi, AxiMaster.posedge s.axi i = some axi := by
  obtain ⟨hb, hr⟩ := ha
  refine Option.isSome_iff_exists.mp (posedge_isSome_of hb fun hvalid => ?_)
  obtain ⟨rd, q, b, k, hplace, -⟩ := h.answers (hr hvalid)
  obtain ⟨rest, hnow, -⟩ := Progress.queue_at_succ read_t.entry h.beats_pos hplace
  rw [h.read_queue, hnow]
  exact List.cons_ne_nil _ _

/-- **A rising edge.** -/
theorem Inv.posedge (hAW : 6 < AW) (h : Inv mem s) {i : Responses}
    (ha : allowed mem s (.posedge i)) : Inv mem (step s (.posedge i)) := by
  obtain ⟨axi, haxi⟩ := h.posedge_isSome ha
  obtain ⟨hsize, har, hpending, hidle, -⟩ := posedge_reads h.r_beats_buffer_size haxi
  have hget : (AxiMaster.posedge s.axi i).getD s.axi = axi := by rw [haxi, Option.getD_some]
  have hdriven : (s.ar_driven ++ if s.axi.ar_wait then [] else s.axi.ar_queue.take 1)
      ++ axi.ar_queue ++ axi.ar_pending_queue = s.reads.flatMap read_t.ar_beats := by
    rw [har, hpending, ← h.ar_beats]
    cases s.axi.ar_wait
    · cases s.axi.ar_queue <;> simp
    · simp
  simp only [step]
  rw [hget]
  cases hvalid : i.r_valid with
  | false =>
      obtain ⟨hrq, hread⟩ := hidle hvalid
      have harrived : s.delivered ++ axi.r_queue.map item = s.arrived := by rw [hrq]; rfl
      refine ⟨h.valid, hsize, ?_, hdriven, h.received_le, hread.trans h.read_queue, ?_, ?_⟩
      · show ∀ r ∈ axi.r_queue, _
        rw [hrq]
        exact h.r_queue
      · exact (congrArg List.length harrived).trans h.length_arrived
      · intro r x hx
        exact h.items r x ((congrArg (·[r]?) harrived).symm.trans hx)
  | true =>
      obtain ⟨rd, q, new, hplace, hread, hrq, hlength, hitem⟩ := h.beat hAW (ha.2 hvalid) hvalid haxi
      have hlt : s.received < Progress.total read_t.n_r_beats s.reads :=
        Progress.place_isSome_iff.mp (by rw [hplace]; rfl)
      have harrived : s.delivered ++ axi.r_queue.map item = s.arrived ++ [item new] := by
        rw [hrq, List.map_append, ← List.append_assoc, List.map_singleton]
        rfl
      refine ⟨h.valid, hsize, ?_, hdriven, hlt, hread, ?_, ?_⟩
      · intro r hmem
        have hmem' : r ∈ axi.r_queue := hmem
        rw [hrq] at hmem'
        rcases List.mem_append.mp hmem' with hold | hone
        · exact h.r_queue r hold
        · rw [List.mem_singleton.mp hone]
          exact hlength
      · show (s.delivered ++ axi.r_queue.map item).length = s.received + 1
        rw [harrived, List.length_append, h.length_arrived]
        rfl
      · intro r x hx
        have hx' : (s.arrived ++ [item new])[r]? = some x := by
          rw [← harrived]
          exact hx
        by_cases hold : r < s.arrived.length
        · rw [List.getElem?_append_left hold] at hx'
          exact h.items r x hx'
        · -- the new beat
          have hr' : r = s.received := by
            have hlt' := (List.getElem?_eq_some_iff.mp hx').1
            have hlen := h.length_arrived
            rw [List.length_append, List.length_singleton] at hlt'
            omega
          rw [hr', ← h.length_arrived, List.getElem?_concat_length] at hx'
          obtain rfl := Option.some.inj hx'
          exact ⟨rd, q, by rw [hr']; exact hplace, hitem⟩

/-- **A beat is handed over**, whole. -/
theorem Inv.consume_r_beat (h : Inv mem s) {data_length : ℕ} (hle : AXI_SW ≤ data_length) :
    Inv mem (step s (.consume_r_beat data_length)) := by
  simp only [step, AxiMaster.consume_r_beat]
  cases hq : s.axi.r_queue with
  | nil => exact h
  | cons r rest =>
      have hlen := h.r_queue r (by rw [hq]; exact List.mem_cons_self)
      have harrived : (s.delivered ++ [((List.range (min data_length r.data_length)).map r.data,
          r.is_last)]) ++ rest.map item = s.arrived := by
        rw [Nat.min_eq_right (hlen.trans hle), arrived, hq, List.map_cons, List.append_assoc]
        rfl
      refine ⟨h.valid, h.r_beats_buffer_size, ?_, h.ar_beats, h.received_le, h.read_queue, ?_, ?_⟩
      · intro r' hr'
        exact h.r_queue r' (by rw [hq]; exact List.mem_cons_of_mem _ hr')
      · exact (congrArg List.length harrived).trans h.length_arrived
      · intro k x hx
        exact h.items k x ((congrArg (·[k]?) harrived).symm.trans hx)

theorem Inv.write (h : Inv mem s) (addr : BitVec AW) (data : ℕ → BitVec 8) (n_bytes offset : ℕ) :
    Inv mem (step s (.write addr data n_bytes offset)) := by
  simp only [step]
  cases hw : AxiMaster.write s.axi addr data n_bytes offset with
  | none => exact h
  | some axi =>
      obtain ⟨w_pending_queue, rfl⟩ := write_spec hw
      exact h.congr rfl rfl rfl rfl rfl

theorem step_inv (hAW : 6 < AW) (h : Inv mem s) (ha : allowed mem s op) : Inv mem (step s op) := by
  cases op with
  | read rd => exact h.read ha
  | write addr data n_bytes offset => exact h.write addr data n_bytes offset
  | send_aw_beat => exact h.congr rfl rfl rfl rfl rfl
  | send_ar_beat => exact h.send_ar_beat
  | send_w_beat => exact h.congr rfl rfl rfl rfl rfl
  | posedge i => exact h.posedge hAW ha
  | negedge i => exact h.congr rfl rfl rfl rfl rfl
  | consume_r_beat data_length => exact h.consume_r_beat ha.2
  | consume_b_beat => exact h.congr rfl rfl rfl rfl rfl

theorem inv_reach (hAW : 6 < AW) (h : Sync.Reach init step (allowed mem) s) : Inv mem s :=
  Sync.Reach.inv (P := Inv mem) (fun _ hs => init_inv hs) (fun _ _ hi ha => step_inv hAW hi ha) h

/-! ## What comes out -/

section Answer

variable {j : ℕ} {rd : read_t AW}

/-- A beat that is handed out is the one that was asked for. -/
theorem Inv.answer_item (h : Inv mem s) (hj : s.reads[j]? = some rd) {q : ℕ}
    {x : List (BitVec 8) × Bool} (hx : (s.answer j rd)[q]? = some x) : Item mem rd q x := by
  unfold answer at hx
  rw [List.getElem?_take] at hx
  split_ifs at hx with hq
  rw [List.getElem?_drop] at hx
  have hold := (List.getElem?_eq_some_iff.mp hx).1
  obtain ⟨rd', q', hplace, hitem⟩ := h.items _ x ((List.getElem?_append_left hold).trans hx)
  rw [Progress.place_start hj hq] at hplace
  obtain ⟨rfl, rfl⟩ := Prod.mk.inj (Option.some.inj hplace)
  exact hitem

/-- No read gets more beats than it has. -/
theorem length_answer_le (s : Sys AW) (j : ℕ) (rd : read_t AW) :
    (s.answer j rd).length ≤ rd.n_r_beats :=
  List.length_take_le _ _

/-- **Completion** comes with the last beat, for every read. -/
theorem Inv.completes (h : Inv mem s) (hj : s.reads[j]? = some rd) : s.Completes j rd := by
  have hrd := h.valid rd (List.mem_of_getElem? hj)
  have hle := s.length_answer_le j rd
  unfold Completes
  rw [BurstMarks.mark_eq_map hrd.beats_pos, ← List.map_take, List.take_range, Nat.min_eq_left hle]
  apply List.ext_getElem?
  intro q
  by_cases hq : q < (s.answer j rd).length
  · have hx := List.getElem?_eq_getElem hq
    rw [List.getElem?_map, List.getElem?_map, List.getElem?_range hq, hx, Option.map_some,
      Option.map_some, (h.answer_item hj hx).complete]
  · rw [List.getElem?_eq_none (by simpa using hq), List.getElem?_eq_none (by simpa using hq)]

/-- **The bytes** of an aligned read are those in memory. -/
theorem Inv.brings (h : Inv mem s) (hj : s.reads[j]? = some rd)
    (haligned : rd.addr.toNat % 64 = 0) : Brings mem s j rd := by
  have hchunks : (s.answer j rd).map (·.1)
      = (List.range (s.answer j rd).length).map (rd.chunk mem) := by
    apply List.ext_getElem?
    intro q
    by_cases hq : q < (s.answer j rd).length
    · have hx := List.getElem?_eq_getElem hq
      rw [List.getElem?_map, List.getElem?_map, List.getElem?_range hq, hx, Option.map_some,
        Option.map_some, (h.answer_item hj hx).bytes haligned]
    · rw [List.getElem?_eq_none (by simpa using hq), List.getElem?_eq_none (by simpa using hq)]
  have hbytes : (s.answer j rd).flatMap (·.1)
      = (rd.bytes mem).take (AXI_SW * (s.answer j rd).length) := by
    rw [List.flatMap_def, hchunks, ← List.flatMap_def, flatMap_chunk, read_t.bytes,
      ← List.map_take, List.take_range, Nat.min_comm]
  refine ⟨?_, fun hall => ?_⟩
  · rw [hbytes]
    exact List.take_prefix _ _
  · have hlines := n_bytes_le rd
    rw [hbytes, hall, List.take_of_length_le]
    rwa [read_t.bytes, List.length_map, List.length_range]

end Answer

/-! ## An address within a line -/

section Unaligned

variable (rd : read_t AW)

/-- Memory that is zero but for the first byte of the read. -/
def one_byte (a : ℕ) : BitVec 8 := if a = rd.addr.toNat then 1 else 0

/-- A slave that puts the whole line of the first byte on the lanes, one beat of it. -/
def line_of (b : AxiIncr.Burst) : Responses where
  b_valid := false
  r_valid := true
  r_last := decide (0 = b.len)
  r_data := fun k => one_byte rd (b.addr / 64 * 64 + k)

/-- The read is requested, its first burst goes out and is taken, and one beat comes back. -/
def first_beat (b : AxiIncr.Burst) : List (op_t AW) :=
  [.read rd, .send_ar_beat, .posedge ⟨false, false, false, fun _ => 0⟩, .negedge ⟨true, true, true⟩,
    .posedge (line_of rd b), .negedge ⟨true, true, true⟩, .consume_r_beat AXI_SW]

def start : Sys AW := ⟨reset, [], [], 0, []⟩

variable {rd}

/-- **A beat of a misaligned read** brings what is in lane 0. -/
theorem first_beat_run (hAW : 6 < AW) (hrd : rd.Valid) : ∃ b,
    Sync.Allowed step (allowed (one_byte rd)) start (first_beat rd b)
      ∧ (Sync.run step start (first_beat rd b)).reads = [rd]
      ∧ ∃ complete, (Sync.run step start (first_beat rd b)).delivered
        = [((List.range (min AXI_SW rd.n_bytes)).map fun k =>
          one_byte rd (rd.addr.toNat / 64 * 64 + k), complete)] := by
  obtain ⟨bs, rest, hbeats, haddr⟩ := create_ax_beats_head hrd.pos hrd.inside
  -- the first burst starts at the address, and is legal
  have hsize : bs.beat.incr.size ≤ 6 := by
    have hsplit := (create_ax_beats_split hAW hrd.pos hrd.inside).2
    exact (hsplit.fits bs (by rw [hbeats]; exact List.mem_cons_self)).legal.size_le
  have hstart : bs.beat.incr.addr = rd.addr.toNat := congrArg BitVec.toNat haddr
  have hn := hrd.lt
  have hleft : rd.n_bytes % 4294967296 = rd.n_bytes := Nat.mod_eq_of_lt hn
  -- the four calls are allowed, one after the other; then what the run has delivered
  refine ⟨bs.beat.incr, ⟨hrd, ⟨?_, rfl⟩, ⟨?_, ?_⟩, trivial, ⟨?_, fun _ => ?_⟩, trivial,
    ⟨?_, le_refl _⟩, trivial⟩, ?_, ?_⟩
  · simp [step, start, reset, AxiMaster.read, hbeats, has_ar_beat]
  · simp
  · simp
  · simp [line_of]
  · -- the slave answers with the bytes at the lanes of the beat
    refine ⟨bs.beat.incr, 0, ?_, fun a ha => ?_, rfl⟩
    · simp [step, start, reset, AxiMaster.read, hbeats, AxiMaster.send_ar_beat, AxiMaster.posedge, aw_posedge,
        ar_posedge, w_posedge, b_posedge, r_posedge, negedge, accepted, AxiIncr.getElem?_beats_cons]
    · have hlane := AxiIncr.Burst.lane_addr_mod hsize ha
      rw [AxiIncr.Burst.lane_addr, AxiIncr.Burst.beat_addr_zero] at hlane
      exact congrArg (one_byte rd) hlane
  · simp [step, start, reset, AxiMaster.read, hbeats, AxiMaster.send_ar_beat, AxiMaster.posedge, aw_posedge,
      ar_posedge, w_posedge, b_posedge, r_posedge, negedge, has_room, has_r_beat, line_of]
  · simp [Sync.run, first_beat, step, start, reset, AxiMaster.read, hbeats, AxiMaster.send_ar_beat,
      AxiMaster.posedge, aw_posedge, ar_posedge, w_posedge, b_posedge, r_posedge, negedge, has_room,
      AxiMaster.consume_r_beat, line_of]
  · simp [Sync.run, first_beat, step, start, reset, AxiMaster.read, hbeats, AxiMaster.send_ar_beat,
      AxiMaster.posedge, aw_posedge, ar_posedge, w_posedge, b_posedge, r_posedge, negedge, has_room,
      AxiMaster.consume_r_beat, line_of, hstart, hleft]

/-- **What it brings is not what is in memory**: the byte in lane 0 is another one. -/
theorem first_beat_wrong (hAW : 6 < AW) (hrd : rd.Valid) (hne : rd.addr.toNat % 64 ≠ 0) :
    ∃ s : Sys AW, Sync.Reach init step (allowed (one_byte rd)) s ∧ s.reads = [rd]
      ∧ ¬ Brings (one_byte rd) s 0 rd := by
  obtain ⟨b, hallowed, hreads, complete, hdelivered⟩ := first_beat_run hAW hrd
  have hreach : Sync.Reach init step (allowed (one_byte rd)) (start : Sys AW) :=
    .reset ⟨0, 0, 0, 0, rfl⟩
  refine ⟨_, hreach.run hallowed, hreads, fun hbrings => ?_⟩
  have hpos := hrd.pos
  have hbeats := hrd.beats_pos
  have hanswer : (Sync.run step start (first_beat rd b)).answer 0 rd
      = [((List.range (min AXI_SW rd.n_bytes)).map fun k =>
        one_byte rd (rd.addr.toNat / 64 * 64 + k), complete)] := by
    unfold answer
    rw [hdelivered, hreads, List.take_zero, Progress.total, List.map_nil, List.sum_nil,
      List.drop_zero, List.take_of_length_le]
    exact Nat.succ_le_of_lt hbeats
  have hprefix := hbrings.first
  rw [hanswer, List.flatMap_singleton] at hprefix
  -- the first byte is one in memory, and zero in lane 0
  have hlength : 0 < ((List.range (min AXI_SW rd.n_bytes)).map fun k =>
      one_byte rd (rd.addr.toNat / 64 * 64 + k)).length := by
    rw [List.length_map, List.length_range]
    exact Nat.lt_min.mpr ⟨by decide, hpos⟩
  have hfirst := hprefix.getElem hlength
  simp only [read_t.bytes, List.getElem_map, List.getElem_range, Nat.add_zero] at hfirst
  have hline : rd.addr.toNat / 64 * 64 ≠ rd.addr.toNat := by omega
  unfold one_byte at hfirst
  rw [if_neg hline, if_pos rfl] at hfirst
  exact absurd hfirst (by decide)

end Unaligned

/-- **Exactly the aligned reads.** A read gets the bytes that are in memory, in every run with
whatever other reads and writes, if and only if its address is a multiple of 64. It is
reported complete with its last beat in any case. -/
theorem read_iff (hAW : 6 < AW) {rd : read_t AW} (hrd : rd.Valid) :
    (∀ (mem : ℕ → BitVec 8) (s : Sys AW), Sync.Reach init step (allowed mem) s →
      ∀ j, s.reads[j]? = some rd → s.Completes j rd ∧ Brings mem s j rd)
    ↔ rd.addr.toNat % 64 = 0 := by
  constructor
  · intro hall
    by_contra hne
    obtain ⟨s, hreach, hreads, hwrong⟩ := first_beat_wrong hAW hrd hne
    exact hwrong (hall _ s hreach 0 (by rw [hreads]; rfl)).2
  · intro haligned mem s hreach j hj
    have hinv := inv_reach hAW hreach
    exact ⟨hinv.completes hj, hinv.brings hj haligned⟩

/-- A hundred bytes from the start of a line. -/
def demo_read : read_t 32 := ⟨0x1c100040#32, 100⟩

theorem read_iff_demo : demo_read.addr.toNat % 64 = 0 ∧
    ∀ (mem : ℕ → BitVec 8) (s : Sys 32), Sync.Reach init step (allowed mem) s →
      ∀ j, s.reads[j]? = some demo_read → s.Completes j demo_read ∧ Brings mem s j demo_read :=
  ⟨by decide, (read_iff (by decide) (by decide)).mpr (by decide)⟩

/-- **Four bytes within a line.** The slave answers on lanes 4 to 7, and the master takes lanes
0 to 3. -/
theorem wrong_lanes : ¬ ∀ rd : read_t 32, rd.Valid →
    ∀ (mem : ℕ → BitVec 8) (s : Sys 32), Sync.Reach init step (allowed mem) s →
      ∀ j, s.reads[j]? = some rd → s.Completes j rd ∧ Brings mem s j rd := by
  intro hall
  have hvalid : (⟨0x1c100004#32, 4⟩ : read_t 32).Valid := by decide
  obtain ⟨s, hreach, hreads, hwrong⟩ := first_beat_wrong (by decide) hvalid (by decide)
  exact hwrong (hall _ hvalid _ s hreach 0 (by rw [hreads]; rfl)).2

end Sys

end Pspin.AxiReads
