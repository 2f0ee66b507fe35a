/-
What `AXIMaster::write` puts on the bus.

The data beats are read with the rules of AXI: a strobed lane of a beat is a byte at the
address that the lane has there. Over several lines every beat strobes its part of the
transfer. A burst of one beat strobes all lanes up to the end of the beat, whatever the
number of bytes, so it writes zeros behind the transfer unless that ends with the beat.

`write_iff` says for which transfers nothing is written but the bytes asked for.
-/
import Pspin.AxiMaster
import Pspin.AxiSplit

set_option autoImplicit false

namespace Pspin.AxiMaster

open AxiDriver

/-- A data beat as the bus sees it. -/
def wire (beat : axi_w_beat_t) : AxiIncr.WBeat (BitVec 8) where
  data := fun k => if h : k < AXI_SW then beat.w_data ⟨k, h⟩ else 0
  strb := fun k => beat.w_strb.getLsbD k
  last := beat.w_last

/-- Where the last burst of a transfer begins. -/
def last_start (addr n : ℕ) : ℕ := max addr ((addr + n - 1) / 4096 * 4096)

/-- The last burst has several beats, or ends where a beat of some size that covers it does. -/
def EndsWithBeat (addr n : ℕ) : Prop :=
  last_start addr n / 64 ≠ (addr + n - 1) / 64
    ∨ ∃ k ≤ 6, 2 ^ k ∣ addr + n ∧ addr + n ≤ last_start addr n + 2 ^ k

instance (addr n : ℕ) : Decidable (EndsWithBeat addr n) :=
  inferInstanceAs (Decidable (_ ∨ ∃ k ≤ 6, _))

variable {AW : ℕ}

/-- The write goes through: its beats write the bytes of the data from `offset` on at
`[addr, addr + n_bytes)`, each once and nothing else, with the last beat of every burst
marked. -/
def WritesExactly (s : State AW) (addr : BitVec AW) (data : ℕ → BitVec 8)
    (n_bytes offset : ℕ) : Prop :=
  ∃ s' bursts beats, write s addr data n_bytes offset = some s'
    ∧ s'.aw_pending_queue = s.aw_pending_queue ++ bursts
    ∧ s'.w_pending_queue = s.w_pending_queue ++ beats
    ∧ beats.map (·.w_last) = BurstMarks.marks (bursts.map n_beats)
    ∧ AxiIncr.written 6 (bursts.map axi_ax_beat_t.incr) (beats.map wire)
      = (List.range n_bytes).map fun i => (addr.toNat + i, data (offset + i))

/-! ## A beat -/

section Beat

variable (bs : beat_and_size_t AW) (data : ℕ → BitVec 8)

theorem wire_strb (c i k : ℕ) (hk : k < AXI_SW) : (wire (w_beat bs data c i)).strb k = true
    ↔ (beat_lower_byte bs.beat i).toNat ≤ k
      ∧ k < (beat_upper_byte bs.beat i bs.n_bytes).toNat ∧ c < bs.n_bytes := by
  show (BitVec.ofNat AXI_SW _).getLsbD k = true ↔ _
  rw [BitVec.getLsbD_ofNat, decide_eq_true hk, Bool.true_and, Nat.testBit_ofBits_lt _ _ hk]
  simp only [Bool.and_eq_true, decide_eq_true_eq, and_assoc]

theorem wire_data (c i k : ℕ) (hk : k < AXI_SW) : (wire (w_beat bs data c i)).data k
    = if (beat_lower_byte bs.beat i).toNat ≤ k
        ∧ k < (beat_lower_byte bs.beat i).toNat + beat_size bs i then
      data (c + (k - (beat_lower_byte bs.beat i).toNat)) else 0 := by
  unfold wire
  simp only
  rw [dif_pos hk]
  rfl

/-- **One beat.** Its lanes run from the lower to the upper byte; the first `beat_size` have
data, the others zero. -/
theorem w_beat_written {c i m : ℕ} (hc : c < bs.n_bytes)
    (hlower : (beat_lower_byte bs.beat i).toNat = bs.beat.incr.beat_addr i % 64)
    (hupper : (beat_upper_byte bs.beat i bs.n_bytes).toNat = bs.beat.incr.beat_addr i % 64 + m)
    (hm : bs.beat.incr.beat_addr i % 64 + m ≤ 64) :
    bs.beat.incr.beat_written 6 i (wire (w_beat bs data c i))
        = AxiIncr.stretch (bs.beat.incr.beat_addr i) m
          (fun j => if j < min m bs.n_bytes then data (c + j) else 0)
      ∧ beat_size bs i = min m bs.n_bytes := by
  have hsize : beat_size bs i = min m bs.n_bytes := by
    rw [beat_size, BitVec.toNat_sub_of_le (by rw [BitVec.le_def]; omega), hupper, hlower,
      Nat.add_sub_cancel_left]
  refine ⟨?_, hsize⟩
  have hlane : bs.beat.incr.lane_addr 6 i (bs.beat.incr.beat_addr i % 64)
      = bs.beat.incr.beat_addr i := Nat.div_add_mod' _ 64
  rw [← hlane]
  refine AxiIncr.Burst.beat_written_eq (fun k hk => ?_) hm fun j hj => ?_
  · rw [wire_strb bs data c i k hk, hlower, hupper]
    simp only [hc, and_true]
  · rw [wire_data bs data c i _ (by unfold AXI_SW; omega), hlower, hsize]
    simp only [Nat.le_add_right, true_and, Nat.add_lt_add_iff_left, Nat.add_sub_cancel_left]

end Beat

/-! ## A burst -/

section Burst

theorem length_w_beats (bs : beat_and_size_t AW) (data : ℕ → BitVec 8) :
    ∀ m i c, (w_beats bs data m i c).1.length = m := by
  intro m
  induction m with
  | zero => exact fun i c => rfl
  | succ m ih =>
      intro i c
      rw [w_beats, List.length_cons, ih]

theorem w_last_w_beats (bs : beat_and_size_t AW) (data : ℕ → BitVec 8) :
    ∀ m i c, i + m = bs.beat.ax_len.toNat →
      (w_beats bs data (m + 1) i c).1.map (·.w_last) = List.replicate m false ++ [true] := by
  intro m
  induction m with
  | zero =>
      intro i c hi
      simp [w_beats, w_beat, ← hi]
  | succ m ih =>
      intro i c hi
      rw [w_beats, List.map_cons, ih _ _ (by omega), List.replicate_succ, List.cons_append]
      congr 1
      simp only [w_beat, beq_eq_false_iff_ne]
      omega

/-- The last beat of a burst is marked, and no other. -/
theorem burst_marks (bs : beat_and_size_t AW) (data : ℕ → BitVec 8) :
    (w_beats bs data (bs.beat.ax_len.toNat + 1) 0 0).1.map (·.w_last)
      = BurstMarks.mark (n_beats bs.beat) :=
  w_last_w_beats bs data _ 0 0 (Nat.zero_add _)

/-! A burst in one line. -/

variable {addr : BitVec AW} {n : ℕ}

theorem incr_of_page (hpos : 0 < n) (hpage : addr.toNat % 4096 + n ≤ 4096) :
    (burst_at addr n).beat.incr
      = ⟨addr.toNat, (addr.toNat + n - 1) / 64 - addr.toNat / 64, (ax_size_of addr n).toNat⟩ := by
  obtain ⟨-, haddr, hsize, hlen⟩ := burst_at_page addr hpos hpage
  rw [axi_ax_beat_t.incr, haddr, hlen, hsize]

/-- **One beat strobes up to its end.** Behind the bytes of the transfer it writes zeros. -/
theorem one_line_written (hAW : 6 < AW) (hpos : 0 < n) (hle : addr.toNat + n ≤ 2 ^ AW)
    (hpage : addr.toNat % 4096 + n ≤ 4096) (hline : addr.toNat / 64 = (addr.toNat + n - 1) / 64)
    (data : ℕ → BitVec 8) :
    ∃ beat, w_beats (burst_at addr n) data 1 0 0 = ([beat], n)
      ∧ (burst_at addr n).beat.incr.beat_written 6 0 (wire beat)
        = AxiIncr.stretch addr.toNat (beat_end addr.toNat (ax_size_of addr n).toNat - addr.toNat)
          fun j => if j < n then data j else 0 := by
  obtain ⟨hbytes, haddr, hsize, -⟩ := burst_at_page addr hpos hpage
  obtain ⟨hsix, hcovers, -, -⟩ := ax_size_of_line hAW hpos hle hline
  have hincr := incr_of_page hpos hpage
  -- the beat ends where its size ends, and begins at the address
  have hstop : (burst_at addr n).beat.incr.beat_stop 0
      = beat_end addr.toNat (ax_size_of addr n).toNat := by
    rw [hincr]
    rfl
  have hstart : (burst_at addr n).beat.incr.beat_addr 0 = addr.toNat := by rw [hincr]; rfl
  -- a beat is never wider than the line
  have hwide := beat_end_mono addr.toNat hsix
  rw [beat_end_six] at hwide
  have hlower := toNat_beat_lower_byte (burst_at addr n).beat hAW 0
  have hupper := toNat_beat_upper_byte_zero (burst_at addr n).beat (burst_at addr n).n_bytes hAW
    (hsize ▸ hsix)
  have hfirst : beat_addr (burst_at addr n).beat 0 = addr := haddr
  rw [hfirst] at hlower
  rw [hstop, haddr] at hupper
  generalize hend : beat_end addr.toNat (ax_size_of addr n).toNat = stop at *
  -- the bytes of the beat, with zeros behind those of the transfer
  obtain ⟨hwritten, htaken⟩ := w_beat_written (burst_at addr n) data (c := 0) (i := 0)
    (m := stop - addr.toNat) (by omega) (by rw [hstart]; exact hlower)
    (by rw [hstart]; omega) (by rw [hstart]; omega)
  rw [hbytes, Nat.min_eq_right (by omega)] at htaken hwritten
  rw [hstart] at hwritten
  refine ⟨w_beat (burst_at addr n) data 0 0, ?_, by simpa only [Nat.zero_add] using hwritten⟩
  show ([_], 0 + beat_size (burst_at addr n) 0) = ([_], n)
  rw [htaken, Nat.zero_add]

/-! A burst over several lines. -/

theorem toNat_beat_addr {ax : axi_ax_beat_t AW} {i : ℕ} (h : ax.incr.beat_addr i < 2 ^ AW) :
    (beat_addr ax i).toNat = ax.incr.beat_addr i := by
  cases i with
  | zero => rfl
  | succ i =>
      have haligned := toNat_axi_aligned_address ax.ax_addr ax.ax_size
      have heq : ax.incr.beat_addr (i + 1)
          = (axi_aligned_address ax.ax_addr ax.ax_size).toNat
            + (i + 1) * axi_num_bytes ax.ax_size := by
        rw [haligned]
        rfl
      rw [heq] at h ⊢
      rw [beat_addr, if_neg (Nat.succ_ne_zero i), BitVec.toNat_add, BitVec.toNat_ofNat,
        Nat.add_mod_mod, Nat.mod_eq_of_lt h]

/-- Where a beat over whole lines begins: at the start of its line, but the first one. -/
theorem lines_beat_addr (hpos : 0 < n) (hle : addr.toNat + n ≤ 2 ^ AW)
    (hpage : addr.toNat % 4096 + n ≤ 4096) (hlines : addr.toNat / 64 ≠ (addr.toNat + n - 1) / 64)
    (i : ℕ) : (burst_at addr n).beat.incr.beat_addr i
      = if i = 0 then addr.toNat else addr.toNat / 64 * 64 + i * 64 := by
  rw [incr_of_page hpos hpage, (ax_size_of_lines hpos hle hlines).1]
  rfl

/-- The lanes of a beat over whole lines: up to the end of the line, or of the transfer. -/
theorem lines_lanes (hAW : 6 < AW) (hpos : 0 < n) (hle : addr.toNat + n ≤ 2 ^ AW)
    (hpage : addr.toNat % 4096 + n ≤ 4096) (hlines : addr.toNat / 64 ≠ (addr.toNat + n - 1) / 64)
    {i : ℕ} (hi : i ≤ (addr.toNat + n - 1) / 64 - addr.toNat / 64) :
    (beat_lower_byte (burst_at addr n).beat i).toNat
        = (burst_at addr n).beat.incr.beat_addr i % 64
      ∧ (beat_upper_byte (burst_at addr n).beat i (burst_at addr n).n_bytes).toNat
        = (burst_at addr n).beat.incr.beat_addr i % 64
          + (min ((burst_at addr n).beat.incr.beat_addr (i + 1)) (addr.toNat + n)
            - (burst_at addr n).beat.incr.beat_addr i) := by
  obtain ⟨hbytes, haddr, hsize, hlen⟩ := burst_at_page addr hpos hpage
  obtain ⟨hsix, -⟩ := ax_size_of_lines hpos hle hlines
  have hstart := lines_beat_addr hpos hle hpage hlines
  generalize burst_at addr n = bs at *
  have hbound : bs.beat.incr.beat_addr i < addr.toNat + n := by
    rw [hstart]
    split_ifs <;> omega
  have hbeat := toNat_beat_addr (hbound.trans_le hle)
  have hlower := toNat_beat_lower_byte bs.beat hAW i
  rw [hbeat] at hlower
  refine ⟨hlower, ?_⟩
  by_cases hzero : i = 0
  · -- the first beat, up to the end of its line
    subst hzero
    have hupper := toNat_beat_upper_byte_zero bs.beat bs.n_bytes hAW (by rw [hsize, hsix])
    have hstop : bs.beat.incr.beat_stop 0 = bs.beat.incr.beat_addr (0 + 1) :=
      AxiIncr.Burst.beat_addr_succ.symm
    rw [hupper, hstop, hstart, hstart, haddr]
    simp only [↓reduceIte, Nat.zero_add, Nat.one_ne_zero]
    omega
  have hlow : bs.beat.incr.beat_addr i = addr.toNat / 64 * 64 + i * 64 := by
    rw [hstart, if_neg hzero]
  have hnext : bs.beat.incr.beat_addr (i + 1) = addr.toNat / 64 * 64 + (i + 1) * 64 := by
    rw [hstart, if_neg (Nat.succ_ne_zero i)]
  by_cases hlast : i = bs.beat.ax_len.toNat
  · -- the last one, up to the end of the transfer
    have hfirst : (beat_lower_byte bs.beat 0).toNat = addr.toNat % 64 := by
      rw [toNat_beat_lower_byte bs.beat hAW 0]
      exact congrArg (fun a => a.toNat % 64) haddr
    rw [beat_upper_byte, if_neg hzero, if_pos hlast, hbytes, AXI_SW]
    rw [hlow, hnext]
    have hsmall : n ≤ 4096 := by omega
    have hlen64 : bs.beat.ax_len.toNat ≤ 65 := by omega
    generalize hv : addr.toNat + n - (addr.toNat / 64 * 64 + i * 64) = v
    have hv64 : v ≤ 64 := by omega
    have hsum : n + addr.toNat % 64 = v + 64 * bs.beat.ax_len.toNat := by omega
    have hmod : (addr.toNat / 64 * 64 + i * 64) % 64 = 0 := by omega
    have hend : addr.toNat + n ≤ addr.toNat / 64 * 64 + (i + 1) * 64 := by omega
    rw [hmod, min_eq_right hend, hv, Nat.zero_add]
    generalize bs.beat.ax_len.toNat = len at *
    generalize beat_lower_byte bs.beat 0 = low at *
    generalize addr.toNat % 64 = l at *
    bv_omega
  · -- a whole line
    rw [beat_upper_byte, if_neg hzero, if_neg hlast, BitVec.toNat_add, hlower, BitVec.toNat_ofNat,
      axi_num_bytes, hsize, hsix, hlow, hnext]
    omega

/-- **Whole lines**: the beats from `i` on write the bytes from there on. -/
theorem lines_written (hAW : 6 < AW) (hpos : 0 < n) (hle : addr.toNat + n ≤ 2 ^ AW)
    (hpage : addr.toNat % 4096 + n ≤ 4096) (hlines : addr.toNat / 64 ≠ (addr.toNat + n - 1) / 64)
    (data : ℕ → BitVec 8) :
    ∀ m i c, i + m = (addr.toNat + n - 1) / 64 - addr.toNat / 64 + 1 →
      c = min ((burst_at addr n).beat.incr.beat_addr i) (addr.toNat + n) - addr.toNat →
      (w_beats (burst_at addr n) data m i c).2 = n
        ∧ (burst_at addr n).beat.incr.written_from 6 i
            ((w_beats (burst_at addr n) data m i c).1.map wire)
          = AxiIncr.stretch (addr.toNat + c) (n - c) fun j => data (c + j) := by
  have hlanes := @lines_lanes AW addr n hAW hpos hle hpage hlines
  obtain ⟨hbytes, -⟩ := burst_at_page addr hpos hpage
  have hstart := lines_beat_addr hpos hle hpage hlines
  generalize burst_at addr n = bs at *
  -- induction on the beats that are left; `c` bytes have been written
  intro m
  induction m with
  | zero =>
      -- none left: all bytes are written
      intro i c hi hc
      have hnone : c = n := by
        rw [hc, hstart, if_neg (by omega)]
        omega
      rw [hnone, Nat.sub_self]
      exact ⟨rfl, rfl⟩
  | succ m ih =>
      intro i c hi hc
      obtain ⟨hlower, hupper⟩ := hlanes (i := i) (by omega)
      -- this beat starts where the bytes so far end
      have hhere : bs.beat.incr.beat_addr i = addr.toNat + c ∧ c < n := by
        rw [hc, hstart]
        split_ifs <;> omega
      obtain ⟨hhere, hless⟩ := hhere
      generalize hm : min (bs.beat.incr.beat_addr (i + 1)) (addr.toNat + n)
        - bs.beat.incr.beat_addr i = k at hupper
      -- its bytes go up to the next line, or to the end of the transfer
      have hk : k ≤ n - c ∧ bs.beat.incr.beat_addr i % 64 + k ≤ 64 ∧ c + k
          = min (bs.beat.incr.beat_addr (i + 1)) (addr.toNat + n) - addr.toNat := by
        have hnext : bs.beat.incr.beat_addr (i + 1) = addr.toNat / 64 * 64 + (i + 1) * 64 := by
          rw [hstart, if_neg (Nat.succ_ne_zero i)]
        have hcase := hstart i
        rw [hnext] at hm ⊢
        split_ifs at hcase <;> omega
      obtain ⟨hkn, hk64, hck⟩ := hk
      obtain ⟨hwritten, htaken⟩ := w_beat_written bs data (c := c) (by omega)
        hlower hupper hk64
      rw [hbytes, Nat.min_eq_left (by omega)] at htaken hwritten
      obtain ⟨hrest, hrest_written⟩ := ih (i + 1) (c + k) (by omega) hck
      -- the bytes of this beat, then those of the others
      rw [w_beats, htaken]
      refine ⟨hrest, ?_⟩
      rw [List.map_cons, AxiIncr.Burst.written_from, hwritten, hrest_written, hhere,
        AxiIncr.stretch_congr (g := fun j => data (c + j)) fun j hj => if_pos hj,
        ← Nat.add_assoc]
      rw [AxiIncr.stretch_append fun j _ => by rw [Nat.add_assoc]]
      congr 1
      omega

/-- A stretch that ends with a beat in its line. -/
theorem ends_iff {a n k : ℕ} (hpos : 0 < n) :
    beat_end a k = a + n ↔ 2 ^ k ∣ a + n ∧ a + n ≤ a + 2 ^ k := by
  have hpow := Nat.two_pow_pos k
  have hend : beat_end a k = (a / 2 ^ k + 1) * 2 ^ k := by
    simp [beat_end, AxiIncr.Burst.beat_stop, AxiIncr.Burst.aligned, Nat.add_mul]
  have hdiv := Nat.div_add_mod' a (2 ^ k)
  have hmod := Nat.mod_lt a hpow
  rw [hend]
  constructor
  · intro heq
    refine ⟨⟨_, heq.symm.trans (Nat.mul_comm _ _)⟩, ?_⟩
    rw [Nat.succ_mul] at heq
    omega
  · rintro ⟨⟨m, hm⟩, hle⟩
    -- the multiple above the start is the first one
    rw [hm, Nat.mul_comm]
    congr 1
    apply Nat.le_antisymm
    · rw [Nat.succ_le_iff, Nat.div_lt_iff_lt_mul hpow, Nat.mul_comm]
      omega
    · rw [← Nat.lt_succ_iff, ← Nat.mul_lt_mul_left hpow, ← hm, Nat.mul_succ, Nat.mul_add_one,
        Nat.mul_comm]
      omega

/-- In a page the transfer is its own last burst. -/
theorem last_start_page {a n : ℕ} (hpos : 0 < n) (hpage : a % 4096 + n ≤ 4096) :
    last_start a n = a := by
  unfold last_start
  omega

/-- **The burst of a page** holds its bytes, and writes nothing else exactly when it ends
with a beat. -/
theorem burst_written (hAW : 6 < AW) (hpos : 0 < n) (hle : addr.toNat + n ≤ 2 ^ AW)
    (hpage : addr.toNat % 4096 + n ≤ 4096) (data : ℕ → BitVec 8) :
    (w_beats (burst_at addr n) data ((burst_at addr n).beat.ax_len.toNat + 1) 0 0).2 = n
      ∧ ((burst_at addr n).beat.incr.written_from 6 0
          ((w_beats (burst_at addr n) data ((burst_at addr n).beat.ax_len.toNat + 1) 0 0).1.map wire)
        = AxiIncr.stretch addr.toNat n data ↔ EndsWithBeat addr.toNat n) := by
  obtain ⟨hbytes, haddr, hsize, hlen⟩ := burst_at_page addr hpos hpage
  have hstart := last_start_page hpos hpage
  by_cases hline : addr.toNat / 64 = (addr.toNat + n - 1) / 64
  · obtain ⟨beat, hbeats, hwritten⟩ := one_line_written hAW hpos hle hpage hline data
    obtain ⟨hsix, hcovers, hleast, -⟩ := ax_size_of_line hAW hpos hle hline
    have hone : (burst_at addr n).beat.ax_len.toNat + 1 = 1 := by omega
    rw [hone, hbeats]
    refine ⟨rfl, ?_⟩
    have hends : EndsWithBeat addr.toNat n
        ↔ beat_end addr.toNat (ax_size_of addr n).toNat = addr.toNat + n := by
      unfold EndsWithBeat
      rw [hstart]
      constructor
      · rintro (hc | ⟨k, -, hk⟩)
        · exact absurd hline hc
        · -- the search stops at the least size, which ends no later
          have hk' := (ends_iff hpos).mpr hk
          have hmono := beat_end_mono addr.toNat (hleast k (le_of_eq hk'.symm))
          omega
      · exact fun heq => Or.inr ⟨_, hsix, (ends_iff hpos).mp heq⟩
    rw [hends, List.map_singleton, AxiIncr.Burst.written_from, AxiIncr.Burst.written_from,
      List.append_nil, hwritten]
    constructor
    · intro heq
      have hlength := congrArg List.length heq
      simp only [AxiIncr.length_stretch] at hlength
      omega
    · intro heq
      rw [heq, Nat.add_sub_cancel_left]
      exact AxiIncr.stretch_congr fun j hj => if_pos hj
  · have hends : EndsWithBeat addr.toNat n := by
      unfold EndsWithBeat
      rw [hstart]
      exact Or.inl hline
    have hzero : (burst_at addr n).beat.incr.beat_addr 0 = addr.toNat := by
      rw [incr_of_page hpos hpage]
      rfl
    obtain ⟨hall, hwritten⟩ := lines_written hAW hpos hle hpage hline data
      ((burst_at addr n).beat.ax_len.toNat + 1) 0 0 (by omega) (by rw [hzero]; omega)
    refine ⟨hall, iff_of_true ?_ hends⟩
    simpa only [Nat.add_zero, Nat.sub_zero, Nat.zero_add] using hwritten

end Burst

/-! ## A transfer -/

section Transfer

variable {addr : BitVec AW} {n : ℕ}

/-- The beats do not depend on where the bytes are counted from. -/
theorem write_beats_shift (bursts : List (beat_and_size_t AW)) : ∀ (data : ℕ → BitVec 8) (c : ℕ),
    write_beats data bursts c = ((write_beats (fun k => data (c + k)) bursts 0).1,
      c + (write_beats (fun k => data (c + k)) bursts 0).2) := by
  induction bursts with
  | nil => exact fun data c => rfl
  | cons bs rest ih =>
      intro data c
      simp only [write_beats, Nat.zero_add]
      rw [ih data (c + _), ih (fun k => data (c + k)) _]
      simp only [Nat.add_assoc]

/-- What holds of the beats of a transfer. -/
structure Written (addr : BitVec AW) (n : ℕ) (bursts : List (beat_and_size_t AW))
    (data : ℕ → BitVec 8) : Prop where
  all : (write_beats data bursts 0).2 = n
  lasts : (write_beats data bursts 0).1.map (·.w_last)
    = BurstMarks.marks (bursts.map fun bs => n_beats bs.beat)
  exact_iff : AxiIncr.written 6 (bursts.map fun bs => bs.beat.incr)
      ((write_beats data bursts 0).1.map wire) = AxiIncr.stretch addr.toNat n data
    ↔ EndsWithBeat addr.toNat n

/-- A burst in front of the others. -/
theorem written_beats_cons (bs : beat_and_size_t AW) (rest : List (beat_and_size_t AW))
    (data : ℕ → BitVec 8) :
    AxiIncr.written 6 ((bs :: rest).map fun bs => bs.beat.incr)
        ((write_beats data (bs :: rest) 0).1.map wire)
      = bs.beat.incr.written_from 6 0
          ((w_beats bs data (bs.beat.ax_len.toNat + 1) 0 0).1.map wire)
        ++ AxiIncr.written 6 (rest.map fun bs => bs.beat.incr)
          ((write_beats (fun k => data ((w_beats bs data (bs.beat.ax_len.toNat + 1) 0 0).2 + k))
            rest 0).1.map wire) := by
  simp only [write_beats, Nat.zero_add, List.map_append, List.map_cons]
  rw [AxiIncr.written_cons, write_beats_shift]
  rw [List.length_map, length_w_beats]
  rfl

/-- The burst up to the end of a page ends at the end of a line. -/
theorem ends_with_beat_page (addr : BitVec AW) :
    EndsWithBeat addr.toNat (bytes_in_page addr) := by
  have hpos : 0 < bytes_in_page addr := bytes_in_page_pos
  unfold EndsWithBeat
  rw [last_start_page hpos (by unfold bytes_in_page; omega)]
  by_cases hline : addr.toNat / 64 = (addr.toNat + bytes_in_page addr - 1) / 64
  · refine Or.inr ⟨6, le_refl 6, ?_, ?_⟩ <;> unfold bytes_in_page at * <;> omega
  · exact Or.inl hline

/-- Only the end of a transfer counts, so a page less in front of it changes nothing. -/
theorem ends_with_beat_next (addr : BitVec AW) {n : ℕ} (hless : bytes_in_page addr < n) :
    EndsWithBeat (addr.toNat + bytes_in_page addr) (n - bytes_in_page addr)
      ↔ EndsWithBeat addr.toNat n := by
  have hstop : addr.toNat + bytes_in_page addr + (n - bytes_in_page addr) = addr.toNat + n := by
    omega
  have hstart : last_start (addr.toNat + bytes_in_page addr) (n - bytes_in_page addr)
      = last_start addr.toNat n := by
    unfold last_start bytes_in_page
    unfold bytes_in_page at hless
    omega
  unfold EndsWithBeat
  rw [hstop, hstart]

theorem create_ax_beats_written (hAW : 6 < AW) (hpos : 0 < n) (hle : addr.toNat + n ≤ 2 ^ AW)
    (data : ℕ → BitVec 8) : Written addr n (create_ax_beats addr n) data := by
  revert data
  refine create_rounds_induction (P := fun addr n bursts => ∀ data, Written addr n bursts data)
    ?_ ?_ hpos hle
  · -- one page: one burst has all bytes
    intro addr n hpos hle hpage data
    obtain ⟨hall, hexact⟩ := burst_written hAW hpos hle hpage data
    refine ⟨?_, ?_, ?_⟩
    · simp only [write_beats, Nat.zero_add]
      exact hall
    · simp only [write_beats, Nat.zero_add, List.append_nil]
      rw [burst_marks, List.map_singleton, BurstMarks.marks_singleton]
    · rw [written_beats_cons, ← hexact]
      simp only [List.map_nil, AxiIncr.written, List.append_nil]
  · -- the burst of the first page, and what the induction says of the rest
    intro addr n rest hle hpage hnext hrest data
    have hpage_pos : 0 < bytes_in_page addr := bytes_in_page_pos
    have hin : addr.toNat % 4096 + bytes_in_page addr ≤ 4096 := by
      unfold bytes_in_page
      omega
    have hless : bytes_in_page addr < n := by
      unfold bytes_in_page
      omega
    obtain ⟨hall, hexact⟩ := burst_written hAW hpage_pos (by omega) hin data
    have hlater := hrest fun k => data (bytes_in_page addr + k)
    refine ⟨?_, ?_, ?_⟩
    · simp only [write_beats, Nat.zero_add, hall]
      rw [write_beats_shift, hlater.all]
      omega
    · simp only [write_beats, Nat.zero_add, hall, List.map_append]
      rw [burst_marks, write_beats_shift, hlater.lasts, List.map_cons]
      rfl
    · -- the bytes of the transfer are those of the page and those behind it; exact is the rest,
      -- since a burst that ends a page ends with its beat
      have hjoin : AxiIncr.stretch addr.toNat n data
          = AxiIncr.stretch addr.toNat (bytes_in_page addr) data
            ++ AxiIncr.stretch (addr.toNat + bytes_in_page addr) (n - bytes_in_page addr)
              (fun k => data (bytes_in_page addr + k)) := by
        rw [AxiIncr.stretch_append fun _ _ => rfl, Nat.add_sub_cancel' hless.le]
      rw [written_beats_cons, hexact.mpr (ends_with_beat_page addr), hall, hjoin,
        List.append_cancel_left_eq, ← ends_with_beat_next addr hless, ← hnext]
      exact hlater.exact_iff

/-- The write never fails its assertion, so what counts is what the beats write. -/
theorem writes_exactly_iff (s : State AW) (data : ℕ → BitVec 8) (offset : ℕ) (hAW : 6 < AW)
    (hpos : 0 < n) (hle : addr.toNat + n ≤ 2 ^ AW) : WritesExactly s addr data n offset
    ↔ AxiIncr.written 6 ((create_ax_beats addr n).map fun bs => bs.beat.incr)
        ((write_beats (fun k => data (offset + k)) (create_ax_beats addr n) 0).1.map wire)
      = AxiIncr.stretch addr.toNat n fun k => data (offset + k) := by
  -- the call never fails, and what it queues is known
  have hbeats := create_ax_beats_written hAW hpos hle fun k => data (offset + k)
  have hwrite : write s addr data n offset = some { s with
      write_queue := s.write_queue ++ [⟨BitVec.ofNat 32 (create_ax_beats addr n).length⟩]
      aw_pending_queue := s.aw_pending_queue ++ (create_ax_beats addr n).map (·.beat)
      w_pending_queue := s.w_pending_queue
        ++ (write_beats (fun k => data (offset + k)) (create_ax_beats addr n) 0).1 } := by
    rw [write]
    exact if_pos hbeats.all
  have hbursts : (create_ax_beats addr n).map (fun bs => bs.beat.incr)
      = ((create_ax_beats addr n).map (·.beat)).map axi_ax_beat_t.incr := by
    rw [List.map_map]
    rfl
  rw [hbursts]
  -- both directions read off that
  constructor
  · rintro ⟨s', bursts, beats, hs, haw, hw, -, hwritten⟩
    obtain rfl := Option.some.inj (hwrite.symm.trans hs)
    rw [List.append_cancel_left haw, List.append_cancel_left hw]
    exact hwritten
  · intro hwritten
    refine ⟨_, _, _, hwrite, rfl, rfl, ?_, hwritten⟩
    rw [hbeats.lasts, List.map_map]
    rfl

/-- **Exactly the transfers that end with a beat.** The others write zeros behind their last
byte. -/
theorem write_iff (s : State AW) (data : ℕ → BitVec 8) (offset : ℕ) (hAW : 6 < AW) (hpos : 0 < n)
    (hle : addr.toNat + n ≤ 2 ^ AW) :
    WritesExactly s addr data n offset ↔ EndsWithBeat addr.toNat n :=
  (writes_exactly_iff s data offset hAW hpos hle).trans
    (create_ax_beats_written hAW hpos hle fun k => data (offset + k)).exact_iff

/-- Three pages; the last burst has several beats. -/
theorem write_iff_demo :
    WritesExactly (reset : State 32) 0x1003f8#32 (fun k => BitVec.ofNat 8 k) 8000 0 :=
  (write_iff reset _ 0 (by decide) (by decide) (by decide)).mpr (by decide)

/-- **Three bytes at the start of a line** are four strobed lanes: the beat has four bytes, and
the last one is written as zero. -/
theorem strobes_too_many : ¬ ∀ (s : State 32) (addr : BitVec 32) (data : ℕ → BitVec 8)
    (n_bytes offset : ℕ), 0 < n_bytes → addr.toNat + n_bytes ≤ 2 ^ 32 →
    WritesExactly s addr data n_bytes offset := by
  intro hall
  have hthree := hall reset 0x1c100000#32 (fun _ => 7) 3 0 (by decide) (by decide)
  rw [writes_exactly_iff reset _ 0 (by decide) (by decide) (by decide)] at hthree
  revert hthree
  decide +kernel

end Transfer

end Pspin.AxiMaster
