/-
The bursts that `create_ax_beats` makes of a transfer.

Every page that the transfer touches gets one burst: at most 64 lines, so the limit of 256
beats is never met. A burst in one line is a single beat, whose size is searched for from
below; every other burst is as wide as the bus.

Which definition is the source's: `search_size`, `search_ax_size` and `create_checked` are the
loops of `create_ax_beats` as `AXIDriver.hpp` has them, with the assertion in the search, and
with `none` where it fails or where the rounds given do not suffice. `fit_size`, `ax_size_of`
and `create_rounds` of `AxiDriver` are the same loops as total functions, without the
assertion; they are what `AXIMaster` calls in the model. `create_ax_beats_split` joins the
two: on every transfer the checked loops end, no assertion fails, and they give the bursts of
the total ones. It also says what the bursts cover.
-/
import Pspin.AxiDriver
import Pspin.AxiIncr

set_option autoImplicit false

namespace Pspin.AxiDriver

variable {AW : ℕ}

/-- The burst that an Ax beat asks for. -/
def axi_ax_beat_t.incr (ax : axi_ax_beat_t AW) : AxiIncr.Burst :=
  ⟨ax.ax_addr.toNat, ax.ax_len.toNat, ax.ax_size.toNat⟩

/-! ## The loops, checked -/

/-- The `while` that searches for the size: `none` where its assertion fails, or when the
rounds run out. Its total form is `fit_size`. -/
def search_size (addr : BitVec AW) (n_bytes : ℕ) : ℕ → BitVec 8 → Option (BitVec 8)
  | 0, _ => none
  | n + 1, size =>
    let ax : axi_ax_beat_t AW := ⟨addr, 0, size, AXI_BURST_INCR⟩
    if (beat_upper_byte ax 0 n_bytes - beat_lower_byte ax 0).toNat < n_bytes then
      if size.toNat < Nat.log 2 AXI_SW then search_size addr n_bytes n (size + 1) else none
    else some size

/-- The size of the beats; the search has as many rounds as there are sizes. -/
def search_ax_size (addr : BitVec AW) (n_bytes : ℕ) : Option (BitVec 8) :=
  let line := BitVec.ofNat 8 (Nat.log 2 AXI_SW)
  if AXI_SW < n_bytes ∨ addr >>> line ≠ last_addr addr n_bytes >>> line then some line
  else search_size addr n_bytes (Nat.log 2 AXI_SW + 1) (BitVec.ofNat 8 (Nat.log 2 n_bytes))

/-- The loop of `create_ax_beats` with its recursive call: `none` where the assertion fails, or
when the rounds run out. Its total form is `create_rounds`. -/
def create_checked : ℕ → BitVec AW → ℕ → Option (List (beat_and_size_t AW))
  | 0, _, _ => none
  | r + 1, addr, n_bytes =>
    if n_bytes = 0 then some []
    else
      match search_ax_size addr n_bytes with
      | none => none
      | some ax_size =>
        if page_num addr ≠ page_num (last_addr addr n_bytes) then
          let bytes_in_burst := bytes_in_page addr
          match create_checked r addr bytes_in_burst,
              create_checked r (addr + BitVec.ofNat AW bytes_in_burst) (n_bytes - bytes_in_burst) with
          | some now, some later => some (now ++ later)
          | _, _ => none
        else
          let bs := burst_at addr n_bytes
          let bs := { bs with beat := { bs.beat with ax_size := ax_size } }
          (create_checked r (addr + BitVec.ofNat AW bs.n_bytes) (n_bytes - bs.n_bytes)).map (bs :: ·)

/-! ## Lanes -/

section Lanes

variable {addr : BitVec AW} {size : BitVec 8}

/-- A difference that fits is the difference of the numbers. -/
theorem toNat_sub_of_eq {x y : BitVec AW} {d c : ℕ} (h : x.toNat + d = y.toNat + c)
    (hc : c < 2 ^ AW) : (x + BitVec.ofNat AW d - y).toNat = c := by
  have hsum : x + BitVec.ofNat AW d = BitVec.ofNat AW c + y := by
    apply BitVec.eq_of_toNat_eq
    simp only [BitVec.toNat_add, BitVec.toNat_ofNat, Nat.add_mod_mod, Nat.mod_add_mod]
    rw [h, Nat.add_comm]
  rw [hsum, BitVec.add_sub_cancel, BitVec.toNat_ofNat, Nat.mod_eq_of_lt hc]

theorem toNat_axi_aligned_address (addr : BitVec AW) (size : BitVec 8) :
    (axi_aligned_address addr size).toNat = addr.toNat / 2 ^ size.toNat * 2 ^ size.toNat := by
  have hle := Nat.div_mul_le_self addr.toNat (2 ^ size.toNat)
  rw [axi_aligned_address, axi_num_bytes, BitVec.toNat_ofNat,
    Nat.mod_eq_of_lt (hle.trans_lt addr.isLt)]

theorem toNat_line_address : (line_address addr).toNat = addr.toNat / 64 * 64 := by
  have hle := Nat.div_mul_le_self addr.toNat 64
  rw [line_address, AXI_SW, BitVec.toNat_ofNat, Nat.mod_eq_of_lt (hle.trans_lt addr.isLt)]

/-- The address space is a number of lines. -/
theorem lines_of_space (hAW : 6 < AW) : ∃ m, 2 ^ AW = 64 * m ∧ 1 < m := by
  obtain ⟨d, rfl⟩ := Nat.exists_eq_add_of_lt hAW
  refine ⟨2 ^ (d + 1), by rw [Nat.add_assoc, Nat.pow_add], ?_⟩
  exact Nat.one_lt_two_pow (Nat.succ_ne_zero d)

theorem toNat_sub_line_address (hAW : 6 < AW) :
    ((addr - line_address addr).setWidth 32).toNat = addr.toNat % 64 := by
  obtain ⟨m, hm, hm1⟩ := lines_of_space hAW
  have hsub : (addr + BitVec.ofNat AW 0 - line_address addr).toNat = addr.toNat % 64 := by
    apply toNat_sub_of_eq
    · rw [toNat_line_address]
      omega
    · omega
  rw [BitVec.toNat_setWidth, ← hsub]
  rw [BitVec.add_zero] at hsub ⊢
  rw [hsub]
  omega

theorem toNat_beat_lower_byte (ax : axi_ax_beat_t AW) (hAW : 6 < AW) (i : ℕ) :
    (beat_lower_byte ax i).toNat = (beat_addr ax i).toNat % 64 :=
  toNat_sub_line_address hAW

/-- A beat of at most the size of the bus ends in its line. -/
theorem beat_in_line (b : AxiIncr.Burst) (h : b.size ≤ 6) :
    b.addr < b.beat_stop 0 ∧ b.beat_stop 0 ≤ b.addr / 64 * 64 + 64 := by
  have hlt := b.beat_addr_lt (i := 0)
  have hle := b.beat_stop_le (i := 0) h
  rw [AxiIncr.Burst.beat_addr_zero] at hlt hle
  exact ⟨hlt, hle⟩

/-- The first beat ends where its size does. -/
theorem toNat_beat_upper_byte_zero (ax : axi_ax_beat_t AW) (n : ℕ) (hAW : 6 < AW)
    (hsize : ax.ax_size.toNat ≤ 6) :
    (beat_upper_byte ax 0 n).toNat = ax.incr.beat_stop 0 - ax.ax_addr.toNat / 64 * 64 := by
  obtain ⟨m, hm, hm1⟩ := lines_of_space hAW
  obtain ⟨hlt, hle⟩ := beat_in_line ax.incr hsize
  have haddr : ax.incr.addr = ax.ax_addr.toNat := rfl
  rw [haddr] at hlt hle
  have hstop : ax.incr.beat_stop 0 = ax.ax_addr.toNat / 2 ^ ax.ax_size.toNat * 2 ^ ax.ax_size.toNat
      + 2 ^ ax.ax_size.toNat := by
    show _ + (0 + 1) * _ = _
    rw [Nat.zero_add, Nat.one_mul]
    rfl
  have hsub : (axi_aligned_address ax.ax_addr ax.ax_size
      + BitVec.ofNat AW (axi_num_bytes ax.ax_size) - line_address ax.ax_addr).toNat
      = ax.incr.beat_stop 0 - ax.ax_addr.toNat / 64 * 64 := by
    apply toNat_sub_of_eq
    · rw [toNat_axi_aligned_address, toNat_line_address, axi_num_bytes]
      omega
    · omega
  rw [beat_upper_byte]
  simp only [↓reduceIte]
  rw [BitVec.toNat_setWidth, hsub]
  omega

end Lanes

/-! ## The search for the size -/

section Search

variable (addr : BitVec AW) (size : BitVec 8) {n r : ℕ}

/-- Where a beat of this size ends. -/
def beat_end (addr size : ℕ) : ℕ := AxiIncr.Burst.beat_stop ⟨addr, 0, size⟩ 0

theorem beat_end_six (addr : ℕ) : beat_end addr 6 = addr / 64 * 64 + 64 := by
  simp [beat_end, AxiIncr.Burst.beat_stop, AxiIncr.Burst.aligned]

/-- A wider beat ends no earlier. -/
theorem beat_end_mono (addr : ℕ) {j k : ℕ} (h : j ≤ k) : beat_end addr j ≤ beat_end addr k :=
  (AxiIncr.Burst.beat_stop_le (b := ⟨addr, 0, j⟩) (i := 0) h).trans (by
    simp [beat_end, AxiIncr.Burst.beat_stop, AxiIncr.Burst.aligned])

/-- What the search compares. -/
theorem too_small_iff (hAW : 6 < AW) (hsize : size.toNat ≤ 6) (hpos : 0 < n) :
    (beat_upper_byte (⟨addr, 0, size, AXI_BURST_INCR⟩ : axi_ax_beat_t AW) 0 n
      - beat_lower_byte (⟨addr, 0, size, AXI_BURST_INCR⟩ : axi_ax_beat_t AW) 0).toNat < n
      ↔ beat_end addr.toNat size.toNat < addr.toNat + n := by
  have hupper := toNat_beat_upper_byte_zero ⟨addr, 0, size, AXI_BURST_INCR⟩ n hAW hsize
  have hlower := toNat_beat_lower_byte ⟨addr, 0, size, AXI_BURST_INCR⟩ hAW 0
  obtain ⟨hlt, hle⟩ := beat_in_line ⟨addr.toNat, 0, size.toNat⟩ hsize
  have hfirst : beat_addr (⟨addr, 0, size, AXI_BURST_INCR⟩ : axi_ax_beat_t AW) 0 = addr := rfl
  have hend : beat_end addr.toNat size.toNat
      = (⟨addr, 0, size, AXI_BURST_INCR⟩ : axi_ax_beat_t AW).incr.beat_stop 0 := rfl
  rw [hfirst] at hlower
  simp only at hupper
  change addr.toNat < beat_end addr.toNat size.toNat at hlt
  change beat_end addr.toNat size.toNat ≤ _ at hle
  rw [← hend] at hupper
  generalize beat_end addr.toNat size.toNat = stop at *
  rw [BitVec.toNat_sub_of_le (by rw [BitVec.le_def]; omega)]
  omega

/-- **The search.** It ends at the least size, from the first one on, whose beat covers the
bytes, and its assertion holds all the way. -/
theorem fit_size_spec (hAW : 6 < AW) (hpos : 0 < n) (hsize : size.toNat ≤ 6)
    (hline : addr.toNat + n ≤ beat_end addr.toNat 6) (hr : 6 - size.toNat ≤ r) :
    (fit_size addr n r size).toNat ≤ 6
      ∧ addr.toNat + n ≤ beat_end addr.toNat (fit_size addr n r size).toNat
      ∧ (∀ j, size.toNat ≤ j → addr.toNat + n ≤ beat_end addr.toNat j →
        (fit_size addr n r size).toNat ≤ j)
      ∧ ∀ r', 6 - size.toNat < r' → search_size addr n r' size = some (fit_size addr n r size) := by
  induction r generalizing size with
  | zero =>
      obtain hsix : size.toNat = 6 := by omega
      have hfits : ¬ beat_end addr.toNat size.toNat < addr.toNat + n := by
        rw [hsix]
        omega
      rw [show fit_size addr n 0 size = size from rfl]
      refine ⟨hsize, by omega, fun j hj _ => hj, fun r' hr' => ?_⟩
      obtain ⟨r', rfl⟩ := Nat.exists_eq_add_of_lt hr'
      rw [search_size]
      simp only [too_small_iff addr size hAW hsize hpos]
      rw [if_neg hfits]
  | succ r ih =>
      have hsearch : ∀ r', 6 - size.toNat < r' → search_size addr n r' size
          = if beat_end addr.toNat size.toNat < addr.toNat + n then
              search_size addr n (r' - 1) (size + 1) else some size := by
        intro r' hr'
        obtain ⟨r', rfl⟩ := Nat.exists_eq_add_of_lt hr'
        rw [search_size]
        simp only [too_small_iff addr size hAW hsize hpos]
        by_cases hsmall : beat_end addr.toNat size.toNat < addr.toNat + n
        · have hlt : size.toNat < 6 := by
            by_contra hge
            rw [show size.toNat = 6 by omega] at hsmall
            omega
          rw [if_pos hsmall, if_pos hsmall, if_pos (show size.toNat < Nat.log 2 AXI_SW from hlt)]
          rfl
        · rw [if_neg hsmall, if_neg hsmall]
      rw [fit_size]
      simp only [too_small_iff addr size hAW hsize hpos]
      by_cases hsmall : beat_end addr.toNat size.toNat < addr.toNat + n
      · have hlt : size.toNat < 6 := by
          by_contra hge
          rw [show size.toNat = 6 by omega] at hsmall
          omega
        have hnext : (size + 1).toNat = size.toNat + 1 := by
          rw [BitVec.toNat_add]
          exact Nat.mod_eq_of_lt (by simp; omega)
        obtain ⟨hle, hcovers, hleast, hsearched⟩ := ih (size + 1) (by omega) (by omega)
        rw [if_pos hsmall]
        refine ⟨hle, hcovers, fun j hj hj' => ?_, fun r' hr' => ?_⟩
        · -- a size that covers the bytes is not this one
          apply hleast j _ hj'
          by_contra hlt'
          rw [show j = size.toNat by omega] at hj'
          omega
        · rw [hsearch r' hr', if_pos hsmall]
          exact hsearched _ (by omega)
      · rw [if_neg hsmall]
        refine ⟨hsize, by omega, fun j hj _ => hj, fun r' hr' => ?_⟩
        rw [hsearch r' hr', if_neg hsmall]

end Search

/-! ## The burst of a page -/

section Burst

variable {addr : BitVec AW} {n : ℕ}

theorem toNat_last_addr (hpos : 0 < n) (hle : addr.toNat + n ≤ 2 ^ AW) :
    (last_addr addr n).toNat = addr.toNat + n - 1 := by
  obtain ⟨m, rfl⟩ := Nat.exists_eq_add_of_lt hpos
  rw [Nat.zero_add, last_addr_succ, BitVec.toNat_add, BitVec.toNat_ofNat, Nat.add_mod_mod,
    Nat.mod_eq_of_lt (by omega)]
  omega

/-- Whether the transfer leaves its page. -/
theorem page_num_eq_iff (hpos : 0 < n) (hle : addr.toNat + n ≤ 2 ^ AW) :
    page_num addr = page_num (last_addr addr n) ↔ addr.toNat % 4096 + n ≤ 4096 := by
  rw [page_num, page_num, toNat_last_addr hpos hle, Nat.shiftRight_eq_div_pow,
    Nat.shiftRight_eq_div_pow]
  omega

/-- Whether the transfer leaves its line. -/
theorem several_lines_iff (hpos : 0 < n) (hle : addr.toNat + n ≤ 2 ^ AW) :
    (AXI_SW < n ∨ addr >>> BitVec.ofNat 8 (Nat.log 2 AXI_SW)
      ≠ last_addr addr n >>> BitVec.ofNat 8 (Nat.log 2 AXI_SW))
      ↔ addr.toNat / 64 ≠ (addr.toNat + n - 1) / 64 := by
  have hline : (BitVec.ofNat 8 (Nat.log 2 AXI_SW)).toNat = 6 := by decide
  have hlast := toNat_last_addr hpos hle
  rw [Ne, ← BitVec.toNat_inj, BitVec.ushiftRight_eq', BitVec.ushiftRight_eq', hline,
    BitVec.toNat_ushiftRight, BitVec.toNat_ushiftRight, hlast, Nat.shiftRight_eq_div_pow,
    Nat.shiftRight_eq_div_pow, AXI_SW]
  omega

/-- In one line the search finds the least size that covers the bytes. -/
theorem ax_size_of_line (hAW : 6 < AW) (hpos : 0 < n) (hle : addr.toNat + n ≤ 2 ^ AW)
    (hline : addr.toNat / 64 = (addr.toNat + n - 1) / 64) :
    (ax_size_of addr n).toNat ≤ 6
      ∧ addr.toNat + n ≤ beat_end addr.toNat (ax_size_of addr n).toNat
      ∧ (∀ j, addr.toNat + n ≤ beat_end addr.toNat j → (ax_size_of addr n).toNat ≤ j)
      ∧ search_ax_size addr n = some (ax_size_of addr n) := by
  have hlog : Nat.log 2 n ≤ 6 :=
    (Nat.log_mono_right (by omega : n ≤ 2 ^ 6)).trans (le_of_eq (Nat.log_pow (by decide) 6))
  have hfirst : (BitVec.ofNat 8 (Nat.log 2 n)).toNat = Nat.log 2 n := by
    rw [BitVec.toNat_ofNat, Nat.mod_eq_of_lt (by omega)]
  have hcond := not_congr (several_lines_iff hpos hle)
  have hsix := beat_end_six addr.toNat
  unfold ax_size_of search_ax_size
  simp only
  rw [if_neg (hcond.mpr (not_not.mpr hline)), if_neg (hcond.mpr (not_not.mpr hline))]
  obtain ⟨hsize, hcovers, hleast, hsearch⟩ :=
    fit_size_spec addr (BitVec.ofNat 8 (Nat.log 2 n)) (r := Nat.log 2 AXI_SW) hAW hpos
      (by omega) (by omega) (by rw [show Nat.log 2 AXI_SW = 6 by decide]; omega)
  refine ⟨hsize, hcovers, fun j hj => hleast j ?_ hj, hsearch _ ?_⟩
  · -- a beat that covers the bytes is not smaller than they are
    have hbytes : n ≤ 2 ^ j := by
      have halign := (⟨addr.toNat, 0, j⟩ : AxiIncr.Burst).aligned_le
      have hend : beat_end addr.toNat j = (⟨addr.toNat, 0, j⟩ : AxiIncr.Burst).aligned + 2 ^ j := by
        simp [beat_end, AxiIncr.Burst.beat_stop]
      simp only at halign
      omega
    rw [hfirst]
    exact (Nat.log_mono_right hbytes).trans (le_of_eq (Nat.log_pow (by decide) j))
  · rw [show Nat.log 2 AXI_SW = 6 by decide]
    omega

/-- Over several lines the beats are as wide as the bus. -/
theorem ax_size_of_lines (hpos : 0 < n) (hle : addr.toNat + n ≤ 2 ^ AW)
    (hlines : addr.toNat / 64 ≠ (addr.toNat + n - 1) / 64) :
    (ax_size_of addr n).toNat = 6 ∧ search_ax_size addr n = some (ax_size_of addr n) := by
  have hcond := (several_lines_iff hpos hle).mpr hlines
  unfold ax_size_of search_ax_size
  simp only
  rw [if_pos hcond, if_pos hcond]
  exact ⟨by decide, rfl⟩

/-- **No assertion in the search fails.** -/
theorem search_ax_size_eq (hAW : 6 < AW) (hpos : 0 < n) (hle : addr.toNat + n ≤ 2 ^ AW) :
    search_ax_size addr n = some (ax_size_of addr n) := by
  by_cases hline : addr.toNat / 64 = (addr.toNat + n - 1) / 64
  · exact (ax_size_of_line hAW hpos hle hline).2.2.2
  · exact (ax_size_of_lines hpos hle hline).2

/-- In a page one burst takes all bytes, in as many beats as there are lines. -/
theorem burst_at_page (addr : BitVec AW) (hpos : 0 < n) (hpage : addr.toNat % 4096 + n ≤ 4096) :
    (burst_at addr n).n_bytes = n ∧ (burst_at addr n).beat.ax_addr = addr
      ∧ (burst_at addr n).beat.ax_size = ax_size_of addr n
      ∧ (burst_at addr n).beat.ax_len.toNat = (addr.toNat + n - 1) / 64 - addr.toNat / 64 := by
  refine ⟨?_, rfl, rfl, ?_⟩ <;> unfold burst_at AXI_SW <;> simp only
  · split_ifs <;> omega
  · rw [BitVec.toNat_ofNat]
    split_ifs <;> simp only <;> omega

/-- What a burst must be for its bytes. -/
structure Fits (bs : beat_and_size_t AW) : Prop where
  pos : 0 < bs.n_bytes
  /-- The beats reach as far as the bytes. -/
  carries : bs.beat.ax_addr.toNat + bs.n_bytes ≤ bs.beat.incr.stop
  /-- Beats that the bus has, between 1 and 256 of them, and all in one page. -/
  legal : bs.beat.incr.Legal 6
  incr : bs.beat.ax_burst = AXI_BURST_INCR

theorem burst_at_fits (hAW : 6 < AW) (hpos : 0 < n) (hle : addr.toNat + n ≤ 2 ^ AW)
    (hpage : addr.toNat % 4096 + n ≤ 4096) : Fits (burst_at addr n) := by
  obtain ⟨hbytes, haddr, hsize, hlen⟩ := burst_at_page addr hpos hpage
  have hincr : (burst_at addr n).beat.incr
      = ⟨addr.toNat, (addr.toNat + n - 1) / 64 - addr.toNat / 64, (ax_size_of addr n).toNat⟩ := by
    rw [axi_ax_beat_t.incr, haddr, hlen, hsize]
  have hstop : (burst_at addr n).beat.incr.size ≤ 6
      ∧ addr.toNat + n ≤ (burst_at addr n).beat.incr.stop
      ∧ (burst_at addr n).beat.incr.stop ≤ (addr.toNat + n - 1) / 64 * 64 + 64 := by
    rw [hincr]
    by_cases hline : addr.toNat / 64 = (addr.toNat + n - 1) / 64
    · -- one beat
      obtain ⟨hsix, hcovers, -, -⟩ := ax_size_of_line hAW hpos hle hline
      have hwide := beat_end_mono addr.toNat hsix
      rw [beat_end_six] at hwide
      have hzero : (addr.toNat + n - 1) / 64 - addr.toNat / 64 = 0 := by omega
      rw [hzero]
      exact ⟨hsix, hcovers, by rw [← hline]; exact hwide⟩
    · -- whole lines
      obtain ⟨hsix, -⟩ := ax_size_of_lines hpos hle hline
      rw [hsix]
      refine ⟨le_refl 6, ?_, ?_⟩ <;>
        simp only [AxiIncr.Burst.stop, AxiIncr.Burst.beat_stop, AxiIncr.Burst.aligned] <;> omega
  obtain ⟨hsix, hcarries, hupper⟩ := hstop
  refine ⟨by rwa [hbytes], by rwa [haddr, hbytes], ⟨hsix, BitVec.isLt _, ?_⟩, rfl⟩
  have hstart : (burst_at addr n).beat.incr.addr = addr.toNat := by rw [hincr]
  rw [hstart]
  omega

end Burst

/-! ## All bursts -/

/-- The bursts take the bytes of a transfer in order, all of them and nothing else, and each
is fit for its own. -/
structure Split (addr : BitVec AW) (n_bytes : ℕ) (beats : List (beat_and_size_t AW)) : Prop where
  covers : (beats.flatMap fun bs => List.range' bs.beat.ax_addr.toNat bs.n_bytes)
    = List.range' addr.toNat n_bytes
  sum : (beats.map (·.n_bytes)).sum = n_bytes
  fits : ∀ bs ∈ beats, Fits bs

section Rounds

variable {addr : BitVec AW} {n r : ℕ}

/-- A transfer in one page is one burst. -/
theorem create_rounds_page (hpos : 0 < n) (hle : addr.toNat + n ≤ 2 ^ AW)
    (hpage : addr.toNat % 4096 + n ≤ 4096) : create_rounds (r + 1) addr n = [burst_at addr n] := by
  have hsame := (page_num_eq_iff hpos hle).mpr hpage
  obtain ⟨hbytes, -⟩ := burst_at_page addr hpos hpage
  rw [create_rounds, if_neg (by omega), if_neg (not_not.mpr hsame)]
  simp only
  rw [hbytes, Nat.sub_self]
  cases r with
  | zero => rfl
  | succ r => rw [create_rounds, if_pos rfl]

/-- A transfer over several pages is the burst of the first one, and the rest. -/
theorem create_rounds_pages (hpos : 0 < n) (hle : addr.toNat + n ≤ 2 ^ AW) (hr : n ≤ r + 1)
    (hpage : 4096 < addr.toNat % 4096 + n) :
    create_rounds (r + 1) addr n = burst_at addr (bytes_in_page addr)
      :: create_rounds r (addr + BitVec.ofNat AW (bytes_in_page addr)) (n - bytes_in_page addr) := by
  have hother : page_num addr ≠ page_num (last_addr addr n) :=
    fun hc => absurd ((page_num_eq_iff hpos hle).mp hc) (Nat.not_le_of_lt hpage)
  have hpage_pos : 0 < bytes_in_page addr := bytes_in_page_pos
  have hless : bytes_in_page addr < n := bytes_in_page_lt hpos hother
  obtain ⟨r, rfl⟩ := Nat.exists_eq_add_of_lt (by omega : 0 < r)
  rw [create_rounds, if_neg (by omega), if_pos hother]
  simp only
  rw [create_rounds_page hpage_pos (by omega) (by unfold bytes_in_page; omega)]
  rfl

/-- Where the next page begins. -/
theorem toNat_next_page (hle : addr.toNat + n ≤ 2 ^ AW)
    (hpage : 4096 < addr.toNat % 4096 + n) :
    (addr + BitVec.ofNat AW (bytes_in_page addr)).toNat = addr.toNat + bytes_in_page addr := by
  rw [BitVec.toNat_add, BitVec.toNat_ofNat, Nat.add_mod_mod]
  apply Nat.mod_eq_of_lt
  unfold bytes_in_page
  omega

/-- **Rule for transfers**, page by page. -/
theorem create_rounds_induction {P : BitVec AW → ℕ → List (beat_and_size_t AW) → Prop}
    (page : ∀ addr n, 0 < n → addr.toNat + n ≤ 2 ^ AW → addr.toNat % 4096 + n ≤ 4096 →
      P addr n [burst_at addr n])
    (pages : ∀ addr n rest, addr.toNat + n ≤ 2 ^ AW → 4096 < addr.toNat % 4096 + n →
      (addr + BitVec.ofNat AW (bytes_in_page addr)).toNat = addr.toNat + bytes_in_page addr →
      P (addr + BitVec.ofNat AW (bytes_in_page addr)) (n - bytes_in_page addr) rest →
      P addr n (burst_at addr (bytes_in_page addr) :: rest))
    (hpos : 0 < n) (hle : addr.toNat + n ≤ 2 ^ AW) : P addr n (create_ax_beats addr n) := by
  -- the induction is on the rounds, for any transfer with no more bytes than rounds
  have hall : ∀ r, ∀ {addr : BitVec AW} {n : ℕ}, 0 < n → addr.toNat + n ≤ 2 ^ AW → n ≤ r →
      P addr n (create_rounds r addr n) := by
    intro r
    induction r with
    | zero =>
        intro addr n hpos hle hr
        omega
    | succ r ih =>
        intro addr n hpos hle hr
        by_cases hpage : addr.toNat % 4096 + n ≤ 4096
        · -- all bytes lie in one page: one burst, and no bytes are left
          rw [create_rounds_page hpos hle hpage]
          exact page addr n hpos hle hpage
        · -- otherwise the burst goes to the end of the page, and the rest starts the next page
          have hmore := Nat.lt_of_not_le hpage
          have hnext := toNat_next_page hle hmore
          have hless : bytes_in_page addr < n := by
            unfold bytes_in_page
            omega
          have hpage_pos : 0 < bytes_in_page addr := bytes_in_page_pos
          rw [create_rounds_pages hpos hle hr hmore]
          exact pages addr n _ hle hmore hnext (ih (by omega) (by omega) (by omega))
  exact hall n hpos hle (le_refl n)

/-- **The checked loops end**, without a failed assertion, and make the same bursts. -/
theorem create_checked_eq (hAW : 6 < AW) : ∀ {r r' : ℕ} {addr : BitVec AW} {n : ℕ},
    addr.toNat + n ≤ 2 ^ AW → n ≤ r → n < r' →
      create_checked r' addr n = some (create_rounds r addr n) := by
  intro r
  induction r with
  | zero =>
      intro r' addr n hle hr hr'
      obtain ⟨r', rfl⟩ := Nat.exists_eq_add_of_lt hr'
      rw [create_checked, if_pos (Nat.le_zero.mp hr)]
      rfl
  | succ r ih =>
      intro r' addr n hle hr hr'
      obtain ⟨m, rfl⟩ := Nat.exists_eq_add_of_lt hr'
      rw [create_checked, create_rounds]
      by_cases hzero : n = 0
      · rw [if_pos hzero, if_pos hzero]
      have hpos := Nat.pos_of_ne_zero hzero
      have hsearch := search_ax_size_eq hAW hpos hle
      rw [if_neg hzero, if_neg hzero, hsearch]
      simp only
      -- a page is crossed: two calls, each for fewer bytes
      split_ifs with hpage
      · have hmore : 4096 < addr.toNat % 4096 + n := by
          by_contra hc
          exact hpage ((page_num_eq_iff hpos hle).mpr (Nat.le_of_not_lt hc))
        have hnext := toNat_next_page hle hmore
        have hpage_pos : 0 < bytes_in_page addr := bytes_in_page_pos
        have hless := bytes_in_page_lt hpos hpage
        rw [ih (by omega) (by omega) (by omega), ih (by omega) (by omega) (by omega)]
      · -- one page: the burst takes all bytes, and the call for the rest ends at once
        have hin := (page_num_eq_iff hpos hle).mp (not_not.mp hpage)
        obtain ⟨hbytes, -, hsize, -⟩ := burst_at_page addr hpos hin
        -- the searched size is the one that `burst_at` has
        have hsame : { burst_at addr n with
            beat := { (burst_at addr n).beat with ax_size := ax_size_of addr n } }
            = burst_at addr n := rfl
        rw [hsame, hbytes, Nat.sub_self, ih _ (Nat.zero_le _) (by omega)]
        · rfl
        · exact (Nat.le_of_lt (BitVec.isLt _))

/-- **The bursts of a transfer.** The splitting ends, its assertion never fails, and its
bursts are in order, cover exactly the bytes of the transfer, stay in their pages and reach
as far as their bytes. -/
theorem create_ax_beats_split (hAW : 6 < AW) (hpos : 0 < n) (hle : addr.toNat + n ≤ 2 ^ AW) :
    (∀ r, n < r → create_checked r addr n = some (create_ax_beats addr n))
      ∧ Split addr n (create_ax_beats addr n) := by
  refine ⟨fun r hr => create_checked_eq hAW hle (le_refl n) hr, ?_⟩
  refine create_rounds_induction ?_ ?_ hpos hle
  · -- one page, one burst
    intro addr n hpos hle hpage
    obtain ⟨hbytes, haddr, -⟩ := burst_at_page addr hpos hpage
    refine ⟨?_, ?_, ?_⟩
    · rw [List.flatMap_singleton, haddr, hbytes]
    · simp [hbytes]
    · intro bs hbs
      rw [List.mem_singleton.mp hbs]
      exact burst_at_fits hAW hpos hle hpage
  · -- the burst of the first page, then the bursts of the rest
    intro addr n rest hle hpage hnext hrest
    have hpage_pos : 0 < bytes_in_page addr := bytes_in_page_pos
    have hin : addr.toNat % 4096 + bytes_in_page addr ≤ 4096 := by
      unfold bytes_in_page
      omega
    have hless : bytes_in_page addr < n := by
      unfold bytes_in_page
      omega
    obtain ⟨hbytes, haddr, -⟩ := burst_at_page addr hpage_pos hin
    refine ⟨?_, ?_, ?_⟩
    · rw [List.flatMap_cons, hrest.covers, haddr, hbytes, hnext, List.range'_append_1,
        Nat.add_sub_cancel' hless.le]
    · rw [List.map_cons, List.sum_cons, hrest.sum, hbytes, Nat.add_sub_cancel' hless.le]
    · intro bs hbs
      rcases List.mem_cons.mp hbs with rfl | hbs
      · exact burst_at_fits hAW hpage_pos (by omega) hin
      · exact hrest.fits bs hbs

/-- The first burst begins where the transfer does. -/
theorem create_ax_beats_head (hpos : 0 < n) (hle : addr.toNat + n ≤ 2 ^ AW) :
    ∃ bs rest, create_ax_beats addr n = bs :: rest ∧ bs.beat.ax_addr = addr := by
  refine create_rounds_induction (P := fun addr _ bursts =>
    ∃ bs rest, bursts = bs :: rest ∧ bs.beat.ax_addr = addr) ?_ ?_ hpos hle
  · exact fun addr n _ _ _ => ⟨_, _, rfl, rfl⟩
  · exact fun addr n rest _ _ _ _ => ⟨_, _, rfl, rfl⟩

/-- Three pages, from the middle of the first. -/
theorem create_ax_beats_split_demo :
    (∀ r, 8000 < r → create_checked r 0x1003f8#32 8000 = some (create_ax_beats 0x1003f8#32 8000))
      ∧ Split 0x1003f8#32 8000 (create_ax_beats 0x1003f8#32 8000) :=
  create_ax_beats_split (by decide) (by decide) (by decide)

end Rounds

end Pspin.AxiDriver
