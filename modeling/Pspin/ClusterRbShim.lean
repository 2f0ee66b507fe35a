/-
`cluster_rb_shim`: a packet buffer made of several ring buffers.

A request goes to the first ring with enough space, a free to the ring its index names.
Callers see one buffer: `taken` is the set of its slots in use, numbered through all
rings, and a region given out or freed is a block of these (`tiling_step`).
-/
import Mathlib.Tactic.Ring
import Pspin.ClusterRb
import Pspin.Tiling

set_option autoImplicit false

namespace Pspin.ClusterRbShim

open ClusterRb (Input)

/-- `rb` are the parameters of one ring, of length `BuffMemLength / NumRB`. -/
structure Params where
  NumRB : ℕ
  rb : ClusterRb.Params
  rb_pos : 0 < NumRB

abbrev Params.BuffMemLenghtPerRB (p : Params) : ℕ := p.rb.BuffMemLength

def Params.BuffMemLength (p : Params) : ℕ := p.NumRB * p.BuffMemLenghtPerRB

/-- Width of `rb_elem_size_t`. -/
def Params.rb_size_w (p : Params) : ℕ := Nat.clog 2 p.BuffMemLenghtPerRB + 1

structure State (p : Params) where
  gen_rb : Fin p.NumRB → ClusterRb.State

def reset (p : Params) : State p := ⟨fun _ => ClusterRb.reset⟩

variable {p : Params}

def rb_free_space (s : State p) (k : Fin p.NumRB) : ℕ := ClusterRb.free_space_o p.rb (s.gen_rb k)

def rb_with_space (s : State p) (i : Input) (k : ℕ) : Bool :=
  if h : k < p.NumRB then decide (i.alloc_size_i ≤ rb_free_space s ⟨k, h⟩) else false

/-- The first ring with enough space. -/
def sel_rb_idx (s : State p) (i : Input) : Fin p.NumRB :=
  ⟨Lzc.cnt_o p.NumRB (rb_with_space s i), Lzc.cnt_o_lt p.rb_pos⟩

/-- The ports of ring `k`. Its size ports are narrower than those of the shim. -/
def rb_input (s : State p) (i : Input) (k : Fin p.NumRB) : Input where
  alloc_valid_i := k == sel_rb_idx s i && i.alloc_valid_i
  alloc_size_i := i.alloc_size_i % 2 ^ p.rb_size_w
  free_valid_i := i.free_valid_i && i.free_index_i / p.BuffMemLenghtPerRB == k
  free_index_i := i.free_index_i % p.BuffMemLenghtPerRB
  free_size_i := i.free_size_i % 2 ^ p.rb_size_w

/-- The maximum over the rings up to `k`. -/
def rb_free_space_tmp_max (s : State p) : ℕ → ℕ
  | 0 => rb_free_space s ⟨0, p.rb_pos⟩
  | k + 1 =>
    if h : k + 1 < p.NumRB then
      if rb_free_space_tmp_max s k ≥ rb_free_space s ⟨k + 1, h⟩ then rb_free_space_tmp_max s k
      else rb_free_space s ⟨k + 1, h⟩
    else rb_free_space_tmp_max s k

def free_space_o (s : State p) : ℕ := rb_free_space_tmp_max s (p.NumRB - 1)

def alloc_ready_o (s : State p) (i : Input) : Bool :=
  ClusterRb.alloc_ready_o p.rb (s.gen_rb (sel_rb_idx s i)) (rb_input s i (sel_rb_idx s i))

def alloc_index_o (s : State p) (i : Input) : ℕ :=
  sel_rb_idx s i * p.BuffMemLenghtPerRB
    + ClusterRb.alloc_index_o p.rb (s.gen_rb (sel_rb_idx s i)) (rb_input s i (sel_rb_idx s i))

def step (s : State p) (i : Input) : State p :=
  ⟨fun k => ClusterRb.step p.rb (s.gen_rb k) (rb_input s i k)⟩

/-! ## One buffer -/

/-- The slots of all rings that are in use. -/
def taken (s : State p) : Set ℕ :=
  {g | ∃ (k : Fin p.NumRB) (j : ℕ), (s.gen_rb k).bitmap_q j = true ∧ g = k * p.rb.NumSlots + j}

/-- The slots a size takes. -/
def Params.slots (p : Params) (size : ℕ) : ℕ := (size + p.rb.MemSlotSize - 1) / p.rb.MemSlotSize

/-- The slots of a region, given by its index and size in bytes. -/
def block (p : Params) (r : ℕ × ℕ) : Set ℕ :=
  {g | r.1 / p.rb.MemSlotSize ≤ g ∧ g < r.1 / p.rb.MemSlotSize + p.slots r.2}

/-- A region starts on a slot and lies in one ring. -/
structure Placed (p : Params) (r : ℕ × ℕ) : Prop where
  aligned : p.rb.MemSlotSize ∣ r.1
  ring : r.1 / p.BuffMemLenghtPerRB < p.NumRB
  inside : r.1 % p.BuffMemLenghtPerRB + r.2 ≤ p.BuffMemLenghtPerRB

/-- The rings keep their invariant, and the regions in use are the taken slots. -/
structure Inv (s : State p) (regions : List (ℕ × ℕ)) : Prop where
  rb : ∀ k, ClusterRb.Inv p.rb (s.gen_rb k)
  tiling : Tiling (block p) regions (taken s)
  placed : ∀ r ∈ regions, Placed p r

/-- A caller asks for no more than the reported space, and frees regions in use. -/
structure Ok (s : State p) (regions : List (ℕ × ℕ)) (i : Input) : Prop where
  alloc : i.alloc_valid_i = true → i.alloc_size_i ≤ free_space_o s
  free : i.free_valid_i = true → (i.free_index_i, i.free_size_i) ∈ regions

/-- The regions after a cycle. -/
def regions_d (s : State p) (i : Input) (regions : List (ℕ × ℕ)) : List (ℕ × ℕ) :=
  (if i.free_valid_i then regions.erase (i.free_index_i, i.free_size_i) else regions)
    ++ if i.alloc_valid_i then [(alloc_index_o s i, i.alloc_size_i)] else []

variable {s : State p} {i : Input} {regions : List (ℕ × ℕ)}

/-! ## The selected ring -/

/-- Some ring has the reported space. -/
theorem exists_tmp_max (s : State p) (n : ℕ) :
    ∃ k : Fin p.NumRB, rb_free_space s k = rb_free_space_tmp_max s n := by
  induction n with
  | zero => exact ⟨_, rfl⟩
  | succ n ih =>
      unfold rb_free_space_tmp_max
      split_ifs
      · exact ih
      · exact ⟨_, rfl⟩
      · exact ih

/-- **The selected ring has the space.** -/
theorem sel_has_space (h : i.alloc_size_i ≤ free_space_o s) :
    i.alloc_size_i ≤ rb_free_space s (sel_rb_idx s i) := by
  obtain ⟨k, hk⟩ := exists_tmp_max s (p.NumRB - 1)
  have hspace : i.alloc_size_i ≤ rb_free_space s k := by
    rw [hk]
    exact h
  have hbit : ∀ k : Fin p.NumRB,
      rb_with_space s i k = decide (i.alloc_size_i ≤ rb_free_space s k) := fun k => dif_pos k.isLt
  have hne : Lzc.empty_o p.NumRB (rb_with_space s i) = false := by
    refine Lzc.not_empty_o_iff.mpr ⟨k, k.isLt, ?_⟩
    rw [hbit]
    exact decide_eq_true hspace
  obtain ⟨-, hsel, -⟩ := Lzc.cnt_o_spec hne
  have hsel' : rb_with_space s i (sel_rb_idx s i) = true := hsel
  rw [hbit] at hsel'
  exact of_decide_eq_true hsel'

theorem free_space_le (h : Inv s regions) (k : Fin p.NumRB) :
    rb_free_space s k ≤ p.BuffMemLenghtPerRB := by
  unfold rb_free_space ClusterRb.free_space_o
  calc ClusterRb.free_slots p.rb (s.gen_rb k) * p.rb.MemSlotSize
      ≤ p.rb.NumSlots * p.rb.MemSlotSize :=
        Nat.mul_le_mul_right _ (ClusterRb.free_slots_le (h.rb k))
    _ = p.BuffMemLenghtPerRB := p.rb.whole

/-- Sizes up to a ring fit the ports of a ring. -/
theorem size_mod {size : ℕ} (h : size ≤ p.BuffMemLenghtPerRB) : size % 2 ^ p.rb_size_w = size := by
  apply Nat.mod_eq_of_lt
  have hclog := Nat.le_pow_clog (b := 2) (by decide) p.BuffMemLenghtPerRB
  unfold Params.rb_size_w
  rw [Nat.pow_succ]
  have hpos := Nat.two_pow_pos (Nat.clog 2 p.BuffMemLenghtPerRB)
  omega

/-- The slots of a size up to a ring, as the ring computes them. -/
theorem slots_of_eq {size : ℕ} (h : size ≤ p.BuffMemLenghtPerRB) :
    ClusterRb.slots_of p.rb size = p.slots size := by
  have hle : p.slots size ≤ p.rb.NumSlots := by
    have hwhole : p.rb.NumSlots * p.rb.MemSlotSize = p.BuffMemLenghtPerRB := p.rb.whole
    have hpos := p.rb.slot_pos
    unfold Params.slots
    rw [← Nat.lt_succ_iff, Nat.div_lt_iff_lt_mul hpos, Nat.succ_mul]
    omega
  have hw : p.rb.NumSlots < 2 ^ (p.rb.ptr_w + 1) := by
    have htwo := ClusterRb.two_pow_ptr_w p.rb
    have hpos := Nat.two_pow_pos p.rb.ptr_w
    rw [Nat.pow_succ, htwo]
    omega
  exact Nat.mod_eq_of_lt (lt_of_le_of_lt hle hw)

/-! ## Regions and slots -/

/-- An index in bytes, in slots: the ring, and the slot in it. -/
theorem index_div (idx : ℕ) : idx / p.rb.MemSlotSize
    = idx / p.BuffMemLenghtPerRB * p.rb.NumSlots + idx % p.BuffMemLenghtPerRB / p.rb.MemSlotSize := by
  have hwhole : p.rb.NumSlots * p.rb.MemSlotSize = p.BuffMemLenghtPerRB := p.rb.whole
  have hidx : idx = p.rb.MemSlotSize * (idx / p.BuffMemLenghtPerRB * p.rb.NumSlots)
      + idx % p.BuffMemLenghtPerRB := by
    have hmod := Nat.div_add_mod idx p.BuffMemLenghtPerRB
    calc idx = p.BuffMemLenghtPerRB * (idx / p.BuffMemLenghtPerRB)
          + idx % p.BuffMemLenghtPerRB := hmod.symm
      _ = _ := by
          congr 1
          rw [← hwhole]
          ring
  nth_rewrite 1 [hidx]
  exact Nat.mul_add_div p.rb.slot_pos _ _

/-- The slots of a placed region do not pass the end of its ring. -/
theorem Placed.slots_le {r : ℕ × ℕ} (h : Placed p r) :
    r.1 % p.BuffMemLenghtPerRB / p.rb.MemSlotSize + p.slots r.2 ≤ p.rb.NumSlots := by
  have hwhole : p.rb.NumSlots * p.rb.MemSlotSize = p.BuffMemLenghtPerRB := p.rb.whole
  have hdvd : p.rb.MemSlotSize ∣ r.1 % p.BuffMemLenghtPerRB := by
    rw [Nat.dvd_mod_iff ⟨p.rb.NumSlots, by rw [← hwhole, Nat.mul_comm]⟩]
    exact h.aligned
  obtain ⟨c, hc⟩ := hdvd
  have hin := h.inside
  have hpos := p.rb.slot_pos
  rw [hc, Nat.mul_div_cancel_left _ hpos]
  unfold Params.slots
  rw [← Nat.mul_add_div hpos, ← Nat.lt_succ_iff, Nat.div_lt_iff_lt_mul hpos, Nat.succ_mul]
  omega

theorem Placed.size_le {r : ℕ × ℕ} (h : Placed p r) : r.2 ≤ p.BuffMemLenghtPerRB :=
  le_trans (Nat.le_add_left _ _) h.inside

/-- The slots of a placed region, by its ring. -/
theorem mem_block {r : ℕ × ℕ} {g : ℕ} : g ∈ block p r
    ↔ ∃ j, g = r.1 / p.BuffMemLenghtPerRB * p.rb.NumSlots + j
      ∧ r.1 % p.BuffMemLenghtPerRB / p.rb.MemSlotSize ≤ j
      ∧ j < r.1 % p.BuffMemLenghtPerRB / p.rb.MemSlotSize + p.slots r.2 := by
  have hdiv := index_div (p := p) r.1
  generalize hc : r.1 % p.BuffMemLenghtPerRB / p.rb.MemSlotSize = c at hdiv ⊢
  constructor
  · rintro ⟨h1, h2⟩
    refine ⟨g - r.1 / p.BuffMemLenghtPerRB * p.rb.NumSlots, ?_, ?_, ?_⟩ <;> omega
  · rintro ⟨j, rfl, h1, h2⟩
    constructor
    · show r.1 / p.rb.MemSlotSize ≤ _
      omega
    · show _ < r.1 / p.rb.MemSlotSize + p.slots r.2
      omega

/-- A slot is taken by an aligned region when its first byte is in the region. -/
theorem mem_block_iff_byte {r : ℕ × ℕ} {g : ℕ} (h : p.rb.MemSlotSize ∣ r.1) : g ∈ block p r
    ↔ r.1 ≤ g * p.rb.MemSlotSize ∧ g * p.rb.MemSlotSize < r.1 + r.2 := by
  obtain ⟨c, hc⟩ := h
  have hpos := p.rb.slot_pos
  have hdiv : r.1 / p.rb.MemSlotSize = c := by rw [hc, Nat.mul_div_cancel_left _ hpos]
  have hlow : c ≤ g ↔ r.1 ≤ g * p.rb.MemSlotSize := by
    rw [hc, Nat.mul_comm]
    exact (Nat.mul_le_mul_right_iff hpos).symm
  have hhigh : g < c + p.slots r.2 ↔ g * p.rb.MemSlotSize < r.1 + r.2 := by
    unfold Params.slots
    rw [← Nat.mul_add_div hpos, ← hc, Nat.lt_iff_add_one_le, Nat.le_div_iff_mul_le hpos,
      Nat.succ_mul]
    omega
  rw [← hlow, ← hhigh, ← hdiv]
  exact Iff.rfl

/-- The bytes of a region are those of its slots. -/
theorem slot_mem_block {r : ℕ × ℕ} {x : ℕ} (h : p.rb.MemSlotSize ∣ r.1) (hlow : r.1 ≤ x)
    (hhigh : x < r.1 + r.2) : x / p.rb.MemSlotSize ∈ block p r := by
  rw [mem_block_iff_byte h]
  obtain ⟨c, hc⟩ := h
  constructor
  · rw [hc, Nat.mul_comm]
    apply Nat.mul_le_mul_right
    rw [Nat.le_div_iff_mul_le p.rb.slot_pos, Nat.mul_comm, ← hc]
    exact hlow
  · exact lt_of_le_of_lt (Nat.div_mul_le_self _ _) hhigh

/-- A slot number names one ring and one slot in it. -/
theorem slot_inj {n k k' j j' : ℕ} (hj : j < n) (hj' : j' < n) (h : k * n + j = k' * n + j') :
    k = k' ∧ j = j' := by
  have hdiv : (k * n + j) / n = (k' * n + j') / n := by rw [h]
  rw [Nat.mul_comm, Nat.mul_add_div (by omega), Nat.mul_comm k', Nat.mul_add_div (by omega),
    Nat.div_eq_of_lt hj, Nat.div_eq_of_lt hj'] at hdiv
  obtain rfl : k = k' := by omega
  exact ⟨rfl, by omega⟩

/-- A taken slot, by its ring. -/
theorem mem_taken (h : Inv s regions) {k : Fin p.NumRB} {j : ℕ} (hj : j < p.rb.NumSlots) :
    (k : ℕ) * p.rb.NumSlots + j ∈ taken s ↔ (s.gen_rb k).bitmap_q j = true := by
  constructor
  · rintro ⟨k', j', hb, heq⟩
    obtain ⟨hk, rfl⟩ := slot_inj hj ((h.rb k').bitmap_lt j' hb) heq
    obtain rfl := Fin.ext hk
    exact hb
  · exact fun hb => ⟨k, j, hb, rfl⟩

/-! ## The ports of a ring -/

theorem free_iff {k : Fin p.NumRB} : (rb_input s i k).free_valid_i = true
    ↔ i.free_valid_i = true ∧ i.free_index_i / p.BuffMemLenghtPerRB = k := by
  unfold rb_input
  rw [Bool.and_eq_true, beq_iff_eq]

theorem alloc_iff {k : Fin p.NumRB} : (rb_input s i k).alloc_valid_i = true
    ↔ i.alloc_valid_i = true ∧ k = sel_rb_idx s i := by
  unfold rb_input
  rw [Bool.and_eq_true, beq_iff_eq, and_comm]

/-- The slots a ring is told to free are those of the region. -/
theorem pop_eq (h : Inv s regions) (ok : Ok s regions i) (hv : i.free_valid_i = true)
    (k : Fin p.NumRB) :
    ClusterRb.pop_idx p.rb (rb_input s i k)
        = i.free_index_i % p.BuffMemLenghtPerRB / p.rb.MemSlotSize
      ∧ ClusterRb.pop_size p.rb (rb_input s i k) = p.slots i.free_size_i := by
  have hpl := h.placed _ (ok.free hv)
  have hsize : i.free_size_i ≤ p.BuffMemLenghtPerRB := hpl.size_le
  constructor
  · have hwhole : p.rb.NumSlots * p.rb.MemSlotSize = p.BuffMemLenghtPerRB := p.rb.whole
    have hlt : i.free_index_i % p.BuffMemLenghtPerRB / p.rb.MemSlotSize < p.rb.NumSlots := by
      have hring := (h.rb k).head_lt
      rw [Nat.div_lt_iff_lt_mul p.rb.slot_pos, hwhole]
      apply Nat.mod_lt
      rw [← hwhole]
      exact Nat.mul_pos (by omega) p.rb.slot_pos
    unfold ClusterRb.pop_idx rb_input
    rw [ClusterRb.two_pow_ptr_w, Nat.mod_eq_of_lt hlt]
  · unfold ClusterRb.pop_size rb_input
    rw [size_mod hsize, slots_of_eq hsize]

/-- The region a caller frees is in use, slot by slot. -/
theorem free_taken (h : Inv s regions) (ok : Ok s regions i) (hv : i.free_valid_i = true)
    {k : Fin p.NumRB} (hk : i.free_index_i / p.BuffMemLenghtPerRB = k) {j : ℕ}
    (h1 : i.free_index_i % p.BuffMemLenghtPerRB / p.rb.MemSlotSize ≤ j)
    (h2 : j < i.free_index_i % p.BuffMemLenghtPerRB / p.rb.MemSlotSize + p.slots i.free_size_i) :
    (s.gen_rb k).bitmap_q j = true := by
  have hin := ok.free hv
  have hle := (h.placed _ hin).slots_le
  rw [← mem_taken h (lt_of_lt_of_le h2 hle)]
  apply h.tiling.subset hin
  have hdiv := index_div (p := p) i.free_index_i
  rw [hk] at hdiv
  constructor
  · show i.free_index_i / p.rb.MemSlotSize ≤ _
    omega
  · show _ < i.free_index_i / p.rb.MemSlotSize + p.slots i.free_size_i
    omega

/-- Every ring gets what it can serve. -/
theorem rb_ok (h : Inv s regions) (ok : Ok s regions i) (k : Fin p.NumRB) :
    ClusterRb.Ok p.rb (s.gen_rb k) (rb_input s i k) where
  alloc := by
    intro hv
    obtain ⟨hv', rfl⟩ := alloc_iff.mp hv
    have hspace := sel_has_space (ok.alloc hv')
    have hsize := le_trans hspace (free_space_le h _)
    have hport : (rb_input s i (sel_rb_idx s i)).alloc_size_i = i.alloc_size_i := size_mod hsize
    rw [hport]
    exact hspace
  free := by
    intro hv j h1 h2
    obtain ⟨hv, hk⟩ := free_iff.mp hv
    obtain ⟨hidx, hn⟩ := pop_eq h ok hv k
    rw [hidx] at h1 h2
    rw [hn] at h2
    exact free_taken h ok hv hk h1 h2

theorem rb_safe (h : Inv s regions) (ok : Ok s regions i) (k : Fin p.NumRB) :
    ClusterRb.Safe p.rb (s.gen_rb k) (rb_input s i k) := (rb_ok h ok k).safe (h.rb k)

/-- The granted region: its place, and its slots in the selected ring. -/
theorem alloc_spec (h : Inv s regions) (ok : Ok s regions i) (hv : i.alloc_valid_i = true) :
    Placed p (alloc_index_o s i, i.alloc_size_i)
      ∧ alloc_index_o s i / p.BuffMemLenghtPerRB = sel_rb_idx s i
      ∧ alloc_index_o s i % p.BuffMemLenghtPerRB / p.rb.MemSlotSize
        = ClusterRb.push_idx p.rb (s.gen_rb (sel_rb_idx s i)) (rb_input s i (sel_rb_idx s i))
      ∧ ClusterRb.push_size p.rb (rb_input s i (sel_rb_idx s i)) = p.slots i.alloc_size_i := by
  have hring := rb_ok h ok (sel_rb_idx s i)
  have hvalid : (rb_input s i (sel_rb_idx s i)).alloc_valid_i = true := alloc_iff.mpr ⟨hv, rfl⟩
  have hgrant := ClusterRb.grant (h.rb _) (hring.alloc hvalid)
  have hsize := le_trans (sel_has_space (ok.alloc hv)) (free_space_le h _)
  have hn : ClusterRb.push_size p.rb (rb_input s i (sel_rb_idx s i)) = p.slots i.alloc_size_i := by
    have hport : (rb_input s i (sel_rb_idx s i)).alloc_size_i = i.alloc_size_i := size_mod hsize
    rw [ClusterRb.push_size, hport, slots_of_eq hsize]
  have hregion := hgrant.region
  have hidx : alloc_index_o s i = sel_rb_idx s i * p.BuffMemLenghtPerRB
      + ClusterRb.push_idx p.rb (s.gen_rb (sel_rb_idx s i)) (rb_input s i (sel_rb_idx s i))
        * p.rb.MemSlotSize := rfl
  have hlt : ClusterRb.push_idx p.rb (s.gen_rb (sel_rb_idx s i)) (rb_input s i (sel_rb_idx s i))
      < p.rb.NumSlots := by
    rw [ClusterRb.push_idx, ClusterRb.two_pow_ptr_w]
    apply Nat.mod_lt
    have := (h.rb (sel_rb_idx s i)).head_lt
    omega
  rw [hn] at hregion
  generalize ClusterRb.push_idx p.rb (s.gen_rb (sel_rb_idx s i)) (rb_input s i (sel_rb_idx s i))
    = c at hregion hidx hlt ⊢
  have hpos := p.rb.slot_pos
  have hwhole : p.rb.NumSlots * p.rb.MemSlotSize = p.BuffMemLenghtPerRB := p.rb.whole
  have hbytes : c * p.rb.MemSlotSize < p.BuffMemLenghtPerRB := by
    rw [← hwhole]
    exact Nat.mul_lt_mul_of_pos_right hlt hpos
  have hmod : alloc_index_o s i % p.BuffMemLenghtPerRB = c * p.rb.MemSlotSize := by
    rw [hidx, Nat.mul_add_mod_self_right, Nat.mod_eq_of_lt hbytes]
  have hdiv : alloc_index_o s i / p.BuffMemLenghtPerRB = sel_rb_idx s i := by
    rw [hidx, Nat.mul_comm (sel_rb_idx s i : ℕ), Nat.mul_add_div (by omega),
      Nat.div_eq_of_lt hbytes, Nat.add_zero]
  refine ⟨⟨?_, ?_, ?_⟩, hdiv, ?_, hn⟩
  · rw [hidx, ← hwhole]
    exact Nat.dvd_add ⟨sel_rb_idx s i * p.rb.NumSlots, by ring⟩ ⟨c, Nat.mul_comm _ _⟩
  · rw [hdiv]
    exact (sel_rb_idx s i).isLt
  · -- the size takes no more than its slots
    have hceil : i.alloc_size_i ≤ p.slots i.alloc_size_i * p.rb.MemSlotSize := by
      have hdm := Nat.div_add_mod (i.alloc_size_i + p.rb.MemSlotSize - 1) p.rb.MemSlotSize
      have hml := Nat.mod_lt (i.alloc_size_i + p.rb.MemSlotSize - 1) hpos
      unfold Params.slots
      rw [Nat.mul_comm]
      omega
    have hmul := Nat.mul_le_mul_right p.rb.MemSlotSize hregion
    rw [Nat.add_mul, hwhole] at hmul
    simp only [hmod]
    omega
  · rw [hmod, Nat.mul_div_cancel _ hpos]

/-! ## The reported space is there -/

/-- A request is served: the selected ring is ready, and its grant is the slots of the size
from slot `start` on, free slots of that ring, which the returned index names. -/
structure Served (s : State p) (i : Input) (start : ℕ) : Prop where
  ready : alloc_ready_o s i = true
  ring : alloc_index_o s i / p.BuffMemLenghtPerRB = sel_rb_idx s i
  index : alloc_index_o s i % p.BuffMemLenghtPerRB = start * p.rb.MemSlotSize
  grant : ClusterRb.push_idx p.rb (s.gen_rb (sel_rb_idx s i)) (rb_input s i (sel_rb_idx s i)) = start
    ∧ ClusterRb.push_size p.rb (rb_input s i (sel_rb_idx s i)) = p.slots i.alloc_size_i
  inside : start + p.slots i.alloc_size_i ≤ p.rb.NumSlots
  free : ∀ k, start ≤ k → k < start + p.slots i.alloc_size_i →
    (s.gen_rb (sel_rb_idx s i)).bitmap_q k = false

theorem slots_pos {size : ℕ} (h : 0 < size) : 0 < p.slots size := by
  apply Nat.div_pos _ p.rb.slot_pos
  omega

theorem Ok.served (ok : Ok s regions i) (h : Inv s regions) (hv : i.alloc_valid_i = true)
    (hpos : 0 < i.alloc_size_i) :
    Served s i (alloc_index_o s i % p.BuffMemLenghtPerRB / p.rb.MemSlotSize) := by
  obtain ⟨hplaced, hring, hidx, hn⟩ := alloc_spec h ok hv
  have hok := rb_ok h ok (sel_rb_idx s i)
  have hvalid : (rb_input s i (sel_rb_idx s i)).alloc_valid_i = true := alloc_iff.mpr ⟨hv, rfl⟩
  have hgrant := ClusterRb.grant (h.rb _) (hok.alloc hvalid)
  have hready : alloc_ready_o s i = true := by
    apply ClusterRb.push_en_of_pos (h.rb _) (hok.alloc hvalid) hvalid
    rw [hn]
    exact slots_pos hpos
  have haligned : p.rb.MemSlotSize ∣ alloc_index_o s i % p.BuffMemLenghtPerRB := by
    rw [Nat.dvd_mod_iff ⟨p.rb.NumSlots, by rw [Nat.mul_comm]; exact p.rb.whole.symm⟩]
    exact hplaced.aligned
  have hregion := hgrant.region
  have hfree := hgrant.free
  rw [hn, ← hidx] at hregion hfree
  exact ⟨hready, hring, (Nat.div_mul_cancel haligned).symm, ⟨hidx.symm, hn⟩, hregion, hfree⟩

/-- **Space reported is space given**, whatever is freed in the same cycle. -/
theorem served (h : Inv s regions) (hv : i.alloc_valid_i = true) (hpos : 0 < i.alloc_size_i)
    (hle : i.alloc_size_i ≤ free_space_o s) :
    Served s i (alloc_index_o s i % p.BuffMemLenghtPerRB / p.rb.MemSlotSize) := by
  -- the grant does not look at the free ports
  have ok : Ok s regions { i with free_valid_i := false } :=
    ⟨fun _ => hle, fun hf => absurd hf Bool.false_ne_true⟩
  have halone := ok.served h hv hpos
  exact ⟨halone.ready, halone.ring, halone.index, halone.grant, halone.inside, halone.free⟩

/-! ## One cycle -/

/-- A slot of a ring is freed there if and only if it is in the freed region. -/
theorem freed_iff (h : Inv s regions) (ok : Ok s regions i) (k : Fin p.NumRB) {j : ℕ}
    (hj : j < p.rb.NumSlots) :
    ((rb_input s i k).free_valid_i = true ∧ ClusterRb.in_range
        (ClusterRb.pop_idx p.rb (rb_input s i k)) (ClusterRb.pop_size p.rb (rb_input s i k)) j = true)
      ↔ (i.free_valid_i = true
        ∧ (k : ℕ) * p.rb.NumSlots + j ∈ block p (i.free_index_i, i.free_size_i)) := by
  rw [free_iff, ClusterRb.in_range_iff, and_assoc, mem_block]
  refine and_congr_right fun hv => ?_
  obtain ⟨hidx, hn⟩ := pop_eq h ok hv k
  have hle := (h.placed _ (ok.free hv)).slots_le
  rw [hidx, hn]
  constructor
  · rintro ⟨hk, h1, h2⟩
    exact ⟨j, by rw [hk], h1, h2⟩
  · rintro ⟨j', heq, h1, h2⟩
    obtain ⟨hk, rfl⟩ := slot_inj hj (lt_of_lt_of_le h2 hle) heq
    exact ⟨hk.symm, h1, h2⟩

/-- A slot stays taken unless it is freed. -/
theorem taken_keep (h : Inv s regions) (ok : Ok s regions i) {g : ℕ} (hg : g ∈ taken s)
    (hkeep : ¬ (i.free_valid_i = true ∧ g ∈ block p (i.free_index_i, i.free_size_i))) :
    g ∈ taken (step s i) := by
  obtain ⟨k, j, hb, rfl⟩ := hg
  rw [← freed_iff h ok k ((h.rb k).bitmap_lt j hb)] at hkeep
  exact ⟨k, j, (ClusterRb.bitmap_d_iff (h.rb k) (rb_safe h ok k) j).mpr (Or.inl ⟨hb, hkeep⟩), rfl⟩

/-- A granted slot is taken. -/
theorem taken_grant (h : Inv s regions) (ok : Ok s regions i) (hv : i.alloc_valid_i = true)
    {g : ℕ} (hg : g ∈ block p (alloc_index_o s i, i.alloc_size_i)) : g ∈ taken (step s i) := by
  obtain ⟨-, hring, hidx, hn⟩ := alloc_spec h ok hv
  rw [mem_block, hring, hidx] at hg
  obtain ⟨j, rfl, h1, h2⟩ := hg
  rw [← hn] at h2
  have hvk : (rb_input s i (sel_rb_idx s i)).alloc_valid_i = true := alloc_iff.mpr ⟨hv, rfl⟩
  have hok := rb_ok h ok (sel_rb_idx s i)
  have he := ClusterRb.push_en_of_pos (h.rb _) (hok.alloc hvk) hvk (by omega)
  refine ⟨sel_rb_idx s i, j, ?_, rfl⟩
  exact (ClusterRb.bitmap_d_iff (h.rb _) (rb_safe h ok _) j).mpr
    (Or.inr ⟨he, ClusterRb.in_range_iff.mpr ⟨h1, h2⟩⟩)

/-- The taken slots after a cycle: without the freed region, with the granted one. -/
theorem taken_step (h : Inv s regions) (ok : Ok s regions i) : taken (step s i)
    = (if i.free_valid_i then taken s \ block p (i.free_index_i, i.free_size_i) else taken s)
      ∪ if i.alloc_valid_i then block p (alloc_index_o s i, i.alloc_size_i) else ∅ := by
  ext g
  constructor
  · rintro ⟨k, j, hb, rfl⟩
    -- a slot is set because it was and is not freed, or because it is granted now
    rcases (ClusterRb.bitmap_d_iff (h.rb k) (rb_safe h ok k) j).mp hb with ⟨hold, hkeep⟩ | ⟨he, hr⟩
    · rw [freed_iff h ok k ((h.rb k).bitmap_lt j hold)] at hkeep
      apply Or.inl
      split_ifs with hv
      · exact ⟨⟨k, j, hold, rfl⟩, fun hc => hkeep ⟨hv, hc⟩⟩
      · exact ⟨k, j, hold, rfl⟩
    · have hvk : (rb_input s i k).alloc_valid_i = true := by
        rw [ClusterRb.push_en, Bool.and_eq_true] at he
        exact he.2
      obtain ⟨hv, rfl⟩ := alloc_iff.mp hvk
      obtain ⟨-, hring, hidx, hn⟩ := alloc_spec h ok hv
      rw [ClusterRb.in_range_iff, hn, ← hidx] at hr
      apply Or.inr
      rw [if_pos hv, mem_block, hring]
      exact ⟨j, rfl, hr.1, hr.2⟩
  · rintro (hg | hg)
    · split_ifs at hg with hv
      · exact taken_keep h ok hg.1 fun hc => hg.2 hc.2
      · exact taken_keep h ok hg fun hc => hv hc.1
    · split_ifs at hg with hv
      · exact taken_grant h ok hv hg
      · exact absurd hg (Set.notMem_empty g)

/-- A granted region meets no slot in use. -/
theorem alloc_disjoint (h : Inv s regions) (ok : Ok s regions i) (hv : i.alloc_valid_i = true) :
    Disjoint (block p (alloc_index_o s i, i.alloc_size_i)) (taken s) := by
  obtain ⟨-, hring, hidx, hn⟩ := alloc_spec h ok hv
  have hvk : (rb_input s i (sel_rb_idx s i)).alloc_valid_i = true := alloc_iff.mpr ⟨hv, rfl⟩
  have hgrant := ClusterRb.grant (h.rb _) ((rb_ok h ok (sel_rb_idx s i)).alloc hvk)
  rw [Set.disjoint_left]
  intro g hg ht
  rw [mem_block, hring, hidx] at hg
  obtain ⟨j, rfl, h1, h2⟩ := hg
  rw [← hn] at h2
  have hj : j < p.rb.NumSlots := lt_of_lt_of_le h2 hgrant.region
  rw [mem_taken h hj, hgrant.free j h1 h2] at ht
  exact absurd ht Bool.false_ne_true

/-- **A cycle of the shim.** The regions in use are again disjoint blocks of the buffer,
the taken slots are theirs, and each starts on a slot and lies in one ring. -/
theorem Inv.step (h : Inv s regions) (ok : Ok s regions i) :
    Inv (step s i) (regions_d s i regions) where
  rb := fun k => (h.rb k).step (rb_safe h ok k)
  tiling := by
    rw [taken_step h ok, regions_d]
    -- first the free, then the allocation in what was free before
    have hfree : Tiling (block p)
        (if i.free_valid_i then regions.erase (i.free_index_i, i.free_size_i) else regions)
        (if i.free_valid_i then taken s \ block p (i.free_index_i, i.free_size_i) else taken s) := by
      split_ifs with hv
      · exact h.tiling.give_back (ok.free hv)
      · exact h.tiling
    split_ifs at hfree ⊢ with hf ha ha
    · exact hfree.take ((alloc_disjoint h ok ha).mono_right Set.sdiff_subset)
    · rw [Set.union_empty, List.append_nil]
      exact hfree
    · exact hfree.take (alloc_disjoint h ok ha)
    · rw [Set.union_empty, List.append_nil]
      exact hfree
  placed := by
    intro r hr
    rcases List.mem_append.mp hr with hr | hr
    · split_ifs at hr
      · exact h.placed r (List.mem_of_mem_erase hr)
      · exact h.placed r hr
    · obtain ⟨hv, hr⟩ := List.mem_ite_nil_right.mp hr
      rw [List.mem_singleton.mp hr]
      exact (alloc_spec h ok hv).1

theorem inv_reset (h : 0 < p.rb.NumSlots) : Inv (reset p) [] where
  rb := fun _ => ClusterRb.inv_reset h
  tiling := by
    have hnone : taken (reset p) = ∅ := by
      ext g
      constructor
      · rintro ⟨k, j, hb, -⟩
        exact absurd hb Bool.false_ne_true
      · exact fun hg => absurd hg (Set.notMem_empty g)
    rw [hnone]
    exact Tiling.nil _
  placed := fun r hr => absurd hr List.not_mem_nil

end Pspin.ClusterRbShim
