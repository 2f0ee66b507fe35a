/-
Runs of one `cluster_rb`, with the regions it has given out.

The ring grants by its own `alloc_ready_o`. A region is an index and a size in bytes; it
is in use from its grant until a free with the same index and size.

Two things the header comment of the ring promises depend on where the pointers are:
a grant behind the head is only held back by the reported free space (`granted_safely`),
and the head of a ring that filled up completely does not move (`reclaim_iff`).
-/
import Mathlib.Tactic.Ring
import Pspin.ClusterRb
import Pspin.Sync
import Pspin.Tiling

set_option autoImplicit false

namespace Pspin.ClusterRb.Runs

structure Sys where
  rb : State
  live : List (ℕ × ℕ)

variable (p : Params)

/-- The slots of a region. -/
def block (r : ℕ × ℕ) : Set ℕ :=
  {k | r.1 / p.MemSlotSize ≤ k ∧ k < r.1 / p.MemSlotSize + slots_of p r.2}

/-- The bytes of a region. -/
def bytes (r : ℕ × ℕ) : Set ℕ := {x | r.1 ≤ x ∧ x < r.1 + r.2}

/-- The region of the request of this cycle. -/
def new_region (s : State) (i : Input) : ℕ × ℕ := (alloc_index_o p s i, i.alloc_size_i)

def freed_region (i : Input) : ℕ × ℕ := (i.free_index_i, i.free_size_i)

def step (s : Sys) (i : Input) : Sys where
  rb := ClusterRb.step p s.rb i
  live := (if i.free_valid_i then s.live.erase (freed_region i) else s.live)
    -- the handshake alone gives the region out
    ++ if alloc_ready_o p s.rb i then [new_region p s.rb i] else []

def init (s : Sys) : Prop := s = ⟨reset, []⟩

/-- Regions in use are freed, each once and with its own index and size. -/
def frees (s : Sys) (i : Input) : Prop := i.free_valid_i = true → freed_region i ∈ s.live

/-- Requests of any positive size up to the buffer. -/
def handshake (s : Sys) (i : Input) : Prop :=
  frees s i ∧ (i.alloc_valid_i = true → 0 < i.alloc_size_i ∧ i.alloc_size_i ≤ p.BuffMemLength)

/-- Requests within the reported free space. -/
def within_space (s : Sys) (i : Input) : Prop :=
  frees s i ∧ (i.alloc_valid_i = true → i.alloc_size_i ≤ free_space_o p s.rb)

/-- No request goes past the head while the tail is behind it. -/
def stops_at_head (s : Sys) (i : Input) : Prop := i.alloc_valid_i = true → Room p s.rb i

instance (s : Sys) (i : Input) : Decidable (handshake p s i) :=
  inferInstanceAs (Decidable ((_ → _) ∧ (_ → _)))

instance (s : Sys) (i : Input) : Decidable (within_space p s i) :=
  inferInstanceAs (Decidable ((_ → _) ∧ (_ → _)))

instance (s : Sys) (i : Input) : Decidable (stops_at_head p s i) :=
  inferInstanceAs (Decidable (_ → _ → _))

/-! ## The regions in use -/

/-- A region starts on a slot, and its slots are slots of the buffer and hold its bytes. -/
structure Placed (r : ℕ × ℕ) : Prop where
  aligned : p.MemSlotSize ∣ r.1
  start : r.1 / p.MemSlotSize < p.NumSlots
  inside : r.1 / p.MemSlotSize + slots_of p r.2 ≤ p.NumSlots
  holds : r.2 ≤ slots_of p r.2 * p.MemSlotSize

/-- The slots in use. -/
def taken (s : State) : Set ℕ := {k | s.bitmap_q k = true}

/-- The ring keeps its invariant, and the regions in use are its taken slots. -/
structure Inv (s : Sys) : Prop where
  rb : ClusterRb.Inv p s.rb
  tiling : Tiling (block p) s.live (taken s.rb)
  placed : ∀ r ∈ s.live, Placed p r

variable {p} {s : Sys} {i : Input} {r : ℕ × ℕ}

/-- A size up to the buffer fits its slots. -/
theorem size_le_slots {size : ℕ} (h : size ≤ p.BuffMemLength) :
    size ≤ slots_of p size * p.MemSlotSize := by
  have hpos := p.slot_pos
  have hwhole : p.NumSlots * p.MemSlotSize = p.BuffMemLength := p.whole
  have hle : (size + p.MemSlotSize - 1) / p.MemSlotSize ≤ p.NumSlots := by
    rw [← Nat.lt_succ_iff, Nat.div_lt_iff_lt_mul hpos, Nat.succ_mul]
    omega
  have hw : p.NumSlots < 2 ^ (p.ptr_w + 1) := by
    have htwo := Nat.two_pow_pos p.ptr_w
    rw [two_pow_ptr_w] at htwo
    rw [Nat.pow_succ, two_pow_ptr_w]
    omega
  have hdm := Nat.div_add_mod (size + p.MemSlotSize - 1) p.MemSlotSize
  have hml := Nat.mod_lt (size + p.MemSlotSize - 1) hpos
  rw [slots_of, Nat.mod_eq_of_lt (by omega), Nat.mul_comm]
  omega

/-- The bytes of a region lie in its slots. -/
theorem Placed.slot_mem (h : Placed p r) {x : ℕ} (hx : x ∈ bytes r) :
    x / p.MemSlotSize ∈ block p r := by
  obtain ⟨c, hc⟩ := h.aligned
  have hpos := p.slot_pos
  have hdiv : r.1 / p.MemSlotSize = c := by rw [hc, Nat.mul_div_cancel_left _ hpos]
  have hholds := h.holds
  obtain ⟨hlow, hhigh⟩ := hx
  constructor
  · rw [hdiv, Nat.le_div_iff_mul_le hpos, Nat.mul_comm]
    omega
  · rw [hdiv, Nat.div_lt_iff_lt_mul hpos, Nat.add_mul, Nat.mul_comm c]
    omega

/-- Regions without a common slot have no common byte. -/
theorem Placed.bytes_disjoint {r' : ℕ × ℕ} (h : Placed p r) (h' : Placed p r')
    (hd : Disjoint (block p r) (block p r')) : Disjoint (bytes r) (bytes r') := by
  rw [Set.disjoint_left] at hd ⊢
  intro x hx hx'
  exact hd (h.slot_mem hx) (h'.slot_mem hx')

theorem Placed.end_le (h : Placed p r) : r.1 + r.2 ≤ p.BuffMemLength := by
  obtain ⟨c, hc⟩ := h.aligned
  have hdiv : r.1 / p.MemSlotSize = c := by rw [hc, Nat.mul_div_cancel_left _ p.slot_pos]
  have hwhole : p.NumSlots * p.MemSlotSize = p.BuffMemLength := p.whole
  have hin := Nat.mul_le_mul_right p.MemSlotSize h.inside
  have hholds := h.holds
  rw [hdiv, Nat.add_mul, Nat.mul_comm c, hwhole] at hin
  omega

theorem new_region_div (h : ClusterRb.Inv p s.rb) :
    (new_region p s.rb i).1 / p.MemSlotSize = push_idx p s.rb i
      ∧ push_idx p s.rb i < p.NumSlots := by
  constructor
  · exact Nat.mul_div_cancel _ p.slot_pos
  · rw [push_idx, two_pow_ptr_w]
    apply Nat.mod_lt
    have := h.head_lt
    omega

/-- A free takes exactly the slots of its region out of the bitmap. -/
theorem freed_block (h : Inv p s) (hf : frees s i) (hv : i.free_valid_i = true) (k : ℕ) :
    (pop_idx p i ≤ k ∧ k < pop_idx p i + pop_size p i) ↔ k ∈ block p (freed_region i) := by
  have hstart : i.free_index_i / p.MemSlotSize < p.NumSlots := (h.placed _ (hf hv)).start
  rw [pop_idx, two_pow_ptr_w, Nat.mod_eq_of_lt hstart]
  exact Iff.rfl

theorem ring_safe (h : Inv p s) (hf : frees s i) (hr : stops_at_head p s i) :
    Safe p s.rb i where
  room := hr
  free := by
    intro hv k h1 h2
    apply h.tiling.subset (hf hv)
    exact (freed_block h hf hv k).mp ⟨h1, h2⟩

/-- A request within the reported free space stops at the head. -/
theorem within_space.stops (he : within_space p s i) (h : Inv p s) : stops_at_head p s i :=
  fun hv => room_of_space h.rb (he.2 hv)

theorem within_space.size_le (he : within_space p s i) (h : Inv p s)
    (hv : i.alloc_valid_i = true) : i.alloc_size_i ≤ p.BuffMemLength := by
  have hwhole : p.NumSlots * p.MemSlotSize = p.BuffMemLength := p.whole
  calc i.alloc_size_i ≤ free_slots p s.rb * p.MemSlotSize := he.2 hv
    _ ≤ p.NumSlots * p.MemSlotSize := Nat.mul_le_mul_right _ (free_slots_le h.rb)
    _ = p.BuffMemLength := hwhole

/-! ## One cycle -/

/-- The region of a granted request is placed, and meets no slot in use. -/
theorem grant_placed (h : Inv p s) (hf : frees s i) (hr : stops_at_head p s i)
    (hsize : i.alloc_valid_i = true → i.alloc_size_i ≤ p.BuffMemLength)
    (he : alloc_ready_o p s.rb i = true) : Placed p (new_region p s.rb i)
      ∧ Disjoint (block p (new_region p s.rb i)) (taken s.rb) := by
  obtain ⟨hdiv, hlt⟩ := new_region_div (i := i) h.rb
  have hg := (ring_safe h hf hr).granted h.rb he
  refine ⟨⟨⟨push_idx p s.rb i, Nat.mul_comm _ _⟩, hdiv ▸ hlt, ?_, ?_⟩, ?_⟩
  · rw [hdiv]
    exact hg.region
  · apply size_le_slots
    exact hsize (push_en_iff.mp he).2
  · rw [Set.disjoint_left]
    rintro k ⟨h1, h2⟩ hk
    rw [hdiv] at h1 h2
    have hfree := hg.free k h1 h2
    exact absurd (hfree.symm.trans hk) Bool.false_ne_true

/-- The taken slots after a cycle: without the freed region, with the granted one. -/
theorem taken_step (h : Inv p s) (hf : frees s i) (hr : stops_at_head p s i) :
    taken (ClusterRb.step p s.rb i)
      = (if i.free_valid_i then taken s.rb \ block p (freed_region i) else taken s.rb)
        ∪ if alloc_ready_o p s.rb i then block p (new_region p s.rb i) else ∅ := by
  ext k
  have hbit := bitmap_d_iff h.rb (ring_safe h hf hr) k
  have hnew : k ∈ block p (new_region p s.rb i)
      ↔ in_range (push_idx p s.rb i) (push_size p i) k = true := by
    rw [in_range_iff, ← (new_region_div h.rb).1]
    exact Iff.rfl
  refine hbit.trans (or_congr ?_ ?_)
  · -- the freed slots
    by_cases hv : i.free_valid_i = true
    · rw [if_pos hv, in_range_iff, freed_block h hf hv]
      simp only [hv, true_and]
      exact Iff.rfl
    · rw [if_neg hv]
      exact and_iff_left fun hc => hv hc.1
  · -- the granted slots
    rw [← hnew]
    by_cases he : alloc_ready_o p s.rb i = true
    · rw [if_pos he]
      exact and_iff_right he
    · rw [if_neg he]
      simp only [Set.mem_empty_iff_false, iff_false]
      exact fun hc => he hc.1

/-- **A cycle keeps the books**, as long as no request goes past the head. -/
theorem Inv.step (h : Inv p s) (hf : frees s i) (hr : stops_at_head p s i)
    (hsize : i.alloc_valid_i = true → i.alloc_size_i ≤ p.BuffMemLength) :
    Inv p (step p s i) where
  rb := h.rb.step (ring_safe h hf hr)
  tiling := by
    have hfree : Tiling (block p)
        (if i.free_valid_i then s.live.erase (freed_region i) else s.live)
        (if i.free_valid_i then taken s.rb \ block p (freed_region i) else taken s.rb) := by
      split_ifs with hv
      · exact h.tiling.give_back (hf hv)
      · exact h.tiling
    have hsub : (if i.free_valid_i then taken s.rb \ block p (freed_region i) else taken s.rb)
        ⊆ taken s.rb := by
      split_ifs
      · exact Set.sdiff_subset
      · exact subset_rfl
    -- the grant comes after the free, so it is placed in what the free left
    unfold Runs.step
    rw [taken_step h hf hr]
    by_cases he : alloc_ready_o p s.rb i = true
    · simp only [he, if_true]
      apply hfree.take
      exact (grant_placed h hf hr hsize he).2.mono_right hsub
    · simp only [he, Bool.false_eq_true, if_false, List.append_nil, Set.union_empty]
      exact hfree
  placed := by
    intro r hr'
    rcases List.mem_append.mp hr' with hmem | hmem
    · split_ifs at hmem
      · exact h.placed r (List.mem_of_mem_erase hmem)
      · exact h.placed r hmem
    · obtain ⟨he, hmem⟩ := List.mem_ite_nil_right.mp hmem
      rw [List.mem_singleton.mp hmem]
      exact (grant_placed h hf hr hsize he).1

theorem slots_pos (p : Params) : 0 < p.NumSlots := by
  rw [← two_pow_ptr_w]
  exact Nat.two_pow_pos _

theorem inv_init (h : init s) : Inv p s := by
  subst h
  refine ⟨inv_reset (slots_pos p), ?_, fun r hr => absurd hr List.not_mem_nil⟩
  have hnone : taken reset = ∅ := by
    ext k
    simp [taken, reset]
  rw [hnone]
  exact Tiling.nil _

/-! ## Grants by the handshake alone -/

/-- What a grant has to be: slots of the buffer in a row, that hold the request, that
nobody had, and that are taken from the next cycle on. No region in use shares a byte
with the new one. -/
structure GrantedSafely (p : Params) (s : Sys) (i : Input) : Prop where
  row : ∀ k ∈ block p (new_region p s.rb i),
    s.rb.bitmap_q k = false ∧ bitmap_d p s.rb i k = true
  inside : (new_region p s.rb i).1 + i.alloc_size_i ≤ p.BuffMemLength
  holds : ∀ x ∈ bytes (new_region p s.rb i), x / p.MemSlotSize ∈ block p (new_region p s.rb i)
  apart : ∀ r ∈ s.live, Disjoint (bytes r) (bytes (new_region p s.rb i))

theorem handshake_inv
    (h : Sync.Reach init (step p) (fun s i => handshake p s i ∧ stops_at_head p s i) s) :
    Inv p s :=
  h.inv (fun _ h0 => inv_init h0)
    fun _ _ hi he => hi.step he.1.1 he.2 fun hv => (he.1.2 hv).2

/-- **Grant safety**, where no request goes past the head. In a run of such cycles every
grant is safe, whether or not the caller looks at the reported free space. -/
theorem granted_safely
    (h : Sync.Reach init (step p) (fun s i => handshake p s i ∧ stops_at_head p s i) s)
    (he : handshake p s i) (hr : stops_at_head p s i) (hready : alloc_ready_o p s.rb i = true) :
    GrantedSafely p s i := by
  have hinv := handshake_inv h
  have hsize := fun hv => (he.2 hv).2
  obtain ⟨hplaced, hdisj⟩ := grant_placed hinv he.1 hr hsize hready
  refine ⟨fun k hk => ⟨?_, ?_⟩, hplaced.end_le, fun x hx => hplaced.slot_mem hx, fun r hmem => ?_⟩
  · have hfree : ¬ s.rb.bitmap_q k = true := Set.disjoint_left.mp hdisj hk
    simpa using hfree
  · have htaken := taken_step hinv he.1 hr
    rw [if_pos hready] at htaken
    show k ∈ taken (ClusterRb.step p s.rb i)
    rw [htaken]
    exact Or.inr hk
  · apply (hinv.placed r hmem).bytes_disjoint hplaced
    exact (hdisj.mono_right (hinv.tiling.subset hmem)).symm

/-- A ring as a cluster has it: 16 KiB in slots of 64 bytes. -/
def ring_params : Params where
  BuffMemLength := 16384
  MemSlotSize := 64
  slot_pos := by decide
  whole := by decide
  wraps := by decide

def ask (alloc_size_i : ℕ) : Input := ⟨true, alloc_size_i, false, 0, 0⟩

def give (free_index_i free_size_i : ℕ) : Input := ⟨false, 0, true, free_index_i, free_size_i⟩

def quiet : Input := ⟨false, 0, false, 0, 0⟩

/-- Slots 0 to 127 and 128 to 251 are given out, the first 128 come back, and the next
request does not fit behind slot 251 and gets slots 0 to 7. -/
def wrapped_cycles : List Input := [ask 8192, ask 7936, give 0 8192, quiet, ask 512]

def wrapped : Sys := Sync.run (step ring_params) ⟨reset, []⟩ wrapped_cycles

theorem init_reset : init ⟨reset, []⟩ := rfl

/-- The 120 slots from the tail to the head can be given out. -/
theorem granted_safely_demo : GrantedSafely ring_params wrapped (ask 7680) :=
  granted_safely (.run (.reset init_reset) (by decide +kernel)) (by decide +kernel)
    (by decide +kernel) (by decide +kernel)

/-- The tail is at slot 8 and the head at slot 128. A request for 128 slots is granted
from slot 8 on, over the region in use from slot 128. -/
theorem not_granted_safely : ¬ ∀ (p : Params) (s : Sys) (i : Input),
    Sync.Reach init (step p) (handshake p) s → handshake p s i → alloc_ready_o p s.rb i = true →
      GrantedSafely p s i := by
  intro hall
  have hreach : Sync.Reach init (step ring_params) (handshake ring_params) wrapped :=
    .run (.reset init_reset) (by decide +kernel)
  have hsafe := hall ring_params wrapped (ask 8192) hreach (by decide +kernel) (by decide +kernel)
  have hlive : ((8192, 7936) : ℕ × ℕ) ∈ wrapped.live := by decide +kernel
  have hnew : new_region ring_params wrapped.rb (ask 8192) = (512, 8192) := by decide +kernel
  have hd := hsafe.apart _ hlive
  rw [hnew, Set.disjoint_left] at hd
  -- byte 8192 is in both regions
  exact hd (a := 8192) ⟨by decide, by decide⟩ ⟨by decide, by decide⟩

/-! ## The head -/

/-- The head moves over the run of free slots in front of it, up to the first taken slot
or the tail, and space is reported again. -/
structure Reclaimed (p : Params) (s : State) (i : Input) (n : ℕ) : Prop where
  moves : 0 < n ∧ (ClusterRb.step p s i).head_ptr_q = (s.head_ptr_q + n) % p.NumSlots
  free : ∀ j < n, s.bitmap_q ((s.head_ptr_q + j) % p.NumSlots) = false
  before_tail : ∀ j, 0 < j → j < n → (s.head_ptr_q + j) % p.NumSlots ≠ s.tail_ptr_q
  stops : s.bitmap_q ((s.head_ptr_q + n) % p.NumSlots) = true
    ∨ (s.head_ptr_q + n) % p.NumSlots = s.tail_ptr_q
  space : 0 < free_space_o p (ClusterRb.step p s i)

section Head

variable {s : State}

/-- With a slot in use the pointers do not go back to 0. -/
theorem not_rewinds (h : ClusterRb.Inv p s) (hany : ∃ k, s.bitmap_q k = true) :
    ¬ rewinds p s i = true := by
  have htaken := (any_taken_iff h).mpr hany
  simp [rewinds, equal_empty, htaken]

theorem head_ptr_d_eq (h : ClusterRb.Inv p s) (hany : ∃ k, s.bitmap_q k = true) :
    (ClusterRb.step p s i).head_ptr_q
      = (s.head_ptr_q + head_ptr_incr_real p s) % p.NumSlots := by
  rw [← two_pow_ptr_w]
  exact if_neg (not_rewinds h hany)

/-- The zero count: a taken slot, and only free slots up to it. -/
theorem head_ptr_incr_spec (h : ClusterRb.Inv p s) (hany : ∃ k, s.bitmap_q k = true) :
    head_ptr_incr p s < p.NumSlots
      ∧ s.bitmap_q ((s.head_ptr_q + head_ptr_incr p s) % p.NumSlots) = true
      ∧ ∀ j < head_ptr_incr p s, s.bitmap_q ((s.head_ptr_q + j) % p.NumSlots) = false := by
  obtain ⟨k, hk⟩ := hany
  have hkN := h.bitmap_lt k hk
  have hh := h.head_lt
  -- the taken slot, as a distance from the head
  have hdist : ∃ j < p.NumSlots, (s.head_ptr_q + j) % p.NumSlots = k := by
    rcases Nat.lt_or_ge k s.head_ptr_q with hlt | hge
    · refine ⟨k + p.NumSlots - s.head_ptr_q, by omega, ?_⟩
      rw [Nat.add_sub_cancel' (by omega), Nat.add_mod_right, Nat.mod_eq_of_lt hkN]
    · refine ⟨k - s.head_ptr_q, by omega, ?_⟩
      rw [Nat.add_sub_cancel' hge, Nat.mod_eq_of_lt hkN]
  obtain ⟨j, hj, hjk⟩ := hdist
  have hne : Lzc.empty_o p.NumSlots (bitmap_shifted p s) = false := by
    apply Lzc.not_empty_o_iff.mpr
    refine ⟨j, hj, ?_⟩
    rw [bitmap_shifted, hjk]
    exact hk
  have hincr : head_ptr_incr p s = Lzc.cnt_o p.NumSlots (bitmap_shifted p s) := by
    rw [head_ptr_incr, hne, if_neg Bool.false_ne_true, Nat.add_zero]
  rw [hincr]
  exact Lzc.cnt_o_spec hne

/-- Where head and tail are apart the head never stops short of a taken slot or the tail. -/
theorem head_run (h : ClusterRb.Inv p s) (hany : ∃ k, s.bitmap_q k = true)
    (hfree : s.bitmap_q s.head_ptr_q = false) (hne : s.head_ptr_q ≠ s.tail_ptr_q) :
    0 < head_ptr_incr_real p s ∧ head_ptr_incr_real p s < p.NumSlots
      ∧ (∀ j < head_ptr_incr_real p s, s.bitmap_q ((s.head_ptr_q + j) % p.NumSlots) = false)
      ∧ (∀ j, 0 < j → j < head_ptr_incr_real p s →
        (s.head_ptr_q + j) % p.NumSlots ≠ s.tail_ptr_q)
      ∧ (s.bitmap_q ((s.head_ptr_q + head_ptr_incr_real p s) % p.NumSlots) = true
        ∨ (s.head_ptr_q + head_ptr_incr_real p s) % p.NumSlots = s.tail_ptr_q) := by
  have hh := h.head_lt
  have ht := h.tail_lt
  obtain ⟨hlt, htaken, hrun⟩ := head_ptr_incr_spec h hany
  have hpos : 0 < head_ptr_incr p s := by
    by_contra hzero
    rw [Nat.eq_zero_of_not_pos hzero, Nat.add_zero, Nat.mod_eq_of_lt hh, hfree] at htaken
    exact absurd htaken Bool.false_ne_true
  -- the distance to the tail, and where it leads
  have hmax : 0 < head_ptr_incr_max p s ∧ head_ptr_incr_max p s < p.NumSlots
      ∧ (s.head_ptr_q + head_ptr_incr_max p s) % p.NumSlots = s.tail_ptr_q := by
    unfold head_ptr_incr_max
    split_ifs with hle
    · rw [Nat.add_sub_cancel' hle, Nat.mod_eq_of_lt ht]
      omega
    · rw [Nat.add_sub_cancel' (by omega), Nat.add_mod_right, Nat.mod_eq_of_lt ht]
      omega
  obtain ⟨hmax_pos, hmax_lt, htail⟩ := hmax
  have hbefore : ∀ j, 0 < j → j < head_ptr_incr_max p s →
      (s.head_ptr_q + j) % p.NumSlots ≠ s.tail_ptr_q := by
    intro j hj0 hj heq
    rw [← htail, add_mod_eq hh (by omega), add_mod_eq hh hmax_lt] at heq
    split_ifs at heq <;> omega
  unfold head_ptr_incr_real
  split_ifs with hc
  · exact ⟨hpos, hlt, hrun, fun j h0 hj => hbefore j h0 (by omega), Or.inl htaken⟩
  · exact ⟨hmax_pos, hmax_lt, fun j hj => hrun j (by omega), hbefore, Or.inr htail⟩

/-- A ring whose head was apart from the tail, and moved, has space: the tail does not
reach the new head. -/
theorem space_after (h : ClusterRb.Inv p s) (ok : Safe p s i) (hany : ∃ k, s.bitmap_q k = true)
    (hfree : s.bitmap_q s.head_ptr_q = false) (hne : s.head_ptr_q ≠ s.tail_ptr_q) :
    0 < free_space_o p (ClusterRb.step p s i) := by
  have hh := h.head_lt
  have ht := h.tail_lt
  have hinv := h.step ok
  obtain ⟨hpos, hlt, -, -, -⟩ := head_run h hany hfree hne
  obtain ⟨head, hhead, hhlt, hmove, hpassed⟩ := head_step h
  obtain ⟨k, hk⟩ := hany
  have hpass := hpassed k hk
  unfold Passed at hpass
  have hhd : (ClusterRb.step p s i).head_ptr_q = head := by
    rw [head_ptr_d_eq h ⟨k, hk⟩, hhead]
  -- less than a whole round, so not where it was
  have hmoved : head ≠ s.head_ptr_q := by
    intro hc
    rw [add_mod_eq hh hlt] at hhead
    split_ifs at hhead <;> omega
  have hapart : (ClusterRb.step p s i).tail_ptr_q ≠ head := by
    by_cases he : push_en p s i = true
    · obtain ⟨-, tail, htail, hplace⟩ := push_tail h (ok.room (push_en_iff.mp he).2) he
      have htl : (ClusterRb.step p s i).tail_ptr_q = tail := by
        rw [← htail, ← two_pow_ptr_w]
        exact (if_neg (not_rewinds h ⟨k, hk⟩)).trans (if_pos he)
      rw [htl]
      rcases hplace with hc | hc | hc <;> omega
    · have htl : (ClusterRb.step p s i).tail_ptr_q = s.tail_ptr_q :=
        (if_neg (not_rewinds h ⟨k, hk⟩)).trans (if_neg he)
      rw [htl]
      omega
  apply Nat.mul_pos _ p.slot_pos
  have hf : equal_full p (ClusterRb.step p s i) = false := by
    rw [equal_full, Bool.and_eq_false_iff]
    exact Or.inl (beq_eq_false_iff_ne.mpr (hhd ▸ hapart.symm))
  have htlt := hinv.tail_lt
  unfold free_slots free_slots_to_end free_slots_to_head
  rw [hf, if_neg Bool.false_ne_true, hhd]
  split_ifs <;> omega

/-- In a ring that filled up completely the head stays. -/
theorem head_stays (h : ClusterRb.Inv p s) (hany : ∃ k, s.bitmap_q k = true)
    (heq : s.head_ptr_q = s.tail_ptr_q) :
    (ClusterRb.step p s i).head_ptr_q = s.head_ptr_q := by
  have hzero : head_ptr_incr_real p s = 0 := by
    unfold head_ptr_incr_real head_ptr_incr_max
    rw [if_pos heq.le, heq, Nat.sub_self, if_neg (Nat.not_lt_zero _)]
  rw [head_ptr_d_eq h hany, hzero, Nat.add_zero, Nat.mod_eq_of_lt h.head_lt]

end Head

theorem within_inv (h : Sync.Reach init (step p) (within_space p) s) : Inv p s :=
  h.inv (fun _ h0 => inv_init h0) fun _ _ hi he => hi.step he.1 (he.stops hi) fun hv => he.size_le hi hv

/-- **Reclaim.** With a slot in use and the slot at the head free, the head moves over the
free run and space is reported, if and only if the head is not at the tail. -/
theorem reclaim_iff (h : Sync.Reach init (step p) (within_space p) s) (he : within_space p s i)
    (hany : ∃ k, s.rb.bitmap_q k = true) (hfree : s.rb.bitmap_q s.rb.head_ptr_q = false) :
    (∃ n, Reclaimed p s.rb i n) ↔ s.rb.head_ptr_q ≠ s.rb.tail_ptr_q := by
  have hinv := within_inv h
  constructor
  · rintro ⟨n, hn⟩ heq
    have hhd := hn.moves.2
    rw [head_stays hinv.rb hany heq] at hhd
    -- back at the head after a whole round, although a slot on the way is taken
    obtain ⟨hlt, htaken, -⟩ := head_ptr_incr_spec hinv.rb hany
    have hround : p.NumSlots ≤ n := by
      by_contra hc
      have hh := hinv.rb.head_lt
      have hn0 := hn.moves.1
      rw [add_mod_eq hh (by omega)] at hhd
      split_ifs at hhd <;> omega
    rw [hn.free _ (by omega)] at htaken
    exact absurd htaken Bool.false_ne_true
  · intro hne
    obtain ⟨hpos, -, hrun, hbefore, hstops⟩ := head_run hinv.rb hany hfree hne
    have hsafe := ring_safe hinv he.1 (he.stops hinv)
    exact ⟨_, ⟨hpos, head_ptr_d_eq hinv.rb hany⟩, hrun, hbefore, hstops,
      space_after hinv.rb hsafe hany hfree hne⟩

/-- Slots 252 to 255 stay free, so that the head moves once the first region is back. -/
theorem reclaim_iff_demo : ∃ n, Reclaimed ring_params
    (Sync.run (step ring_params) ⟨reset, []⟩ [ask 8192, ask 7936, give 0 8192]).rb (ask 200) n :=
  (reclaim_iff (.run (.reset init_reset) (by decide +kernel)) (by decide +kernel)
    ⟨128, by decide +kernel⟩ (by decide +kernel)).mpr (by decide +kernel)

/-- All 256 slots are given out, and the first 128 come back. -/
def filled : Sys := Sync.run (step ring_params) ⟨reset, []⟩ [ask 8192, ask 8192, give 0 8192]

/-- Half of the ring is free, and still no space is reported in the next cycle. -/
theorem not_reclaimed : ¬ ∀ (p : Params) (s : Sys) (i : Input),
    Sync.Reach init (step p) (within_space p) s → within_space p s i →
      (∃ k, s.rb.bitmap_q k = true) → s.rb.bitmap_q s.rb.head_ptr_q = false →
        ∃ n, Reclaimed p s.rb i n := by
  intro hall
  have hreach : Sync.Reach init (step ring_params) (within_space ring_params) filled :=
    .run (.reset init_reset) (by decide +kernel)
  obtain ⟨n, hn⟩ := hall ring_params filled quiet hreach (by decide +kernel)
    ⟨128, by decide +kernel⟩ (by decide +kernel)
  have hspace : free_space_o ring_params (ClusterRb.step ring_params filled.rb quiet) = 0 := by
    decide +kernel
  exact absurd hn.space (by rw [hspace]; decide)

end Pspin.ClusterRb.Runs
