/-
The L1 packet buffer of a cluster, over whole runs of `cluster_scheduler`.

A task that is accepted owns the region `[pkt_ptr, pkt_ptr + pkt_size)` until a feedback
with the same pointer and size leaves the cluster. `Sys` runs the scheduler and records
the regions in use. Feedbacks may come in any order; the only thing asked of the cores is
that each names a region in use, so that none is freed twice.

The allocator works with indices into the buffer, `idx_region` translates.
-/
import Mathlib.Data.List.Basic
import Pspin.ClusterScheduler
import Pspin.Sync

set_option autoImplicit false

namespace Pspin.ClusterScheduler.Memory

/-- A region in use: its address and size. -/
abbrev region_t := pkt_ptr_t × mem_size_t

/-- The scheduler and the packets that it holds in L1. -/
structure Sys where
  hw : State
  live : List region_t

variable (cluster_id_i : BitVec 6)

/-- The region of the task accepted in this cycle. -/
def new_region (s : State) (i : Input) : region_t :=
  (l1_pkt_ptr cluster_id_i s i, i.task_descr_i.pkt_size)

/-- A feedback leaves the cluster in this cycle. -/
def feedback (s : State) (i : Input) : Bool := feedback_valid_o s i && i.feedback_ready_i

/-- The region its feedback names. -/
def feedback_region (s : State) (i : Input) : region_t :=
  ((hpu_feedback_arb_i s i).pkt_ptr, (hpu_feedback_arb_i s i).feedback_descr.pkt_size)

/-- A clock edge: a feedback gives its region back, a task takes a new one. -/
def step (s : Sys) (i : Input) : Sys where
  hw := ClusterScheduler.step cluster_id_i s.hw i
  live := (if feedback s.hw i then s.live.erase (feedback_region s.hw i) else s.live)
    ++ if task_new s.hw i then [new_region cluster_id_i s.hw i] else []

/-- At first no packet is there. -/
def init (s : Sys) : Prop := ∃ zero, s = ⟨reset zero, []⟩

/-- A feedback gives back a region in use. -/
def env (s : Sys) (i : Input) : Prop :=
  feedback s.hw i = true → feedback_region s.hw i ∈ s.live

instance (s : Sys) (i : Input) : Decidable (env s i) := inferInstanceAs (Decidable (_ → _))

/-- The states of all runs in which feedbacks are of packets that are there. -/
def Reach : Sys → Prop := Sync.Reach init (step cluster_id_i) env

/-! ## Addresses -/

/-- First address of the packet buffer. -/
def pkt_buff_base : ℕ :=
  L1_CLUSTER_BASE + cluster_id_i.toNat * L1_CLUSTER_MEM_SIZE + L1_PKT_BUFF_OFFSET

/-- Address of slot `j` of ring `k`. -/
def slot_addr (k j : ℕ) : ℕ :=
  pkt_buff_base cluster_id_i + k * buff_params.BuffMemLenghtPerRB + j * PktBuffMemSlotSize

/-- The bytes of a region. -/
def bytes (r : region_t) : Set ℕ := {x | r.1.toNat ≤ x ∧ x < r.1.toNat + r.2.toNat}

/-- What a placed region looks like: it starts on a slot of a ring and ends in that ring. -/
def Placed (r : region_t) : Prop :=
  ∃ k < NumRB, ∃ j < buff_params.rb.NumSlots, r.1.toNat = slot_addr cluster_id_i k j
    ∧ r.1.toNat + r.2.toNat ≤ slot_addr cluster_id_i (k + 1) 0

/-- The packet buffer is safe. -/
structure Safe (s : Sys) : Prop where
  disjoint : s.live.Pairwise fun a b => Disjoint (bytes a) (bytes b)
  placed : ∀ r ∈ s.live, Placed cluster_id_i r
  bitmap : ∀ (k : Fin NumRB) (j : ℕ), j < buff_params.rb.NumSlots →
    ((s.hw.i_her_alloc.gen_rb k).bitmap_q j = true
      ↔ ∃ r ∈ s.live, slot_addr cluster_id_i k j ∈ bytes r)

/-- A region as the allocator sees it: its index in the buffer, and its size. -/
def idx_region (r : region_t) : ℕ × ℕ := ((r.1 - l1_pkt_base_addr cluster_id_i).toNat, r.2.toNat)

/-- The addresses of the buffer do not wrap. -/
theorem base_toNat : (l1_pkt_base_addr cluster_id_i).toNat = pkt_buff_base cluster_id_i := by
  unfold l1_pkt_base_addr
  rw [BitVec.toNat_ofNat]
  apply Nat.mod_eq_of_lt
  have hid := cluster_id_i.isLt
  simp only [L1_CLUSTER_BASE, L1_CLUSTER_MEM_SIZE, L1_PKT_BUFF_OFFSET, L1_RUNTIME_OFFSET,
    L1_RUNTIME_SIZE]
  omega

/-- The buffer lies within the addresses. -/
theorem base_le : pkt_buff_base cluster_id_i + L1_PKT_BUFF_SIZE < 2 ^ 32 := by
  have hid := cluster_id_i.isLt
  simp only [pkt_buff_base, L1_CLUSTER_BASE, L1_CLUSTER_MEM_SIZE, L1_PKT_BUFF_OFFSET,
    L1_RUNTIME_OFFSET, L1_RUNTIME_SIZE, L1_PKT_BUFF_SIZE]
  omega

variable {cluster_id_i}

/-- Different offsets have different addresses. -/
theorem idx_region_injective : Function.Injective (idx_region cluster_id_i) := by
  rintro ⟨p, n⟩ ⟨p', n'⟩ h
  obtain ⟨hp, hn⟩ := Prod.mk.inj h
  have hp' := BitVec.eq_of_toNat_eq hp
  rw [BitVec.sub_left_inj] at hp'
  exact Prod.ext hp' (BitVec.eq_of_toNat_eq hn)

/-- An index below the end of the buffer, back as an address. -/
theorem addr_of_idx {ptr : pkt_ptr_t}
    (h : (ptr - l1_pkt_base_addr cluster_id_i).toNat < L1_PKT_BUFF_SIZE) :
    ptr.toNat = pkt_buff_base cluster_id_i + (ptr - l1_pkt_base_addr cluster_id_i).toNat := by
  have hbase := base_toNat cluster_id_i
  have hle := base_le cluster_id_i
  have hptr : ptr = l1_pkt_base_addr cluster_id_i + (ptr - l1_pkt_base_addr cluster_id_i) := by
    rw [BitVec.add_comm, BitVec.sub_add_cancel]
  have hnat := congrArg BitVec.toNat hptr
  rw [BitVec.toNat_add, hbase, Nat.mod_eq_of_lt (by omega)] at hnat
  exact hnat

/-! ## One cycle -/

variable (cluster_id_i) in
/-- The rings hold exactly the regions in use. -/
def Inv (s : Sys) : Prop :=
  ClusterRbShim.Inv s.hw.i_her_alloc (s.live.map (idx_region cluster_id_i))

variable {s : Sys} {i : Input}

theorem idx_lt {r : ℕ × ℕ} (h : ClusterRbShim.Placed buff_params r) : r.1 < 2 ^ pkt_buf_idx_w := by
  have hbuf : buff_params.NumRB * buff_params.BuffMemLenghtPerRB = 2 ^ pkt_buf_idx_w := by decide
  rw [← hbuf, ← Nat.div_lt_iff_lt_mul (by decide)]
  exact h.ring

theorem size_lt {r : ℕ × ℕ} (h : ClusterRbShim.Placed buff_params r) : r.2 < 2 ^ pkt_buf_size_w :=
  lt_of_le_of_lt h.size_le (by decide)

/-- An accepted task asks for no more than the reported space. -/
theorem size_le (hv : task_new s.hw i = true) :
    i.task_descr_i.pkt_size.toNat ≤ pkt_buff_free_space s.hw := by
  rw [task_new, task_ready_o, Bool.and_eq_true, Bool.and_eq_true, decide_eq_true_eq] at hv
  exact hv.2.2

/-- The free ports show the region the feedback names. -/
theorem free_region (h : Inv cluster_id_i s) (hr : feedback_region s.hw i ∈ s.live) :
    ((her_alloc_input cluster_id_i s.hw i).free_index_i,
      (her_alloc_input cluster_id_i s.hw i).free_size_i)
        = idx_region cluster_id_i (feedback_region s.hw i) := by
  have hpl := h.placed _ (List.mem_map_of_mem hr)
  apply Prod.ext
  · exact Nat.mod_eq_of_lt (idx_lt hpl)
  · exact Nat.mod_eq_of_lt (size_lt hpl)

/-- What the allocator is asked for is what its own protocol allows. -/
theorem alloc_ok (h : Inv cluster_id_i s) (he : env s i) :
    ClusterRbShim.Ok s.hw.i_her_alloc (s.live.map (idx_region cluster_id_i))
      (her_alloc_input cluster_id_i s.hw i) where
  alloc := fun hv => le_trans (Nat.mod_le _ _) (size_le hv)
  free := by
    intro hv
    rw [free_region h (he hv)]
    exact List.mem_map_of_mem (he hv)

/-- The region of the accepted task is the one the allocator grants. -/
theorem alloc_region (h : Inv cluster_id_i s) (he : env s i) (hv : task_new s.hw i = true) :
    (ClusterRbShim.alloc_index_o s.hw.i_her_alloc (her_alloc_input cluster_id_i s.hw i),
      (her_alloc_input cluster_id_i s.hw i).alloc_size_i)
        = idx_region cluster_id_i (new_region cluster_id_i s.hw i) := by
  have hpl := (ClusterRbShim.alloc_spec h (alloc_ok h he) hv).1
  have hidx : free_pkt_idx cluster_id_i s.hw i
      = ClusterRbShim.alloc_index_o s.hw.i_her_alloc (her_alloc_input cluster_id_i s.hw i) :=
    Nat.mod_eq_of_lt (idx_lt hpl)
  have hlt := idx_lt hpl
  rw [← hidx] at hlt
  apply Prod.ext
  · -- address and size are cut to their fields, and both fit
    show _ = (l1_pkt_base_addr cluster_id_i + BitVec.ofNat 32 (free_pkt_idx cluster_id_i s.hw i)
      - l1_pkt_base_addr cluster_id_i).toNat
    rw [BitVec.add_comm, BitVec.add_sub_cancel, BitVec.toNat_ofNat, hidx, Nat.mod_eq_of_lt]
    rw [← hidx]
    exact lt_trans hlt (by decide)
  · apply Nat.mod_eq_of_lt
    have hsize := size_le hv
    have hspace : pkt_buff_free_space s.hw < 2 ^ pkt_buf_size_w := by
      obtain ⟨k, hk⟩ := ClusterRbShim.exists_tmp_max s.hw.i_her_alloc (NumRB - 1)
      have hle := ClusterRbShim.free_space_le h k
      rw [hk] at hle
      exact lt_of_le_of_lt hle (by decide)
    exact lt_of_le_of_lt hsize hspace

/-- **One cycle keeps the books.** The allocator frees the region of the feedback and
grants that of the accepted task, whichever of the two happen. -/
theorem Inv.step (h : Inv cluster_id_i s) (he : env s i) :
    Inv cluster_id_i (Memory.step cluster_id_i s i) := by
  have hregions : (Memory.step cluster_id_i s i).live.map (idx_region cluster_id_i)
      = ClusterRbShim.regions_d s.hw.i_her_alloc (her_alloc_input cluster_id_i s.hw i)
          (s.live.map (idx_region cluster_id_i)) := by
    unfold Memory.step ClusterRbShim.regions_d
    rw [List.map_append]
    congr 1
    · by_cases hf : feedback s.hw i = true
      · rw [if_pos hf, if_pos (show (her_alloc_input cluster_id_i s.hw i).free_valid_i = true from hf),
          free_region h (he hf), List.map_erase idx_region_injective]
      · rw [if_neg hf, if_neg (show ¬ (her_alloc_input cluster_id_i s.hw i).free_valid_i = true from hf)]
    · by_cases ht : task_new s.hw i = true
      · rw [if_pos ht, if_pos (show (her_alloc_input cluster_id_i s.hw i).alloc_valid_i = true from ht),
          alloc_region h he ht]
        rfl
      · rw [if_neg ht, if_neg (show ¬ (her_alloc_input cluster_id_i s.hw i).alloc_valid_i = true from ht)]
        rfl
  unfold Inv
  rw [hregions]
  exact ClusterRbShim.Inv.step h (alloc_ok h he)

theorem inv_init (h : init s) : Inv cluster_id_i s := by
  obtain ⟨zero, rfl⟩ := h
  exact ClusterRbShim.inv_reset (by decide)

/-! ## What it means for the addresses -/

/-- A region lies where its index says. -/
theorem region_addr {r : region_t} (h : ClusterRbShim.Placed buff_params (idx_region cluster_id_i r)) :
    r.1.toNat = pkt_buff_base cluster_id_i + (idx_region cluster_id_i r).1 := addr_of_idx (idx_lt h)

/-- A region of the allocator, as addresses. -/
theorem placed_of {r : region_t}
    (h : ClusterRbShim.Placed buff_params (idx_region cluster_id_i r)) : Placed cluster_id_i r := by
  have haddr := region_addr h
  obtain ⟨halign, hring, hin⟩ := h
  have hlen : buff_params.BuffMemLenghtPerRB = 16384 := rfl
  have hslot : buff_params.rb.MemSlotSize = 64 := rfl
  have hnum : buff_params.rb.NumSlots = 256 := rfl
  rw [hlen] at hring hin
  rw [hslot] at halign
  have hsize : (idx_region cluster_id_i r).2 = r.2.toNat := rfl
  rw [hsize] at hin
  refine ⟨(idx_region cluster_id_i r).1 / 16384, hring,
    (idx_region cluster_id_i r).1 % 16384 / 64, ?_, ?_, ?_⟩
  · rw [hnum]
    omega
  · rw [haddr, slot_addr, hlen, PktBuffMemSlotSize]
    omega
  · rw [haddr, slot_addr, hlen]
    omega

/-- The bytes of a region, by index. -/
theorem mem_bytes {r : region_t} (h : ClusterRbShim.Placed buff_params (idx_region cluster_id_i r))
    (x : ℕ) : pkt_buff_base cluster_id_i + x ∈ bytes r
      ↔ (idx_region cluster_id_i r).1 ≤ x
        ∧ x < (idx_region cluster_id_i r).1 + (idx_region cluster_id_i r).2 := by
  have haddr := region_addr h
  have hsize : (idx_region cluster_id_i r).2 = r.2.toNat := rfl
  constructor
  · rintro ⟨h1, h2⟩
    constructor <;> omega
  · rintro ⟨h1, h2⟩
    exact ⟨by omega, by omega⟩

/-- What the invariant says of the packets. -/
theorem Inv.safe (h : Inv cluster_id_i s) : Safe cluster_id_i s where
  disjoint := by
    have hblocks := List.pairwise_map.mp h.tiling.disjoint
    refine hblocks.imp_of_mem fun {a b} ha hb hd => ?_
    have hpa := h.placed _ (List.mem_map_of_mem ha)
    have hpb := h.placed _ (List.mem_map_of_mem hb)
    rw [Set.disjoint_left] at hd ⊢
    intro x hxa hxb
    -- a shared byte would lie in a shared slot
    obtain ⟨y, rfl⟩ : ∃ y, x = pkt_buff_base cluster_id_i + y := by
      have haddr := region_addr hpa
      exact ⟨x - pkt_buff_base cluster_id_i, by have := hxa.1; omega⟩
    rw [mem_bytes hpa] at hxa
    rw [mem_bytes hpb] at hxb
    exact hd (ClusterRbShim.slot_mem_block hpa.aligned hxa.1 hxa.2)
      (ClusterRbShim.slot_mem_block hpb.aligned hxb.1 hxb.2)
  placed := fun r hr => placed_of (h.placed _ (List.mem_map_of_mem hr))
  bitmap := by
    intro k j hj
    rw [← ClusterRbShim.mem_taken h (k := k) hj, h.tiling.mem_iff]
    have hslot : slot_addr cluster_id_i k j = pkt_buff_base cluster_id_i
        + ((k : ℕ) * buff_params.rb.NumSlots + j) * buff_params.rb.MemSlotSize := by
      have hlen : buff_params.BuffMemLenghtPerRB = 16384 := rfl
      have hsize : buff_params.rb.MemSlotSize = 64 := rfl
      have hnum : buff_params.rb.NumSlots = 256 := rfl
      rw [slot_addr, hlen, hsize, hnum, PktBuffMemSlotSize]
      omega
    rw [hslot]
    constructor
    · rintro ⟨_, hidx, hg⟩
      obtain ⟨r, hr, rfl⟩ := List.mem_map.mp hidx
      have hpl := h.placed _ (List.mem_map_of_mem hr)
      rw [ClusterRbShim.mem_block_iff_byte hpl.aligned] at hg
      exact ⟨r, hr, (mem_bytes hpl _).mpr hg⟩
    · rintro ⟨r, hr, hx⟩
      have hpl := h.placed _ (List.mem_map_of_mem hr)
      refine ⟨_, List.mem_map_of_mem hr, ?_⟩
      rw [ClusterRbShim.mem_block_iff_byte hpl.aligned]
      exact (mem_bytes hpl _).mp hx

/-- **L1 packet buffer safety.** In every reachable state the regions in use are pairwise
disjoint, each starts on a slot and lies in one ring of the buffer of this cluster, and a
bit of a ring is set if and only if its slot belongs to a region in use. -/
theorem pkt_buffer_safe (h : Reach cluster_id_i s) : Safe cluster_id_i s :=
  (Sync.Reach.inv (P := Inv cluster_id_i) (fun _ h0 => inv_init h0)
    (fun _ _ hi he => hi.step he) h).safe

/-- **The reported space is there.** In every reachable state the allocator serves a
request of any size up to the free space it reports. -/
theorem reported_space_served (h : Reach cluster_id_i s) {a : ClusterRb.Input}
    (hv : a.alloc_valid_i = true) (hpos : 0 < a.alloc_size_i)
    (hle : a.alloc_size_i ≤ ClusterRbShim.free_space_o s.hw.i_her_alloc) :
    ∃ start, ClusterRbShim.Served s.hw.i_her_alloc a start := by
  have hinv := Sync.Reach.inv (P := Inv cluster_id_i) (fun _ h0 => inv_init h0)
    (fun _ _ hi he => hi.step he) h
  exact ⟨_, ClusterRbShim.served hinv hv hpos hle⟩

/-! Two tasks are accepted, and the first one leaves while a third comes in. -/

def demo_start : Sys := ⟨reset ⟨demo_task 0, 0⟩, []⟩

/-- A cycle with or without a task, and with or without the feedback of the first packet. -/
def demo_cycle (task_valid_i : Bool) (pkt_size : mem_size_t) (feedback : Bool) : Input where
  task_valid_i := task_valid_i
  task_descr_i := demo_task pkt_size
  feedback_ready_i := true
  dma_xfer_ready_i := true
  dma_resp_i := false
  hpu_task_ready_i := fun _ => false
  hpu_feedback_valid_i := fun k => feedback && k == 3
  hpu_feedback_i := fun _ => ⟨⟨0x1c000000, 100, 0, true⟩, 0x10004400⟩
  hpu_active_i := fun _ => true

/-- Two packets, and a third one as the first leaves. -/
def demo_cycles : List Input :=
  [demo_cycle true 100 false, demo_cycle true 16384 false, demo_cycle true 64 true]

theorem pkt_buffer_safe_demo : Safe 0 (Sync.run (step 0) demo_start demo_cycles)
    ∧ (Sync.run (step 0) demo_start demo_cycles).live = [(0x10008400, 16384), (0x10004480, 64)] :=
  ⟨pkt_buffer_safe (Sync.Reach.run (.reset ⟨_, rfl⟩) (by decide +kernel)), by decide +kernel⟩

theorem reported_space_served_demo : ∃ start, ClusterRbShim.Served
    (Sync.run (step 0) demo_start demo_cycles).hw.i_her_alloc ⟨true, 16256, false, 0, 0⟩ start :=
  reported_space_served (.run (.reset ⟨_, rfl⟩) (by decide +kernel)) (by decide) (by decide)
    (by decide +kernel)

end Pspin.ClusterScheduler.Memory
