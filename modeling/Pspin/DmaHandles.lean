/-
Handles of DMA transfers, over whole runs.

`Sys` records the transfers that the backend accepted, in order, each with the port it came
from; how many of them are complete; and the handles, one for each launching load of a
transfer that is not empty. The backend completes transfers one by one in this order.

A handle is the number of its transfer modulo `2 ^ 32`, and so is the id of the last complete
one. Compared as numbers they tell whether the transfer is complete as long as neither
has wrapped.
-/
import Pspin.DmaFrontend
import Pspin.Sync

set_option autoImplicit false

namespace Pspin.DmaFrontend

/-! ## `spin_dma.h`, `handler.h` -/

/-- `spin_tf_completed`: an unsigned comparison of two words that wrap. -/
def spin_tf_completed (tf_id done_id : BitVec 32) : Bool := decide (tf_id ≤ done_id)

/-- `while (tf_id > axidma__read_completed_id(dma))`: the loop ends on this value. -/
def spin_wait_for_tf_completion (tf_id done_id : BitVec 32) : Bool := !decide (tf_id > done_id)

/-- The handle of a transfer is its id. -/
def spin_dma_wait (xfer done_id : BitVec 32) : Bool := spin_wait_for_tf_completion xfer done_id

/-- What is stored to `completed`. -/
def spin_dma_test (xfer done_id : BitVec 32) : BitVec 32 :=
  (BitVec.ofBool (spin_tf_completed xfer done_id)).setWidth 32

/-! ## Runs -/

/-- A transfer with the port it came from. -/
structure transfer_t where
  port : ℕ
  descr : transf_descr_32_t

/-- A handle, with the transfer it was returned for and the number of that transfer. -/
structure handle_t where
  xfer : BitVec 32
  transfer : transfer_t
  nth : ℕ

/-- The frontend with all transfers that were started, how many are done, and the handles that
software has. -/
structure Sys where
  hw : State
  started : List transfer_t
  completed : ℕ
  handles : List handle_t

/-- The sets whose launching load is granted in this cycle. -/
def launching (s : State) (i : Input) : List ℕ :=
  (List.range NumRegs).filter fun k => be_valid (i.ctrl k) && ctrl_gnt_o s i k
    && (transf_descr_o (s.regs k)).num_bytes != 0

namespace Sys

/-- A clock edge, which also writes the log. -/
def step (s : Sys) (i : Input) : Sys where
  hw := DmaFrontend.step s.hw i
  started := s.started
    ++ if issue s.hw i then [⟨pe_idx_arb s.hw i, transf_descr_arb s.hw i⟩] else []
  completed := s.completed + if i.trans_complete then 1 else 0
  handles := s.handles ++ (launching s.hw i).map fun k =>
    ⟨(regs_decode s.hw i k).rdata_d, ⟨k, transf_descr_o (s.hw.regs k)⟩, s.started.length + 1⟩

def init : Sys := ⟨reset, [], 0, []⟩

/-- The backend completes only what it accepted in an earlier cycle. -/
def env (s : Sys) (i : Input) : Prop := i.trans_complete = true → s.completed < s.started.length

instance (s : Sys) (i : Input) : Decidable (env s i) :=
  inferInstanceAs (Decidable (_ → _))

/-- The states of all runs in which no transfer ends before it was started. -/
def Reach : Sys → Prop := Sync.Reach (· = init) step env

/-- The transfer of a handle is complete. -/
def done (s : Sys) (x : handle_t) : Prop := x.nth ≤ s.completed

/-- Wait and test, in a state where they read the id of the last complete transfer. -/
structure Right (s : Sys) (x : handle_t) : Prop where
  /-- The handle stands for a transfer that its own port started. -/
  own : s.started[x.nth - 1]? = some x.transfer ∧ 0 < x.nth
  wait : spin_dma_wait x.xfer (done_id s.hw) = true → s.done x
  test : spin_dma_test x.xfer (done_id s.hw) ≠ 0 → s.done x
  /-- Complete, and fewer than `2 ^ 31` further transfers started. -/
  reported : s.done x → s.started.length - x.nth < 2 ^ 31 →
    spin_dma_wait x.xfer (done_id s.hw) = true ∧ spin_dma_test x.xfer (done_id s.hw) = 1

structure Inv (s : Sys) : Prop where
  next : next_id s.hw = BitVec.ofNat 32 (s.started.length + 1)
  last : done_id s.hw = BitVec.ofNat 32 s.completed
  order : s.completed ≤ s.started.length
  /-- A decision that the arbiter keeps has a request. -/
  kept : s.hw.i_rr_arb_tree.lock_q = true →
    ∃ k < NumRegs + 1, s.hw.i_rr_arb_tree.req_q k = true
  xfer : ∀ x ∈ s.handles, x.xfer = BitVec.ofNat 32 x.nth
  own : ∀ x ∈ s.handles, s.started[x.nth - 1]? = some x.transfer ∧ 0 < x.nth

variable {s : Sys} {i : Input}

namespace Inv

/-! ### The launch of a transfer -/

/-- A granted launch is what the backend accepts, and its handle is the next id. -/
theorem launch (h : Inv s) {k : ℕ} (hk : k ∈ launching s.hw i) :
    issue s.hw i = true ∧ pe_idx_arb s.hw i = k
      ∧ transf_descr_arb s.hw i = transf_descr_o (s.hw.regs k)
      ∧ (regs_decode s.hw i k).rdata_d = next_id s.hw := by
  obtain ⟨hrange, hlaunch⟩ := List.mem_filter.mp hk
  have hlt := List.mem_range.mp hrange
  rw [Bool.and_eq_true, Bool.and_eq_true] at hlaunch
  obtain ⟨⟨hvalid, hgnt⟩, hbytes⟩ := hlaunch
  rw [ctrl_gnt_o, regs_decode, decode_launch hvalid] at hgnt
  obtain ⟨hready, hidx⟩ := Bool.and_eq_true_iff.mp (hgnt : be_ready s.hw i k = true)
  have hpe : pe_idx_arb s.hw i = k := (beq_iff_eq.mp hidx).symm
  have hdescr : transf_descr_arb s.hw i = transf_descr_o (s.hw.regs k) := by
    rw [transf_descr_arb, hpe, arb_data, if_pos hlt]
  -- the port that launches requests, so the arbiter shows a request
  have harb : be_valid_arb s.hw i = true := by
    apply (RrArbTree.root_req_iff (by decide)).mpr
    rw [RrArbTree.req_d]
    split_ifs with hlock
    · exact h.kept hlock
    · refine ⟨k, by omega, ?_⟩
      rw [arb_req, if_pos hlt, hvalid]
  refine ⟨?_, hpe, hdescr, ?_⟩
  · rw [issue, harb, hdescr, hbytes]
    have hbackend : i.be_ready_arb = true := hready
    rw [hbackend]
    rfl
  · rw [regs_decode, decode_launch hvalid]

/-- **A cycle of the frontend.** -/
theorem step (h : Inv s) (he : env s i) : Inv (Sys.step s i) where
  next := by
    show (if issue s.hw i then s.hw.i_transfer_id_gen.next_q + 1
      else s.hw.i_transfer_id_gen.next_q) = BitVec.ofNat 32 ((s.started ++ _).length + 1)
    have hnext : s.hw.i_transfer_id_gen.next_q = BitVec.ofNat 32 (s.started.length + 1) := h.next
    rw [List.length_append, hnext]
    split_ifs
    · exact (BitVec.ofNat_add (s.started.length + 1) 1).symm
    · rfl
  last := by
    show (if i.trans_complete then s.hw.i_transfer_id_gen.completed_q + 1
      else s.hw.i_transfer_id_gen.completed_q) = BitVec.ofNat 32 (s.completed + _)
    have hlast : s.hw.i_transfer_id_gen.completed_q = BitVec.ofNat 32 s.completed := h.last
    rw [hlast]
    split_ifs
    · rw [BitVec.ofNat_add]
      rfl
    · rfl
  order := by
    show s.completed + _ ≤ (s.started ++ _).length
    rw [List.length_append]
    have horder := h.order
    split_ifs with hc
    all_goals first | exact Nat.le_add_right_of_le (he hc) | omega
  kept := by
    intro hlock
    -- the arbiter locks on a request that is still there
    obtain ⟨hreq, -⟩ := Bool.and_eq_true_iff.mp hlock
    exact (RrArbTree.root_req_iff (by decide)).mp hreq
  xfer := by
    intro x hx
    rcases List.mem_append.mp hx with hold | hnew
    · exact h.xfer x hold
    · obtain ⟨k, hk, rfl⟩ := List.mem_map.mp hnew
      exact (h.launch hk).2.2.2.trans h.next
  own := by
    intro x hx
    show (s.started ++ _)[x.nth - 1]? = _ ∧ _
    -- an earlier transfer keeps its place in the log, the new one is its last
    rcases List.mem_append.mp hx with hold | hnew
    · obtain ⟨hget, hpos⟩ := h.own x hold
      exact ⟨List.getElem?_append_left (List.getElem?_eq_some_iff.mp hget).1 ▸ hget, hpos⟩
    · obtain ⟨k, hk, rfl⟩ := List.mem_map.mp hnew
      obtain ⟨hissue, hpe, hdescr, -⟩ := h.launch hk
      refine ⟨?_, Nat.succ_pos _⟩
      rw [hissue, if_pos rfl, hpe, hdescr]
      exact List.getElem?_concat_length ..

/-! ### What the comparison says -/

/-- A number that a word can hold. -/
theorem toNat_of_lt {n : ℕ} (hn : n < 2 ^ 32) : (BitVec.ofNat 32 n).toNat = n := by
  rw [BitVec.toNat_ofNat, Nat.mod_eq_of_lt hn]

/-- As long as the ids have not wrapped the comparison is right. -/
theorem le_iff (h : Inv s) (hfew : s.started.length < 2 ^ 32) {x : handle_t} (hx : x ∈ s.handles) :
    x.xfer ≤ done_id s.hw ↔ s.done x := by
  obtain ⟨hget, hpos⟩ := h.own x hx
  have hnth : x.nth - 1 < s.started.length := (List.getElem?_eq_some_iff.mp hget).1
  have horder := h.order
  rw [h.xfer x hx, h.last, BitVec.le_def, toNat_of_lt (by omega), toNat_of_lt (by omega)]
  rfl

theorem right (h : Inv s) (hfew : s.started.length < 2 ^ 32) {x : handle_t} (hx : x ∈ s.handles) :
    Right s x := by
  have hle := h.le_iff hfew hx
  have hwait : spin_dma_wait x.xfer (done_id s.hw) = true ↔ s.done x := by
    rw [← hle, spin_dma_wait, spin_wait_for_tf_completion, Bool.not_eq_true', decide_eq_false_iff_not]
    exact BitVec.not_lt
  refine ⟨h.own x hx, hwait.mp, ?_, ?_⟩
  · intro htest
    by_contra hnot
    apply htest
    rw [spin_dma_test, spin_tf_completed, decide_eq_false (hle.not.mpr hnot)]
    rfl
  · intro hdone _
    refine ⟨hwait.mpr hdone, ?_⟩
    rw [spin_dma_test, spin_tf_completed, decide_eq_true (hle.mpr hdone)]
    rfl

end Inv

/-- After reset no transfer was started. -/
theorem inv_init : Inv init where
  next := rfl
  last := rfl
  order := le_refl _
  kept := nofun
  xfer := nofun
  own := nofun

/-- Every reachable state has the invariant. -/
theorem inv_of_reach (h : Reach s) : Inv s := by
  refine Sync.Reach.inv (P := Inv) ?_ (fun _ _ hi he => hi.step he) h
  rintro _ rfl
  exact inv_init

/-- **Wait and test.** In every state reached with fewer than `2 ^ 32` transfers started, each
handle stands for a transfer of its own core, and a wait that ends, or a test that reports
completion, is about a complete transfer; and both report a complete one. -/
theorem dma_handles_right (h : Reach s) (hfew : s.started.length < 2 ^ 32) :
    ∀ x ∈ s.handles, Right s x :=
  fun _ hx => (inv_of_reach h).right hfew hx

/-! ## The counter wraps -/

/-- **A handle that wrapped.** The transfer with the number `2 ^ 32` has the handle 0, which
tests complete at once. -/
theorem wrapped_not_right (h : Reach s) {x : handle_t} (hx : x ∈ s.handles) (hnth : x.nth = 2 ^ 32)
    (hdone : s.completed < 2 ^ 32) : ¬ Right s x := by
  intro hright
  have hzero : x.xfer = 0 := by
    rw [(inv_of_reach h).xfer x hx, hnth]
    rfl
  have hdone' := hright.wait (by rw [hzero]; rfl)
  rw [done, hnth] at hdone'
  omega

/-- Core 0 stores a length. -/
def store_cycle : Input where
  ctrl := fun k => ⟨k == 0, false, BitVec.allOnes 4, 0x10, 64⟩
  dma_req_valid_i := false
  dma_req_i := ⟨0, 0, 0, false, false, false⟩
  be_ready_arb := true
  trans_complete := false
  busy := false

/-- Core 0 launches a transfer, and the one before completes if it has not. -/
def launch_cycle (complete : Bool) : Input :=
  { store_cycle with
    ctrl := fun k => ⟨k == 0, true, BitVec.allOnes 4, 0x18, 0⟩
    trans_complete := complete }

/-- Core 0 has started `n` transfers; the arbiter holds no decision. -/
structure Launched (s : Sys) (n : ℕ) : Prop where
  reach : Reach s
  bytes : (s.hw.regs 0).words 2 = 64
  unlocked : s.hw.i_rr_arb_tree.lock_q = false
  started : s.started.length = n
  completed : s.completed ≤ n

namespace Launched

variable {n : ℕ}

/-- Between launches the arbiter holds nothing. -/
theorem idle_arb (h : Launched s n) (complete : Bool) :
    RrArbTree.Held (NumRegs + 1) s.hw.i_rr_arb_tree (arb_req (launch_cycle complete)) :=
  fun hlock => absurd (h.unlocked.symm.trans hlock) Bool.false_ne_true

theorem be_valid_launch (complete : Bool) (k : ℕ) :
    be_valid ((launch_cycle complete).ctrl k) = (k == 0) := by
  show ((k == 0) && _ && _) = _
  rw [Bool.and_assoc]
  exact Bool.and_true _

theorem arb_req_launch (complete : Bool) {k : ℕ} (h : arb_req (launch_cycle complete) k = true) :
    k = 0 := by
  rw [arb_req, be_valid_launch] at h
  split_ifs at h
  · exact beq_iff_eq.mp h
  · exact absurd h Bool.false_ne_true

theorem launching_zero (h : Launched s n) (complete : Bool) :
    0 ∈ launching s.hw (launch_cycle complete) := by
  have hvalid : be_valid ((launch_cycle complete).ctrl 0) = true := be_valid_launch complete 0
  have hreq : be_valid_arb s.hw (launch_cycle complete) = true := by
    apply (RrArbTree.req_o_iff (by decide) (h.idle_arb complete)).mpr
    refine ⟨0, by decide, ?_⟩
    rw [arb_req, if_pos (by decide), hvalid]
  have hidx := (RrArbTree.idx_o_spec (by decide) (h.idle_arb complete) hreq).2
  have hzero := arb_req_launch complete hidx
  have hgnt : ctrl_gnt_o s.hw (launch_cycle complete) 0 = true := by
    rw [ctrl_gnt_o, regs_decode, decode_launch hvalid]
    show (true && 0 == RrArbTree.idx_o (NumRegs + 1) s.hw.i_rr_arb_tree _) = true
    rw [Bool.true_and, beq_iff_eq]
    exact hzero.symm
  have hbytes : ((transf_descr_o (s.hw.regs 0)).num_bytes != 0) = true := by
    rw [transf_descr_o, h.bytes]
    rfl
  refine List.mem_filter.mpr ⟨List.mem_range.mpr (by decide), ?_⟩
  rw [hvalid, hgnt, hbytes]
  rfl

/-- One more transfer; its handle carries the next number. -/
theorem step (h : Launched s n) : ∃ s', Launched s' (n + 1) ∧ s'.completed ≤ n
    ∧ ∃ x ∈ s'.handles, x.nth = n + 1 := by
  -- in each cycle the backend completes a transfer if one is left
  have hlaunch := h.launching_zero (decide (s.completed < n))
  have hissue := ((inv_of_reach h.reach).launch hlaunch).1
  have hcompleted : (Sys.step s (launch_cycle (decide (s.completed < n)))).completed ≤ n := by
    show s.completed + (if decide (s.completed < n) = true then 1 else 0) ≤ n
    have hle := h.completed
    split_ifs with hc
    · exact of_decide_eq_true hc
    · exact hle
  refine ⟨Sys.step s (launch_cycle (decide (s.completed < n))), ?_, hcompleted, ?_⟩
  · constructor
    · refine .clock h.reach fun hc => ?_
      rw [h.started]
      exact of_decide_eq_true hc
    · have hvalid := be_valid_launch (decide (s.completed < n)) 0
      show (regs_decode s.hw (launch_cycle (decide (s.completed < n))) 0).words_d 2 = 64
      rw [regs_decode, decode_launch hvalid]
      exact h.bytes
    · exact Bool.and_false _
    · show (s.started ++ _).length = n + 1
      rw [hissue, List.length_append, h.started]
      rfl
    · exact Nat.le_succ_of_le hcompleted
  · refine ⟨_, List.mem_append_right _ (List.mem_map_of_mem hlaunch), ?_⟩
    show s.started.length + 1 = n + 1
    rw [h.started]

/-- A run can start as many transfers as it likes. -/
theorem all : ∀ n, ∃ s, Launched s n := by
  intro n
  induction n with
  | zero =>
    refine ⟨Sys.step init store_cycle, ?_⟩
    constructor
    · exact .clock (.reset rfl) (by decide)
    · decide +kernel
    · decide +kernel
    · decide +kernel
    · decide +kernel
  | succ n ih =>
    obtain ⟨s, hs⟩ := ih
    obtain ⟨s', hs', -⟩ := hs.step
    exact ⟨s', hs'⟩

end Launched

/-- Core 0 starts `2 ^ 32` transfers, each after the one before the last is complete. -/
theorem completed_too_early : ¬ ∀ s, Reach s → ∀ x ∈ s.handles, Right s x := by
  intro hall
  obtain ⟨s, hs⟩ := Launched.all (2 ^ 32 - 1)
  obtain ⟨s', hs', hcompleted, x, hx, hnth⟩ := hs.step
  exact wrapped_not_right hs'.reach hx hnth (by omega) (hall s' hs'.reach x hx)

/-! Core 0 starts two transfers, and the first is complete. -/

/-- Two launches, and the end of the first. -/
def demo_cycles : List Input :=
  [store_cycle, launch_cycle false, launch_cycle false, { store_cycle with trans_complete := true }]

theorem dma_handles_right_demo :
    (∀ x ∈ (Sync.run step init demo_cycles).handles, Right (Sync.run step init demo_cycles) x)
      ∧ (Sync.run step init demo_cycles).handles.map (·.xfer) = [1, 2]
      ∧ done_id (Sync.run step init demo_cycles).hw = 1 := by
  have hstart : Reach init := .reset rfl
  have hreach : Reach (Sync.run step init demo_cycles) := hstart.run (by decide +kernel)
  exact ⟨dma_handles_right hreach (by decide +kernel), by decide +kernel, by decide +kernel⟩

end Sys

end Pspin.DmaFrontend
