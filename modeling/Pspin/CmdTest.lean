/-
`spin_cmd_test` of `handler.h`, against `cmd_frontend`.

The handler stores the handle at `CMD_TEST` and then loads from there. The front-end looks
at `CMD_TEST` in the cycle of the load only, and takes the id from the write data of the
bus in that cycle, which a load does not drive. The answer is about the command with that
id, so it is right exactly where this command and that of the handle are both finished, or
both in flight (`test_right_iff`).
-/
import Pspin.CmdAccounting
import Pspin.HpuDriver

set_option autoImplicit false

namespace Pspin.CmdTest

open CmdFrontend CmdFrontend.Sys
open HpuDriver (access_t)

/-! ## The call -/

def CMD_TEST : BitVec 32 := 0x1B205088

def MMIO_WRITE (addr word : BitVec 32) : access_t := ⟨addr, false, word⟩

/-- `bus` is what the write data happen to be. -/
def MMIO_READ (addr bus : BitVec 32) : access_t := ⟨addr, true, bus⟩

/-- The access is up in a cycle. -/
def Shows (i : Input) (a : access_t) : Prop :=
  i.req_i = true ∧ i.add_i = a.add ∧ i.wen_ni = a.wen ∧ i.wdata_i = a.wdata

/-- The cycles of a call: the store, some cycles without an access, the load. -/
structure Call (handle : local_cmd_id_t) (store : Input) (between : List Input)
    (load : Input) : Prop where
  store : Shows store (MMIO_WRITE CMD_TEST (id_word handle))
  between : ∀ i ∈ between, i.req_i = false
  load : ∃ bus, Shows load (MMIO_READ CMD_TEST bus)

/-- The command with this id is not in flight, or its response arrives in the cycle. -/
def Finished (s : Sys) (i : Input) (k : local_cmd_id_t) : Prop :=
  k ∉ s.book.ids ∨ (i.cmd_resp_valid_i = true ∧ i.cmd_resp_id_i.local_cmd_id = k)

instance (s : Sys) (i : Input) (k : local_cmd_id_t) : Decidable (Finished s i k) :=
  inferInstanceAs (Decidable (_ ∨ _))

variable (cluster_id_i : BitVec 6) (C_CORE_ID : ℕ)

/-- The load is granted, and in the next cycle its data say 1 if and only if the command of
the handle is finished. -/
def Right (s : Sys) (load : Input) (handle : local_cmd_id_t) : Prop :=
  gnt_o s.hw load = true
    ∧ r_valid_o (Sys.step cluster_id_i C_CORE_ID s load).hw = true
    ∧ (r_rdata_o (Sys.step cluster_id_i C_CORE_ID s load).hw = 1 ↔ Finished s load handle)

variable {cluster_id_i} {C_CORE_ID} {s : Sys} {i : Input} {handle : local_cmd_id_t}
  {store load : Input} {between : List Input}

/-! ## Accesses to the test register -/

/-- Only an issue and a wait may have to be held. -/
theorem ready_of_other (h : Inv s) (he : Env s i) (hissue : cmd_issued i = false)
    (hwait : wait_issued i = false) : s.hw.state_q = .Ready := by
  have hheld := h.blocked.held he
  cases hq : s.hw.state_q with
  | Ready => rfl
  | Disabled =>
    have hc := hheld.issue (Or.inl hq)
    exact absurd (hissue.symm.trans hc) Bool.false_ne_true
  | WaitingID =>
    have hc := hheld.issue (Or.inr hq)
    exact absurd (hissue.symm.trans hc) Bool.false_ne_true
  | WaitingBuffer => exact absurd hq h.ids.state
  | Waiting =>
    have hc := hheld.wait hq
    exact absurd (hwait.symm.trans hc) Bool.false_ne_true

theorem add_idx_test (h : i.add_i = CMD_TEST) : add_idx i = ADD_TEST := by
  rw [add_idx, h]
  decide

/-- A load from the test register: no issue, no wait, and a test. -/
theorem load_issued (h : ∃ bus, Shows i (MMIO_READ CMD_TEST bus)) :
    cmd_issued i = false ∧ wait_issued i = false ∧ test_issued i = true := by
  obtain ⟨bus, hreq, hadd, hwen, -⟩ := h
  have hidx := add_idx_test hadd
  have hload : i.wen_ni = true := hwen
  simp [cmd_issued, wait_issued, test_issued, hreq, hidx, hload, ADD_TEST, ADD_ISSUE]

/-- What the front-end answers: whether the command on the bus is finished. -/
theorem finished_iff (h : Inv s) (htest : test_issued i = true) :
    wt_cmd_finished s.hw i = true ↔ Finished s i (wt_cmd_idx i) := by
  have hidx : wt_cmd_idx_d s.hw i = wt_cmd_idx i := by
    rw [wt_cmd_idx_d, htest, Bool.or_true, if_pos rfl]
  rw [wt_cmd_finished, hidx, Bool.or_eq_true, Bool.not_eq_true', Bool.and_eq_true, beq_iff_eq,
    ← Bool.not_eq_true, h.ids.used]
  exact Iff.rfl

variable (cluster_id_i) (C_CORE_ID) in
/-- A load from the test register is granted at once, and its data are the answer. -/
theorem load_answer (h : Inv s) (he : Env s i) (hl : ∃ bus, Shows i (MMIO_READ CMD_TEST bus)) :
    gnt_o s.hw i = true ∧ r_valid_o (Sys.step cluster_id_i C_CORE_ID s i).hw = true
      ∧ (r_rdata_o (Sys.step cluster_id_i C_CORE_ID s i).hw = 1
        ↔ Finished s i (wt_cmd_idx i)) := by
  obtain ⟨hissue, hwait, htest⟩ := load_issued hl
  have hready := ready_of_other h he hissue hwait
  -- a test never waits, so the access is granted in its first cycle
  have hstate : state_d s.hw i = .Ready := by
    rw [state_d, transition, hready, hissue, hwait]
    rfl
  obtain ⟨-, hreq, -⟩ := hl
  have hgnt : gnt_o s.hw i = true := by
    rw [gnt_o, hreq, hstate]
    rfl
  refine ⟨hgnt, hgnt, ?_⟩
  rw [← finished_iff h htest]
  show rdata_d s.hw i = 1 ↔ _
  rw [rdata_d, hready, htest]
  by_cases hfin : wt_cmd_finished s.hw i = true
  · simp [hfin]
  · simp [hfin]

/-- **When the answer is right.** In every run, for every handle and whatever is on the bus:
the answer of a call is right if and only if the command that the low bits of the write data
name in the cycle of the load is finished exactly when that of the handle is. -/
theorem test_right_iff (h : Reach cluster_id_i C_CORE_ID s) (hcall : Call handle store between load)
    (hrun : Sync.Allowed (Sys.step cluster_id_i C_CORE_ID) Env s (store :: between))
    (he : Env (Sync.run (Sys.step cluster_id_i C_CORE_ID) s (store :: between)) load) :
    Right cluster_id_i C_CORE_ID
        (Sync.run (Sys.step cluster_id_i C_CORE_ID) s (store :: between)) load handle
      ↔ (Finished (Sync.run (Sys.step cluster_id_i C_CORE_ID) s (store :: between)) load
          (wt_cmd_idx load)
        ↔ Finished (Sync.run (Sys.step cluster_id_i C_CORE_ID) s (store :: between)) load
          handle) := by
  have hinv := inv_of_reach (Sync.Reach.run h hrun)
  obtain ⟨hgnt, hvalid, hdata⟩ := load_answer cluster_id_i C_CORE_ID hinv he hcall.load
  rw [Right, hdata]
  exact ⟨fun hr => hr.2.2, fun hr => ⟨hgnt, hvalid, hr⟩⟩

/-! One command is issued, and its handle is tested while it is in flight. -/

def demo_access (a : access_t) : Input where
  req_i := true
  add_i := a.add
  wen_ni := a.wen
  wdata_i := a.wdata
  cmd_resp_valid_i := false
  cmd_resp_id_i := ⟨0, 0, 0⟩
  disabled_i := false
  cmd_ready_i := true

def demo_idle : Input := { demo_access (MMIO_READ 0 0) with req_i := false }

def demo_issued : Sys := Sync.run (Sys.step 0 0) Sys.init [demo_cycle 0 none none]

def demo_store : Input := demo_access (MMIO_WRITE CMD_TEST (id_word 0))

def demo_load (bus : BitVec 32) : Input := demo_access (MMIO_READ CMD_TEST bus)

theorem demo_call (bus : BitVec 32) : Call 0 demo_store [demo_idle] (demo_load bus) where
  store := ⟨rfl, rfl, rfl, rfl⟩
  between := by simp [demo_idle]
  load := ⟨bus, rfl, rfl, rfl, rfl⟩

theorem demo_issued_reach : Reach 0 0 demo_issued := by
  have hstart : Reach 0 0 Sys.init := .reset rfl
  exact hstart.run (by decide +kernel)

/-- With the handle on the bus the answer is right. -/
theorem test_right_iff_demo : Right 0 0
    (Sync.run (Sys.step 0 0) demo_issued [demo_store, demo_idle]) (demo_load 0) 0 :=
  (test_right_iff demo_issued_reach (demo_call 0) (by decide +kernel) (by decide +kernel)).mpr
    (by decide +kernel)

/-- With 1 on the bus the command is reported as completed, and is still in flight. -/
theorem not_test_right : ¬ ∀ (s : Sys) (handle : local_cmd_id_t) (store : Input)
    (between : List Input) (load : Input), Reach 0 0 s → Call handle store between load →
      Sync.Allowed (Sys.step 0 0) Env s (store :: between) →
      Env (Sync.run (Sys.step 0 0) s (store :: between)) load →
        Right 0 0 (Sync.run (Sys.step 0 0) s (store :: between)) load handle := by
  intro hall
  have hright := hall demo_issued 0 demo_store [demo_idle] (demo_load 1) demo_issued_reach
    (demo_call 1) (by decide +kernel) (by decide +kernel)
  have hfin := hright.2.2.mp (by decide +kernel)
  exact absurd hfin (by decide +kernel)

end Pspin.CmdTest
