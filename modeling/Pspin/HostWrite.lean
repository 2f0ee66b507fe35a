/-
A write of `spin_write_to_host`, up to the memory of the host.

The words that the encoder stores become a command of `cmd_frontend`, the command becomes
an address beat and a data beat of `host_direct`, and the memory writes the lanes that the
strobe marks into the line of 64 bytes that the address is in. Data and strobe start at
lane 0 whatever the low bits of the address are, so the bytes are written where the
handler asked for exactly when the address is the start of a line (`write_to_host_iff`).
-/
import Pspin.CmdEncoders
import Pspin.HostDirectRuns

set_option autoImplicit false

namespace Pspin.HostWrite

open HostDirect
open CmdEncoders (Issued Writes spin_write_to_host)

/-! ## The memory of the host -/

/-- A byte for each address. -/
abbrev Mem := host_addr_t → BitVec 8

/-- A transaction of one beat of 64 bytes: lane `k` is byte `k` of the line. -/
def axi_write (a : ax_chan_t) (d : w_chan_t) (mem : Mem) : Mem := fun x =>
  if x.toNat / 64 = a.addr.toNat / 64 ∧ d.strb.getLsbD (x.toNat % 64) = true then
    d.data.extractLsb' (8 * (x.toNat % 64)) 8
  else mem x

/-- The eight bytes from `addr` on become those of `data`, the lowest first. -/
def stored (addr : host_addr_t) (data : BitVec 64) (mem : Mem) : Mem := fun x =>
  if addr.toNat ≤ x.toNat ∧ x.toNat < addr.toNat + 8 then
    data.extractLsb' (8 * (x.toNat - addr.toNat)) 8
  else mem x

/-! ## The lanes -/

section Lanes

variable {cmd : pspin_cmd_t} {host_addr : host_addr_t} {user_data : BitVec 64} {d : w_chan_t} {k : ℕ}

/-- The strobe marks the eight low lanes. -/
theorem strb_iff (h : Writes cmd host_addr user_data) (hd : Carries cmd d) :
    d.strb.getLsbD k = true ↔ k < 8 := by
  rw [hd.strb, h.size]

/-- A marked lane has its byte of the user data. -/
theorem lane_eq (h : Writes cmd host_addr user_data) (hd : Carries cmd d) (hk : k < 8) :
    d.data.extractLsb' (8 * k) 8 = user_data.extractLsb' (8 * k) 8 := by
  rw [hd.data, ← h.data, BitVec.extractLsb'_extractLsb'_of_le (by omega)]

/-- What the two beats do: the low bytes of the line change. -/
theorem axi_write_eq (h : Writes cmd host_addr user_data) {a : ax_chan_t} (ha : Addresses cmd a)
    (hd : Carries cmd d) (mem : Mem) (x : host_addr_t) : axi_write a d mem x
      = if x.toNat / 64 = host_addr.toNat / 64 ∧ x.toNat % 64 < 8 then
          user_data.extractLsb' (8 * (x.toNat % 64)) 8
        else mem x := by
  have haddr : a.addr = host_addr := by
    rw [← h.at_host, ha]
    rfl
  simp only [axi_write, haddr, strb_iff h hd]
  split_ifs with hx
  · exact lane_eq h hd hx.2
  · rfl

/-- **Only at the start of a line.** -/
theorem stored_iff (h : Writes cmd host_addr user_data) {a : ax_chan_t} (ha : Addresses cmd a)
    (hd : Carries cmd d) : (∀ mem, axi_write a d mem = stored host_addr user_data mem)
      ↔ host_addr.toNat % 64 = 0 := by
  constructor
  · intro heq
    by_contra hoff
    -- the first byte of the line lies below the address and is written all the same
    set line : host_addr_t := BitVec.ofNat _ (host_addr.toNat - host_addr.toNat % 64) with hline
    have hle := Nat.mod_le host_addr.toNat 64
    have htoNat : line.toNat = host_addr.toNat - host_addr.toNat % 64 := by
      have hlt := lt_of_le_of_lt (Nat.sub_le _ (host_addr.toNat % 64)) host_addr.isLt
      rw [hline, BitVec.toNat_ofNat, Nat.mod_eq_of_lt hlt]
    have hx := congrFun (heq fun _ => ~~~user_data.extractLsb' 0 8) line
    have hmod : line.toNat % 64 = 0 := by omega
    have hdiv : line.toNat / 64 = host_addr.toNat / 64 := by omega
    rw [axi_write_eq h ha hd, if_pos ⟨hdiv, by omega⟩, stored, if_neg (by omega), hmod] at hx
    have hbit := congrArg (·.getLsbD 0) hx
    simp at hbit
  · intro hstart mem
    funext x
    rw [axi_write_eq h ha hd, stored]
    by_cases hx : host_addr.toNat ≤ x.toNat ∧ x.toNat < host_addr.toNat + 8
    · have hlane : x.toNat % 64 = x.toNat - host_addr.toNat := by omega
      rw [if_pos hx, if_pos ⟨by omega, by omega⟩, hlane]
    · rw [if_neg hx, if_neg (by omega)]

end Lanes

/-! ## From the handler to the memory -/

section Runs

variable {cluster_id_i : BitVec 6} {C_CORE_ID : ℕ} {f : CmdFrontend.Sys} {i : CmdFrontend.Input}
  {earlier : List CmdFrontend.store_t} {host_addr : host_addr_t} {user_data : BitVec 64}
  {P : Params} {s : HostDirect.Sys} {k : ℕ} {a : ax_chan_t} {d : w_chan_t}

/-- **A write lands where it should exactly at the start of a line.** The core calls the
encoder, and the command that its front-end pushes is the `k`-th write that `host_direct`
accepts: the `k`-th address and data beats turn every memory of the host into the one with
`user_data` at `host_addr` if and only if `host_addr` is a multiple of 64. -/
theorem write_to_host_iff (hf : CmdFrontend.Sys.Reach cluster_id_i C_CORE_ID f)
    (hi : Issued f i earlier (spin_write_to_host host_addr user_data)) (hs : Sys.Reach P s)
    (hcmd : s.writes[k]? = some (CmdFrontend.cmd_d cluster_id_i C_CORE_ID f.hw i))
    (ha : s.aws[k]? = some a) (hd : s.ws[k]? = some d) :
    (∀ mem, axi_write a d mem = stored host_addr user_data mem) ↔ host_addr.toNat % 64 = 0 := by
  obtain ⟨-, id, hid⟩ := hi.pushed hf
  have hwrites : Writes (CmdFrontend.cmd_d cluster_id_i C_CORE_ID f.hw i) host_addr user_data := by
    rw [hid]
    exact CmdEncoders.writes host_addr user_data
  have hdirect := (Sys.inv_of_reach hs).direct
  exact stored_iff hwrites (hdirect.aw.at hcmd ha) (hdirect.w.at hcmd hd)

end Runs

/-! A core writes eight bytes, at the start of a line or behind it. -/

/-- An address at the start of a line. -/
def demo_start : host_addr_t := 0xdeadbeef00c0ff40

def demo_behind : host_addr_t := 0xdeadbeef00c0ff48

/-- The stores of the call. -/
def demo_stores (host_addr : host_addr_t) : List HpuDriver.access_t :=
  spin_write_to_host host_addr 0xfedcba9876543210

def demo_core (host_addr : host_addr_t) : CmdFrontend.Sys :=
  Sync.run (CmdFrontend.Sys.step 0 0) CmdFrontend.Sys.init
    ((demo_stores host_addr).map CmdEncoders.demo_cycle)

def demo_issue : CmdFrontend.Input := CmdEncoders.demo_cycle CmdEncoders.issue

/-- The command that is pushed. -/
def demo_cmd (host_addr : host_addr_t) : pspin_cmd_t :=
  CmdFrontend.cmd_d 0 0 (demo_core host_addr).hw demo_issue

/-- It is offered to `host_direct`, or not. -/
def demo_cycle (host_addr : host_addr_t) (valid : Bool) : HostDirect.Input where
  cmd_req_valid_i := valid
  cmd_req_i := demo_cmd host_addr
  aw_ready := true
  w_ready := true
  ar_ready := true
  b_valid := false
  r_valid := false

/-- The command is accepted, then both beats are taken. -/
def demo_state (host_addr : host_addr_t) : HostDirect.Sys :=
  Sync.run (Sys.step defaults) Sys.init [demo_cycle host_addr true, demo_cycle host_addr false]

/-- The address beat of it. -/
def demo_aw (host_addr : host_addr_t) : ax_chan_t := ax_chan (fifo_ax_data_in (demo_cmd host_addr))

def demo_w (host_addr : host_addr_t) : w_chan_t := w_chan (fifo_w_data_in (demo_cmd host_addr))

/-- The core's run is one of the frontend. -/
theorem demo_core_reach (host_addr : host_addr_t)
    (he : Sync.Allowed (CmdFrontend.Sys.step 0 0) CmdFrontend.Sys.Env CmdFrontend.Sys.init
      ((demo_stores host_addr).map CmdEncoders.demo_cycle)) :
    CmdFrontend.Sys.Reach 0 0 (demo_core host_addr) := by
  have hstart : CmdFrontend.Sys.Reach 0 0 CmdFrontend.Sys.init := .reset rfl
  exact hstart.run he

/-- And that of the host's unit is one of its own. -/
theorem demo_state_reach (host_addr : host_addr_t)
    (he : Sync.Allowed (Sys.step defaults) (Sys.Env defaults) Sys.init
      [demo_cycle host_addr true, demo_cycle host_addr false]) :
    Sys.Reach defaults (demo_state host_addr) := by
  have hstart : Sys.Reach defaults Sys.init := .reset rfl
  exact hstart.run he

theorem write_to_host_iff_demo : demo_start.toNat % 64 = 0
    ∧ ∀ mem, axi_write (demo_aw demo_start) (demo_w demo_start) mem
      = stored demo_start 0xfedcba9876543210 mem := by
  have hissued : Issued (demo_core demo_start) demo_issue []
      (spin_write_to_host demo_start 0xfedcba9876543210) :=
    ⟨by decide +kernel, by decide +kernel, rfl, rfl, by decide +kernel⟩
  have hiff := write_to_host_iff (demo_core_reach demo_start (by decide +kernel)) hissued
    (demo_state_reach demo_start (by decide +kernel)) (k := 0) (a := demo_aw demo_start)
    (d := demo_w demo_start) (by decide +kernel) (by decide +kernel) (by decide +kernel)
  have hstart : demo_start.toNat % 64 = 0 := by decide +kernel
  exact ⟨hstart, hiff.mpr hstart⟩

/-- Behind the start of a line the bytes of the start are written. -/
theorem not_stored : ¬∀ (cluster_id_i : BitVec 6) (C_CORE_ID : ℕ) (f : CmdFrontend.Sys)
    (i : CmdFrontend.Input) (earlier : List CmdFrontend.store_t) (host_addr : host_addr_t)
    (user_data : BitVec 64) (P : Params) (s : HostDirect.Sys) (k : ℕ) (a : ax_chan_t) (d : w_chan_t),
    host_addr.toNat % 64 + 8 ≤ 64 → CmdFrontend.Sys.Reach cluster_id_i C_CORE_ID f →
    Issued f i earlier (spin_write_to_host host_addr user_data) → Sys.Reach P s →
    s.writes[k]? = some (CmdFrontend.cmd_d cluster_id_i C_CORE_ID f.hw i) →
    s.aws[k]? = some a → s.ws[k]? = some d →
    ∀ mem, axi_write a d mem = stored host_addr user_data mem := by
  intro h
  have hissued : Issued (demo_core demo_behind) demo_issue []
      (spin_write_to_host demo_behind 0xfedcba9876543210) :=
    ⟨by decide +kernel, by decide +kernel, rfl, rfl, by decide +kernel⟩
  have hall := h 0 0 _ _ _ _ _ _ _ 0 (demo_aw demo_behind) (demo_w demo_behind)
    (by decide +kernel) (demo_core_reach demo_behind (by decide +kernel)) hissued
    (demo_state_reach demo_behind (by decide +kernel)) (by decide +kernel) (by decide +kernel)
    (by decide +kernel) fun _ => 0
  exact absurd (congrFun hall demo_start) (by decide +kernel)

end Pspin.HostWrite
