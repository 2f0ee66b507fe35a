/-
The command encoders of `handler.h`, against the descriptors of the hardware.

An encoder stores five words and the type of a command, and loads from `CMD_ISSUE`; each
stores its words in an order of its own. The words reach the descriptor through the
registers of `cmd_frontend`, which keep what earlier commands left: words 5 and 6, and the
event flag until the type is stored. The command that the load pushes is decoded through
the packed structs, and further to what its interface reads: the request of the NIC, the
transfer of `soc_dma_wrap`, the address and the byte lanes of `host_direct`.
-/
import Pspin.CmdAccounting
import Pspin.CmdDescr
import Pspin.HpuDriver

set_option autoImplicit false

namespace Pspin.CmdEncoders

open HpuDriver (access_t)

/-! ## `handler.h` -/

/-- Where the peripherals of the HPU begin. -/
def base_addr : BitVec 32 := 0x1b205000

def sw (word : BitVec 32) (offset : BitVec 32) : access_t := ⟨base_addr + offset, false, word⟩

def lw (offset : BitVec 32) : access_t := ⟨base_addr + offset, true, 0⟩

/-- The high and the low half of a `uint64_t`. -/
def high (a : BitVec 64) : BitVec 32 := (a >>> 32).setWidth 32
/-- The lower word of a host address. -/
def low (a : BitVec 64) : BitVec 32 := a.setWidth 32

/-- A put and a send differ in `dest` and `fid`. -/
def nic_send (dest fid data length : BitVec 32) : List access_t :=
  let src_addr_high := 0
  let cmd_info := 2
  [sw dest 144, sw fid 148, sw data 152, sw src_addr_high 156, sw length 160, sw cmd_info 140]

/-- `spin_rdma_put`: flow 1, to the destination that is given. -/
def spin_rdma_put (dest data length : BitVec 32) : List access_t :=
  let fid := 1
  nic_send dest fid data length

/-- `spin_send_packet`: flow 0, to destination 0. -/
def spin_send_packet (data length : BitVec 32) : List access_t :=
  let dest := 0
  let fid := 0
  nic_send dest fid data length

/-- The two directions of a DMA with the host. -/
def host_dma (direction : BitVec 32) (host_addr : BitVec 64) (nic_addr length : BitVec 32)
    (generate_event : Bool) : List access_t :=
  let cmd_info := (BitVec.ofBool generate_event).setWidth 32
  [sw (high host_addr) 148, sw (low host_addr) 144, sw nic_addr 152, sw length 156,
    sw direction 160, sw cmd_info 140]

def spin_dma_to_host (host_addr : BitVec 64) (nic_addr length : BitVec 32) (generate_event : Bool) :
    List access_t :=
  host_dma 1 host_addr nic_addr length generate_event

/-- `spin_dma_from_host`: the same with the other direction. -/
def spin_dma_from_host (host_addr : BitVec 64) (nic_addr length : BitVec 32)
    (generate_event : Bool) : List access_t :=
  host_dma 0 host_addr nic_addr length generate_event

/-- `spin_write_to_host`: eight bytes of data, in two words. -/
def spin_write_to_host (host_addr user_data : BitVec 64) : List access_t :=
  let size_and_direction := (0x8 <<< 1) ||| 0x1
  let cmd_info := 4
  [sw (high host_addr) 148, sw (low host_addr) 144, sw size_and_direction 152,
    sw (low user_data) 156, sw (high user_data) 160, sw cmd_info 140]

/-- Every encoder ends with this load; it returns the handle. -/
def issue : access_t := lw 128

/-! ## Calls and what they ask for -/

/-- The calls of the runtime with their arguments. -/
inductive call_t
  | rdma_put (dest data length : BitVec 32)
  | send_packet (data length : BitVec 32)
  | dma_to_host (host_addr : BitVec 64) (nic_addr length : BitVec 32) (generate_event : Bool)
  | dma_from_host (host_addr : BitVec 64) (nic_addr length : BitVec 32) (generate_event : Bool)
  | write_to_host (host_addr user_data : BitVec 64)

/-- The stores of a call, without the load that issues it. -/
def call_t.stores : call_t → List access_t
  | .rdma_put dest data length => spin_rdma_put dest data length
  | .send_packet data length => spin_send_packet data length
  | .dma_to_host host_addr nic_addr length event => spin_dma_to_host host_addr nic_addr length event
  | .dma_from_host host_addr nic_addr length event =>
    spin_dma_from_host host_addr nic_addr length event
  | .write_to_host host_addr user_data => spin_write_to_host host_addr user_data

/-- To which interface a command goes, as what, and with what event flag. -/
structure Typed (cmd : pspin_cmd_t) (cmd_type : pspin_cmd_type_t) (intf_id : pspin_cmd_intf_id_t)
    (event : Bool) : Prop where
  cmd_type : cmd.cmd_type = cmd_type
  intf_id : cmd.intf_id = intf_id
  event : cmd.generate_event = event

/-- The NIC sends `length` bytes at `data`. -/
structure Sends (cmd : pspin_cmd_t) (dest fid data length : BitVec 32) : Prop where
  typed : Typed cmd .NICSend CMD_NIC_OUTBOUND_ID false
  req : nic_cmd_req cmd = { nid := dest, fid := fid, src_addr := 0#32 ++ data, length := length }

/-- The DMA engine moves `length` bytes between `host_addr` and `nic_addr`. -/
structure Moves (cmd : pspin_cmd_t) (to_host : Bool) (host_addr : BitVec 64)
    (nic_addr length : BitVec 32) (event : Bool) : Prop where
  typed : Typed cmd .HostMemCpy CMD_EDMA_ID event
  at_host : cmd.descr.host_dma_cmd.host_addr = host_addr
  at_nic : cmd.descr.host_dma_cmd.nic_addr = nic_addr
  bytes : cmd.descr.host_dma_cmd.length = length
  direction : cmd.descr.host_dma_cmd.nic_to_host = to_host
  xfer : xfer_descr cmd = if to_host then ⟨length, host_side host_addr, nic_side nic_addr⟩
    else ⟨length, nic_side nic_addr, host_side host_addr⟩

/-- A beat for `host_addr`, with the eight bytes of `user_data`, and no other byte, in its low
lanes. -/
structure Writes (cmd : pspin_cmd_t) (host_addr user_data : BitVec 64) : Prop where
  typed : Typed cmd .HostDirect CMD_HOSTDIRECT_ID false
  at_host : fifo_ax_data_in cmd = host_addr
  direction : cmd.descr.host_direct_cmd.nic_to_host = true
  size : cmd.descr.host_direct_cmd.imm_data_size.toNat = 8
  data : cmd.descr.host_direct_cmd.imm_data.extractLsb' 0 64 = user_data
  lanes : (fifo_w_data_in cmd).lanes
    = (List.range 8).map fun k => (k, user_data.extractLsb' (8 * k) 8)

/-- What the command that is pushed must say, by the fields of its unit. -/
def call_t.Decodes (cmd : pspin_cmd_t) : call_t → Prop
  | .rdma_put dest data length => Sends cmd dest 1 data length
  | .send_packet data length => Sends cmd 0 0 data length
  | .dma_to_host host_addr nic_addr length event =>
    Moves cmd true host_addr nic_addr length event
  | .dma_from_host host_addr nic_addr length event =>
    Moves cmd false host_addr nic_addr length event
  | .write_to_host host_addr user_data => Writes cmd host_addr user_data

/-! ## The stores at `cmd_frontend` -/

/-- A store as `cmd_frontend` records it. -/
def store (a : access_t) : CmdFrontend.store_t := (a.add.toNat / 4 % 2 ^ 5, a.wdata)

/-- A store as the frontend sees it: a word and its number. -/
theorem store_sw (word offset : BitVec 32) :
    store (sw word offset) = ((base_addr + offset).toNat / 4 % 2 ^ 5, word) := rfl

/-- The words of a packet that is sent. The last one selects the unit, which the frontend takes the
type from. -/
theorem nic_send_stores (dest fid data length : BitVec 32) :
    (nic_send dest fid data length).map store
      = [(4, dest), (5, fid), (6, data), (7, 0), (8, length), (3, 2)] := by
  simp [nic_send, store_sw, base_addr]

theorem host_dma_stores (direction : BitVec 32) (host_addr : BitVec 64) (nic_addr length : BitVec 32)
    (event : Bool) : (host_dma direction host_addr nic_addr length event).map store
      = [(5, high host_addr), (4, low host_addr), (6, nic_addr), (7, length), (8, direction),
        (3, (BitVec.ofBool event).setWidth 32)] := by
  simp [host_dma, store_sw, base_addr]

/-- Word 2 is the size, shifted past the direction bit. -/
theorem write_to_host_stores (host_addr user_data : BitVec 64) :
    (spin_write_to_host host_addr user_data).map store
      = [(5, high host_addr), (4, low host_addr), (6, 17), (7, low user_data), (8, high user_data),
        (3, 4)] := by
  simp [spin_write_to_host, store_sw, base_addr]

section Stores

variable {earlier stores : List CmdFrontend.store_t} {id : pspin_cmd_id_t}

/-- What the last stores wrote, whatever was written before. -/
theorem last_word_append {idx : ℕ} {word : BitVec 32}
    (h : CmdFrontend.last_word stores idx = some word) :
    CmdFrontend.last_word (earlier ++ stores) idx = some word := by
  unfold CmdFrontend.last_word at h ⊢
  obtain ⟨st, hfind, hword⟩ := Option.map_eq_some_iff.mp h
  rw [List.reverse_append, List.find?_append, hfind, Option.some_or, ← hword]
  rfl

/-- Earlier stores do not change the type. -/
theorem last_type_append {code : ℕ} (h : CmdFrontend.last_type stores = some code) :
    CmdFrontend.last_type (earlier ++ stores) = some code := by
  unfold CmdFrontend.last_type at h ⊢
  obtain ⟨st, hfind, hcode⟩ := Option.map_eq_some_iff.mp h
  rw [List.reverse_append, List.find?_append, hfind, Option.some_or, ← hcode]
  rfl

theorem words_eq (w : Fin 19) (word : BitVec 32) (hw : w.val ≤ 6)
    (h : CmdFrontend.last_word stores (w.val + 4) = some word) :
    (CmdFrontend.command (earlier ++ stores) id).descr.words w = word := by
  show (if w.val ≤ 6 then _ else _) = _
  rw [if_pos hw, last_word_append h]
  rfl

theorem event_eq {word : BitVec 32} (h : CmdFrontend.last_word stores 3 = some word) :
    (CmdFrontend.command (earlier ++ stores) id).generate_event = word.getLsbD 0 := by
  show ((CmdFrontend.last_word _ 3).map _).getD false = _
  rw [last_word_append h]
  rfl

/-- Type, interface and event flag are those the stores would leave after reset. -/
theorem typed_of {code : ℕ} {word : BitVec 32} {cmd_type : pspin_cmd_type_t}
    {intf_id : pspin_cmd_intf_id_t} {event : Bool}
    (hcode : CmdFrontend.last_type stores = some code)
    (hword : CmdFrontend.last_word stores 3 = some word)
    (hreset : Typed (CmdFrontend.command stores id) cmd_type intf_id event) :
    Typed (CmdFrontend.command (earlier ++ stores) id) cmd_type intf_id event where
  cmd_type := by
    rw [← hreset.cmd_type, CmdFrontend.command, CmdFrontend.command, last_type_append hcode, hcode]
  intf_id := by
    rw [← hreset.intf_id, CmdFrontend.command, CmdFrontend.command, last_type_append hcode, hcode]
  event := by
    rw [← hreset.event, event_eq hword]
    show _ = ((CmdFrontend.last_word stores 3).map _).getD false
    rw [hword]
    rfl

/-! ## The three kinds of commands -/

/-- The words of a packet that is sent, as its unit reads them. -/
theorem sends (dest fid data length : BitVec 32) :
    Sends (CmdFrontend.command (earlier ++ (nic_send dest fid data length).map store) id)
      dest fid data length where
  typed := by
    rw [nic_send_stores]
    exact typed_of rfl rfl ⟨rfl, rfl, rfl⟩
  req := by
    rw [nic_send_stores, nic_cmd_req, pspin_cmd_descr_t.nid_eq, pspin_cmd_descr_t.fid_eq,
      pspin_cmd_descr_t.src_addr_eq, pspin_cmd_descr_t.nic_length_eq,
      words_eq 0 dest (by decide) rfl, words_eq 1 fid (by decide) rfl,
      words_eq 2 data (by decide) rfl, words_eq 3 0 (by decide) rfl,
      words_eq 4 length (by decide) rfl]
    rfl

theorem high_append_low (a : BitVec 64) : high a ++ low a = a := by
  apply BitVec.eq_of_getLsbD_eq
  intro k hk
  rw [BitVec.getLsbD_append, high, low, BitVec.getLsbD_setWidth, BitVec.getLsbD_setWidth,
    BitVec.getLsbD_ushiftRight]
  by_cases hlow : k < 32
  · rw [if_pos hlow, decide_eq_true hlow, Bool.true_and]
  · rw [if_neg hlow, decide_eq_true (by omega : k - 32 < 32), Bool.true_and,
      (by omega : 32 + (k - 32) = k)]

/-- The words of a transfer, as its unit reads them. -/
theorem moves (to_host : Bool) (host_addr : BitVec 64) (nic_addr length : BitVec 32) (event : Bool) :
    Moves (CmdFrontend.command (earlier
        ++ (host_dma ((BitVec.ofBool to_host).setWidth 32) host_addr nic_addr length event).map
          store) id)
      to_host host_addr nic_addr length event := by
  rw [host_dma_stores]
  set cmd := CmdFrontend.command (earlier ++ _) id with hcmd
  have hhost : cmd.descr.host_dma_cmd.host_addr = host_addr := by
    rw [pspin_cmd_descr_t.dma_host_addr_eq, words_eq 0 (low host_addr) (by decide) rfl,
      words_eq 1 (high host_addr) (by decide) rfl, high_append_low]
  have hnic : cmd.descr.host_dma_cmd.nic_addr = nic_addr := by
    rw [pspin_cmd_descr_t.nic_addr_eq, words_eq 2 nic_addr (by decide) rfl]
  have hbytes : cmd.descr.host_dma_cmd.length = length := by
    rw [pspin_cmd_descr_t.dma_length_eq, words_eq 3 length (by decide) rfl]
  have hdir : cmd.descr.host_dma_cmd.nic_to_host = to_host := by
    rw [pspin_cmd_descr_t.dma_nic_to_host_eq, words_eq 4 _ (by decide) rfl]
    cases to_host <;> rfl
  refine ⟨?_, hhost, hnic, hbytes, hdir, ?_⟩
  · cases event
    · exact typed_of rfl rfl ⟨rfl, rfl, rfl⟩
    · exact typed_of rfl rfl ⟨rfl, rfl, rfl⟩
  · rw [xfer_descr, hhost, hnic, hbytes, hdir]
    cases to_host <;> rfl

/-- The words of a write to the host, as its unit reads them. -/
theorem writes (host_addr user_data : BitVec 64) :
    Writes (CmdFrontend.command (earlier ++ (spin_write_to_host host_addr user_data).map store) id)
      host_addr user_data := by
  rw [write_to_host_stores]
  set cmd := CmdFrontend.command (earlier ++ _) id with hcmd
  have hsize : cmd.descr.host_direct_cmd.imm_data_size.toNat = 8 := by
    rw [pspin_cmd_descr_t.imm_data_size_eq, words_eq 2 17 (by decide) rfl]
    decide +kernel
  have hdata : cmd.descr.host_direct_cmd.imm_data.extractLsb' 0 64 = user_data := by
    rw [pspin_cmd_descr_t.imm_data_low, words_eq 3 (low user_data) (by decide) rfl,
      words_eq 4 (high user_data) (by decide) rfl, high_append_low]
  refine ⟨typed_of rfl rfl ⟨rfl, rfl, rfl⟩, ?_, ?_, hsize, hdata, ?_⟩
  · rw [fifo_ax_data_in, pspin_cmd_descr_t.direct_host_addr_eq,
      words_eq 0 (low host_addr) (by decide) rfl, words_eq 1 (high host_addr) (by decide) rfl,
      high_append_low]
  · rw [pspin_cmd_descr_t.direct_nic_to_host_eq, words_eq 2 17 (by decide) rfl]
    rfl
  · rw [lanes_eq (by rw [hsize]; decide), hsize]
    apply List.map_congr_left
    intro k hk
    have hlt := List.mem_range.mp hk
    -- the stale words lie above the first eight bytes
    rw [← hdata, BitVec.extractLsb'_extractLsb'_of_le (by omega)]

end Stores

/-- An encoder defines its command, whatever the core stored before. -/
theorem decodes (c : call_t) (earlier : List CmdFrontend.store_t) (id : pspin_cmd_id_t) :
    c.Decodes (CmdFrontend.command (earlier ++ c.stores.map store) id) :=
  match c with
  | .rdma_put dest data length => sends dest 1 data length
  | .send_packet data length => sends 0 0 data length
  | .dma_to_host host_addr nic_addr length event => moves true host_addr nic_addr length event
  | .dma_from_host host_addr nic_addr length event => moves false host_addr nic_addr length event
  | .write_to_host host_addr user_data => writes host_addr user_data

/-! ## Over whole runs -/

/-- The store reaches the command frontend. -/
theorem sw_frontend {offset : BitVec 32} (h : (base_addr + offset).extractLsb' 7 2 = 1)
    (word : BitVec 32) : (sw word offset).add.extractLsb' 7 2 = 1 := h

/-- The addresses do not depend on the arguments. -/
theorem frontend_of_stores (c : call_t) : ∀ a ∈ c.stores, a.add.extractLsb' 7 2 = 1 := by
  have h140 : (base_addr + 140).extractLsb' 7 2 = 1 := by decide
  have h144 : (base_addr + 144).extractLsb' 7 2 = 1 := by decide
  have h148 : (base_addr + 148).extractLsb' 7 2 = 1 := by decide
  have h152 : (base_addr + 152).extractLsb' 7 2 = 1 := by decide
  have h156 : (base_addr + 156).extractLsb' 7 2 = 1 := by decide
  have h160 : (base_addr + 160).extractLsb' 7 2 = 1 := by decide
  cases c with
  | rdma_put | send_packet =>
    simp only [call_t.stores, spin_rdma_put, spin_send_packet, nic_send, List.forall_mem_cons,
      sw_frontend h140, sw_frontend h144, sw_frontend h148, sw_frontend h152, sw_frontend h156,
      sw_frontend h160, true_and]
    exact List.forall_mem_nil _
  | dma_to_host | dma_from_host =>
    simp only [call_t.stores, spin_dma_to_host, spin_dma_from_host, host_dma, List.forall_mem_cons,
      sw_frontend h140, sw_frontend h144, sw_frontend h148, sw_frontend h152, sw_frontend h156,
      sw_frontend h160, true_and]
    exact List.forall_mem_nil _
  | write_to_host =>
    simp only [call_t.stores, spin_write_to_host, List.forall_mem_cons, sw_frontend h140,
      sw_frontend h144, sw_frontend h148, sw_frontend h152, sw_frontend h156, sw_frontend h160,
      true_and]
    exact List.forall_mem_nil _

section Runs

open CmdFrontend CmdFrontend.Sys

variable {cluster_id_i : BitVec 6} {C_CORE_ID : ℕ} {s : Sys}

/-- The last stores of the core are `stores`, and its load of the issue register is granted. -/
structure Issued (s : Sys) (i : CmdFrontend.Input) (earlier : List store_t)
    (stores : List access_t) : Prop where
  env : Env s i
  stores : s.stores = earlier ++ stores.map store
  add : i.add_i = issue.add
  wen : i.wen_ni = issue.wen
  gnt : gnt_o s.hw i = true

/-- What is pushed is what was stored. -/
theorem Issued.pushed {i : CmdFrontend.Input} {earlier : List store_t} {stores : List access_t}
    (hi : Issued s i earlier stores) (h : Reach cluster_id_i C_CORE_ID s) :
    cmd_buff_push s.hw i = true ∧ ∃ id,
      cmd_d cluster_id_i C_CORE_ID s.hw i = command (earlier ++ stores.map store) id := by
  have hgranted : Granted cluster_id_i C_CORE_ID s i := (inv_of_reach h).granted hi.env
  have hissued : cmd_issued i = true := by
    have hgnt := hi.gnt
    rw [gnt_o, Bool.and_eq_true] at hgnt
    rw [issued_iff, hi.wen, add_idx, hi.add]
    exact ⟨hgnt.1, rfl, rfl⟩
  have hpush := hgranted.iff_push.mp ⟨hissued, hi.gnt⟩
  have hcmd := hgranted.content hpush
  rw [hi.stores] at hcmd
  exact ⟨hpush, _, hcmd⟩

/-- **The encoders agree with the descriptors.** The accesses of every encoder address
`cmd_frontend`. In every reachable state, whatever the core stored before: when its last
stores are those of an encoder and the load of the issue register is granted, the command
that is pushed decodes to the arguments. -/
theorem encoders_agree (h : Reach cluster_id_i C_CORE_ID s) (c : call_t) :
    (∀ a ∈ c.stores ++ [issue], a.add.extractLsb' 7 2 = 1) ∧
      ∀ (earlier : List store_t) (i : CmdFrontend.Input), Env s i →
        s.stores = earlier ++ c.stores.map store → i.add_i = issue.add → i.wen_ni = issue.wen →
        gnt_o s.hw i = true →
        cmd_buff_push s.hw i = true ∧ c.Decodes (cmd_d cluster_id_i C_CORE_ID s.hw i) := by
  constructor
  · intro a ha
    rcases List.mem_append.mp ha with hstore | hload
    · exact frontend_of_stores c a hstore
    · rw [List.mem_singleton.mp hload]
      rfl
  · intro earlier i he hstores hadd hwen hgnt
    have hissued : Issued s i earlier c.stores := ⟨he, hstores, hadd, hwen, hgnt⟩
    obtain ⟨hpush, id, hcmd⟩ := hissued.pushed h
    refine ⟨hpush, ?_⟩
    rw [hcmd]
    exact decodes c earlier id

/-! A write to the host is issued before a put of the same core; the put is pushed. -/

/-- A cycle with an access. -/
def demo_cycle (a : access_t) : CmdFrontend.Input where
  req_i := true
  add_i := a.add
  wen_ni := a.wen
  wdata_i := a.wdata
  cmd_resp_valid_i := false
  cmd_resp_id_i := ⟨0, 0, 0⟩
  disabled_i := false
  cmd_ready_i := true

/-- A put, with arguments that differ from those of the write before. -/
def demo_put : call_t := .rdma_put 7 0x1c001234 96

/-- The write is issued and leaves all its words behind; then the put stores its own. -/
def demo_accesses : List access_t :=
  spin_write_to_host 0xdeadbeef00c0ffee 0xfedcba9876543210 ++ [issue] ++ demo_put.stores

/-- Before the load that issues the put. -/
def demo_state : CmdFrontend.Sys := Sync.run (Sys.step 0 0) init (demo_accesses.map demo_cycle)

theorem encoders_agree_demo :
    cmd_buff_push demo_state.hw (demo_cycle issue) = true
      ∧ Sends (cmd_d 0 0 demo_state.hw (demo_cycle issue)) 7 1 0x1c001234 96 := by
  have hstart : Reach 0 0 init := .reset rfl
  have hreach : Reach 0 0 demo_state := hstart.run (by decide +kernel)
  exact (encoders_agree hreach demo_put).2
    ((spin_write_to_host 0xdeadbeef00c0ffee 0xfedcba9876543210).map store) (demo_cycle issue)
    (by decide +kernel) (by decide +kernel) rfl rfl (by decide +kernel)

end Runs

end Pspin.CmdEncoders
