/-
`slmp.c`: the handlers that receive a message into host memory.

Each payload handler sends its packet to the place that the packet's offset names, and
acknowledges the packet when the sender asks for it; the header of the acknowledgement is
made in the packet itself. The completion handler then writes a flag for the host and waits
for the host's answer.
-/
import Pspin.HandlerRuns
import Pspin.IpChecksum

set_option autoImplicit false

open Function (update)

namespace Pspin.Slmp

open Handlers IpChecksum

/-! ## `packets.h` -/

/-- The bytes of a word in the other order. -/
def bswap_32 (v : BitVec 32) : BitVec 32 :=
  (bswap_16 (v.setWidth 16)).setWidth 32 <<< 16 ||| (bswap_16 ((v >>> 16).setWidth 16)).setWidth 32

/-- The cores are little-endian. -/
def htonl (v : BitVec 32) : BitVec 32 := bswap_32 v
def ntohl (v : BitVec 32) : BitVec 32 := bswap_32 v

/-- The last packet of a message. -/
def MKEOM : BitVec 16 := 0x8000
def MKSYN : BitVec 16 := 0x4000
def MKACK : BitVec 16 := 0x2000

/-- Whether the flag is set. -/
def EOM (flags : BitVec 16) : Bool := flags &&& MKEOM != 0
/-- Whether the packet asks to be acknowledged. -/
def SYN (flags : BitVec 16) : Bool := flags &&& MKSYN != 0

/-- `sizeof(slmp_pkt_hdr_t)`: the Ethernet header has 14 bytes. -/
def sizeof_slmp_pkt_hdr_t : ℕ :=
  14 + sizeof_ip_hdr_t.toNat + sizeof_udp_hdr_t.toNat + sizeof_slmp_hdr_t.toNat

/-- The length of the payload comes from the UDP header, and the words wrap. -/
def SLMP_PAYLOAD_LEN (hdrs : slmp_pkt_hdr_t) : BitVec 32 :=
  (ntohs hdrs.udp_hdr.length).setWidth 32 - sizeof_udp_hdr_t.setWidth 32
    - sizeof_slmp_hdr_t.setWidth 32

/-- The bytes in memory order. -/
def mac_addr_t_bytes (a : mac_addr_t) : List Byte := List.ofFn a.data

/-- The headers in memory. -/
def hdr_bytes (h : slmp_pkt_hdr_t) : List Byte :=
  mac_addr_t_bytes h.eth_hdr.dest ++ mac_addr_t_bytes h.eth_hdr.src ++ store_16 h.eth_hdr.length
    ++ h.ip_hdr.bytes
    ++ store_16 h.udp_hdr.src_port ++ store_16 h.udp_hdr.dst_port ++ store_16 h.udp_hdr.length
    ++ store_16 h.udp_hdr.checksum
    ++ store_16 h.slmp_hdr.flags ++ store_32 h.slmp_hdr.msg_id ++ store_32 h.slmp_hdr.pkt_off

/-! ## `handler.h` and `spin_host.h` -/

/-- Every HPU has a page of host memory for its flags, before the message. -/
def PAGE_SIZE : ℕ := 4096

/-- `NB_CORES * NB_CLUSTERS` -/
def CORE_COUNT : ℕ := 8 * 2

/-- What the handlers read of their task. -/
structure task_t where
  pkt_mem : BitVec 32
  host_mem_high : BitVec 32
  host_mem_low : BitVec 32
  flow_id : BitVec 32

/-- The arguments of a handler. -/
structure handler_args_t where
  task : task_t
  hpu_gid : BitVec 32
  hpu_id : BitVec 32

/-- Where the host memory of the message begins. -/
def HOST_ADDR (args : handler_args_t) : BitVec 64 :=
  args.task.host_mem_high.setWidth 64 <<< 32 ||| args.task.host_mem_low.setWidth 64

def HOST_ADDR_HPU (args : handler_args_t) : BitVec 64 :=
  HOST_ADDR args + (args.hpu_gid * BitVec.ofNat 32 PAGE_SIZE).setWidth 64

/-- `padding` is the byte of the union that no field covers. -/
structure fpspin_flag_t where
  dma_id : BitVec 8
  len : BitVec 32
  hpu_id : BitVec 16
  padding : BitVec 8

/-- The flag as the word that is written to the host. -/
def fpspin_flag_t.data (flag : fpspin_flag_t) : BitVec 64 :=
  flag.padding ++ flag.hpu_id ++ flag.len ++ flag.dma_id

/-- `dma_idx`, one counter for each HPU of the cluster. -/
abbrev dma_idx_t := BitVec 32 → BitVec 8

/-- Write the flag, wait for that command, and poll until the host has answered it. -/
def host_req (args : handler_args_t) (flag_to_host : fpspin_flag_t) : List Op :=
  [.issue (.write_to_host (HOST_ADDR_HPU args) flag_to_host.data), .wait 1,
    .poll args.hpu_gid flag_to_host.dma_id]

/-- The flag that is returned is not used by any caller; a wrong `hpu_id` in it is only
printed. -/
def fpspin_host_req (args : handler_args_t) (len : BitVec 32) (padding : BitVec 8)
    (dma_idx : dma_idx_t) : List Op × dma_idx_t :=
  let dma_idx := update dma_idx args.hpu_id (dma_idx args.hpu_id + 1)
  let flag_to_host : fpspin_flag_t :=
    { dma_id := dma_idx args.hpu_id
      len := len
      hpu_id := args.hpu_gid.setWidth 16
      padding := padding }
  (host_req args flag_to_host, dma_idx)

/-! ## The handlers -/

/-- The messages that a handler prints when it gives up. -/
inductive Error
  | offset (pkt_off : BitVec 32)
  | no_syn (flags : BitVec 16)
  | no_eom (flags : BitVec 16)
  deriving DecidableEq

/-- `prepare_hdrs_ack` works on the headers in the packet. -/
def send_ack (hdrs : slmp_pkt_hdr_t) (task : task_t) : List Op :=
  [.store 0 (hdr_bytes (prepare_hdrs_ack hdrs MKACK)),
    .issue (.send_packet task.pkt_mem (BitVec.ofNat 32 sizeof_slmp_pkt_hdr_t))]

/-- Only checks the first packet. -/
def slmp_hh (hdrs : slmp_pkt_hdr_t) (dma_idx : dma_idx_t) : Except Error (List Op × dma_idx_t) :=
  let pkt_off := ntohl hdrs.slmp_hdr.pkt_off
  let flags := ntohs hdrs.slmp_hdr.flags
  if pkt_off ≠ 0 then .error (.offset pkt_off)
  else if !SYN flags then .error (.no_syn flags)
  else .ok ([], dma_idx)

/-- The transfer is not waited for. -/
def slmp_ph (args : handler_args_t) (hdrs : slmp_pkt_hdr_t) : List Op :=
  let payload := args.task.pkt_mem + BitVec.ofNat 32 sizeof_slmp_pkt_hdr_t
  let pkt_off := ntohl hdrs.slmp_hdr.pkt_off
  let flags := ntohs hdrs.slmp_hdr.flags
  let host_start_addr := HOST_ADDR args + BitVec.ofNat 64 (CORE_COUNT * PAGE_SIZE)
  .issue (.dma_to_host (host_start_addr + pkt_off.setWidth 64) payload (SLMP_PAYLOAD_LEN hdrs)) ::
    if SYN flags then send_ack hdrs args.task else []

/-- Tells the host how long the message was. -/
def slmp_th (args : handler_args_t) (hdrs : slmp_pkt_hdr_t) (padding : BitVec 8)
    (dma_idx : dma_idx_t) : Except Error (List Op × dma_idx_t) :=
  let pkt_off := ntohl hdrs.slmp_hdr.pkt_off
  let flags := ntohs hdrs.slmp_hdr.flags
  if !EOM flags then .error (.no_eom flags)
  else
    let total_len := pkt_off + SLMP_PAYLOAD_LEN hdrs
    .ok (fpspin_host_req args total_len padding dma_idx)

/-! ## Programs that end with an acknowledgement -/

/-- The headers of a packet have one size. -/
theorem hdr_bytes_length (h : slmp_pkt_hdr_t) : (hdr_bytes h).length = sizeof_slmp_pkt_hdr_t := by
  simp [hdr_bytes, mac_addr_t_bytes, store_16, store_32, ip_hdr_t.bytes, sizeof_slmp_pkt_hdr_t,
    sizeof_ip_hdr_t, sizeof_udp_hdr_t, sizeof_slmp_hdr_t]

theorem sizeof_eq : sizeof_slmp_pkt_hdr_t = 52 := rfl

/-- Some commands, and the acknowledgement if `ack` is set. -/
def acked (cs : List Command) (ack : Bool) (hdrs : slmp_pkt_hdr_t) (task : task_t) : List Op :=
  cs.map Op.issue ++ if ack then send_ack hdrs task else []

variable {cs : List Command} {ack : Bool} {hdrs : slmp_pkt_hdr_t} {task : task_t} {p n : ℕ} {op : Op}

/-- What an operation of such a program can be: a command before the acknowledgement, the store of
the headers, or the packet that is sent. -/
theorem acked_cases (h : (acked cs ack hdrs task)[p]? = some op) :
    (∃ c ∈ cs, op = .issue c ∧ p < cs.length) ∨
      ack = true ∧
        ((p = cs.length ∧ op = .store 0 (hdr_bytes (prepare_hdrs_ack hdrs MKACK))) ∨
          (p = cs.length + 1 ∧ op =
            .issue (.send_packet task.pkt_mem (BitVec.ofNat 32 sizeof_slmp_pkt_hdr_t)))) := by
  rw [acked, List.getElem?_append, List.length_map] at h
  split_ifs at h with hp hack
  · left
    rw [List.getElem?_map, Option.map_eq_some_iff] at h
    obtain ⟨c, hc, rfl⟩ := h
    exact ⟨c, List.mem_of_getElem? hc, rfl, hp⟩
  · right
    refine ⟨hack, ?_⟩
    obtain ⟨k, hk⟩ := Nat.exists_eq_add_of_le (not_lt.mp hp)
    rw [hk, Nat.add_sub_cancel_left, send_ack] at h
    rcases k with _ | _ | k
    · exact .inl ⟨hk, (Option.some.inj h).symm⟩
    · exact .inr ⟨hk, (Option.some.inj h).symm⟩
    · exact absurd h (by simp)
  · exact absurd h (by simp)

/-- The commands read behind the header, which the acknowledgement rewrites. -/
theorem acked_sound (hn : sizeof_slmp_pkt_hdr_t ≤ n)
    (hcs : ∀ c ∈ cs, ∀ x, c.source = some x → 0 < c.size →
      ∃ off, x = task.pkt_mem + BitVec.ofNat 32 off ∧ sizeof_slmp_pkt_hdr_t ≤ off ∧
        off + c.size ≤ n) :
    Sound task.pkt_mem n (acked cs ack hdrs task) where
  store p off bytes h := by
    rcases acked_cases h with ⟨c, -, hop, -⟩ | ⟨-, ⟨-, hop⟩ | ⟨-, hop⟩⟩
    · exact absurd hop nofun
    · rw [Op.store.injEq] at hop
      rw [hop.1, hop.2, hdr_bytes_length, Nat.zero_add]
      exact hn
    · exact absurd hop nofun
  source p c x h hx hpos := by
    rcases acked_cases h with ⟨c', hc', hop, -⟩ | ⟨-, ⟨-, hop⟩ | ⟨hp, hop⟩⟩
    · rw [Op.issue.injEq] at hop
      obtain ⟨off, hoff, hle, hin⟩ := hcs c (hop ▸ hc') x hx hpos
      refine ⟨off, hoff, hin, fun q off' bytes _ hq => .inr ?_⟩
      rcases acked_cases hq with ⟨c, -, hop, -⟩ | ⟨-, ⟨-, hop⟩ | ⟨-, hop⟩⟩
      · exact absurd hop nofun
      · rw [Op.store.injEq] at hop
        rw [hop.1, hop.2, hdr_bytes_length, Nat.zero_add]
        exact hle
      · exact absurd hop nofun
    · exact absurd hop nofun
    · rw [Op.issue.injEq] at hop
      subst hop
      have hx' : task.pkt_mem = x := Option.some.inj hx
      refine ⟨0, by rw [← hx', BitVec.add_zero], ?_, fun q off' bytes hpq hq => ?_⟩
      · change 0 + (BitVec.ofNat 32 sizeof_slmp_pkt_hdr_t).toNat ≤ n
        rw [Nat.zero_add]
        exact hn
      · -- the header is stored before the packet is sent
        rcases acked_cases hq with ⟨c, -, hop, -⟩ | ⟨-, ⟨hq, -⟩ | ⟨-, hop⟩⟩
        · exact absurd hop nofun
        · omega
        · exact absurd hop nofun

/-- Nothing is stored before the acknowledgement. -/
theorem acked_content (packet : List Byte) (hp : p ≤ cs.length) :
    content packet ((acked cs ack hdrs task).take p) = packet := by
  induction p with
  | zero => rfl
  | succ p ih =>
      have hlt : p < cs.length := hp
      have hop : (acked cs ack hdrs task)[p]? = some (.issue cs[p]) := by
        rw [acked, List.getElem?_append_left (by rwa [List.length_map]), List.getElem?_map,
          List.getElem?_eq_getElem hlt]
        rfl
      rw [content_succ packet hop]
      exact ih hlt.le

/-! ## Programs that end with a request to the host -/

variable {args : handler_args_t} {flag : fpspin_flag_t} {a : BitVec 32} {ops : List Op} {c : Command}

/-- What an operation of a request to the host can be: the write of the flag, the wait for it, or
the polling loop. -/
theorem host_req_cases (h : (host_req args flag)[p]? = some op) :
    p = 0 ∧ op = .issue (.write_to_host (HOST_ADDR_HPU args) flag.data) ∨
      p = 1 ∧ op = .wait 1 ∨ p = 2 ∧ op = .poll args.hpu_gid flag.dma_id := by
  rcases p with _ | _ | _ | p
  · exact .inl ⟨rfl, (Option.some.inj h).symm⟩
  · exact .inr (.inl ⟨rfl, (Option.some.inj h).symm⟩)
  · exact .inr (.inr ⟨rfl, (Option.some.inj h).symm⟩)
  · exact absurd h nofun

/-- The only command is the write of the flag. -/
theorem host_req_issue (h : (host_req args flag)[p]? = some (.issue c)) :
    p = 0 ∧ c = .write_to_host (HOST_ADDR_HPU args) flag.data := by
  rcases host_req_cases h with ⟨hp, hop⟩ | ⟨-, hop⟩ | ⟨-, hop⟩
  · rw [Op.issue.injEq] at hop
    exact ⟨hp, hop⟩
  · exact absurd hop nofun
  · exact absurd hop nofun

theorem host_req_poll {gid : BitVec 32} {dma_id : Byte}
    (h : (host_req args flag)[p]? = some (.poll gid dma_id)) :
    p = 2 ∧ gid = args.hpu_gid ∧ dma_id = flag.dma_id := by
  rcases host_req_cases h with ⟨-, hop⟩ | ⟨-, hop⟩ | ⟨hp, hop⟩
  · exact absurd hop nofun
  · exact absurd hop nofun
  · rw [Op.poll.injEq] at hop
    exact ⟨hp, hop⟩

/-- A request reads and changes nothing in the packet. -/
theorem host_req_sound (a : BitVec 32) (n : ℕ) : Sound a n (host_req args flag) where
  store p off bytes h := by
    rcases host_req_cases h with ⟨-, hop⟩ | ⟨-, hop⟩ | ⟨-, hop⟩ <;> exact absurd hop nofun
  source p c x h hx := by
    rw [(host_req_issue h).2] at hx
    exact absurd hx nofun

/-- A handler that does nothing is sound. -/
theorem nil_sound (a : BitVec 32) (n : ℕ) : Sound a n [] where
  store p off bytes h := absurd h (by simp)
  source p c x h := absurd h (by simp)

/-- The `dma_id` is the first byte of the flag. -/
theorem flag_dma_id (flag : fpspin_flag_t) : flag.data.extractLsb' 0 8 = flag.dma_id := by
  apply BitVec.eq_of_getLsbD_eq
  intro i hi
  simp only [fpspin_flag_t.data, BitVec.getLsbD_extractLsb', BitVec.getLsbD_append, hi, if_true,
    Nat.zero_add, decide_true, Bool.true_and]

/-! ## Addresses of the host -/

/-- Addresses that fit their word differ if the numbers do. -/
theorem ofNat_inj {x y : ℕ} (hx : x < 2 ^ 64) (hy : y < 2 ^ 64) (h : BitVec.ofNat 64 x = BitVec.ofNat 64 y) :
    x = y := by
  have := congrArg BitVec.toNat h
  rwa [BitVec.toNat_ofNat, BitVec.toNat_ofNat, Nat.mod_eq_of_lt hx, Nat.mod_eq_of_lt hy] at this

/-- The page of an HPU starts a line of 64 bytes, so `spin_write_to_host` writes at its start. -/
theorem hpu_line (args : handler_args_t) (hal : (HOST_ADDR args).toNat % PAGE_SIZE = 0)
    (hgid : args.hpu_gid.toNat < CORE_COUNT) :
    BitVec.ofNat 64 ((HOST_ADDR_HPU args).toNat / 64 * 64) =
      HOST_ADDR args + BitVec.ofNat 64 (args.hpu_gid.toNat * PAGE_SIZE) := by
  have hpage : PAGE_SIZE = 4096 := rfl
  have hcores : CORE_COUNT = 16 := rfl
  rw [hpage] at hal
  rw [hcores] at hgid
  have hmul : (args.hpu_gid * BitVec.ofNat 32 PAGE_SIZE).setWidth 64 =
      BitVec.ofNat 64 (args.hpu_gid.toNat * PAGE_SIZE) := by
    apply BitVec.eq_of_toNat_eq
    rw [BitVec.toNat_setWidth, BitVec.toNat_mul, BitVec.toNat_ofNat, BitVec.toNat_ofNat, hpage]
    omega
  have hline : (HOST_ADDR args + BitVec.ofNat 64 (args.hpu_gid.toNat * PAGE_SIZE)).toNat % 64 = 0 := by
    rw [BitVec.toNat_add, BitVec.toNat_ofNat, hpage]
    omega
  rw [HOST_ADDR_HPU, hmul, Nat.div_mul_cancel (Nat.dvd_of_mod_eq_zero hline), BitVec.ofNat_toNat,
    BitVec.setWidth_eq]

/-! ## Packets -/

/-- A packet whose UDP length is right. -/
structure Packet where
  hdrs : slmp_pkt_hdr_t
  payload : List Byte
  len : (ntohs hdrs.udp_hdr.length).toNat =
    sizeof_udp_hdr_t.toNat + sizeof_slmp_hdr_t.toNat + payload.length

namespace Packet

/-- The packet as it lies in memory. -/
def bytes (p : Packet) : List Byte := hdr_bytes p.hdrs ++ p.payload

/-- Where its payload belongs in the message. -/
def off (p : Packet) : ℕ := (ntohl p.hdrs.slmp_hdr.pkt_off).toNat

/-- Its flags, in the order of the host. -/
def flags (p : Packet) : BitVec 16 := ntohs p.hdrs.slmp_hdr.flags

end Packet

theorem Packet.length_bytes (p : Packet) : p.bytes.length = 52 + p.payload.length := by
  rw [bytes, List.length_append, hdr_bytes_length, sizeof_eq]

theorem Packet.payload_lt (p : Packet) : p.payload.length < 2 ^ 16 := by
  have hlen := p.len
  have hlt := (ntohs p.hdrs.udp_hdr.length).isLt
  omega

theorem Packet.payload_len (p : Packet) : (SLMP_PAYLOAD_LEN p.hdrs).toNat = p.payload.length := by
  have hlen := p.len
  have hlt := (ntohs p.hdrs.udp_hdr.length).isLt
  have hudp : sizeof_udp_hdr_t.toNat = 8 := rfl
  have hslmp : sizeof_slmp_hdr_t.toNat = 10 := rfl
  rw [hudp, hslmp] at hlen
  rw [SLMP_PAYLOAD_LEN]
  have h8 : sizeof_udp_hdr_t.setWidth 32 = 8#32 := rfl
  have h10 : sizeof_slmp_hdr_t.setWidth 32 = 10#32 := rfl
  rw [h8, h10]
  bv_omega

/-- So a whole packet is shorter than any word can say. -/
theorem Packet.length_bytes_lt (p : Packet) : p.bytes.length < 2 ^ 32 := by
  have := p.payload_lt
  rw [p.length_bytes]
  omega

/-- The payload is behind the headers. -/
theorem Packet.view_payload (p : Packet) (a : BitVec 32) {k : ℕ} (hk : k < p.payload.length) :
    view a p.bytes (a + BitVec.ofNat 32 (sizeof_slmp_pkt_hdr_t + k)) = p.payload.getD k 0 := by
  have hlt := p.payload_lt
  rw [sizeof_eq, view, add_offset_sub a (by omega), bytes, List.getD_append_right, hdr_bytes_length,
    sizeof_eq, Nat.add_sub_cancel_left]
  rw [hdr_bytes_length, sizeof_eq]
  exact Nat.le_add_right _ _

end Pspin.Slmp
