/-
A message over SLMP, in every run of its handlers.

The scheduler starts the payload handlers once the header handler is over and the
completion handler once they all are (`handler_order` is about that); everything else may
happen in any order. `slmp_message` is what the host can rely on: until the completion
handler runs nothing but the message buffer has changed, so that no flag is there yet, and
from then on the buffer holds the message.
-/
import Pspin.HandlerProgress
import Pspin.HandlerWrites
import Pspin.Slmp

set_option autoImplicit false

open Function (update)

namespace Pspin.Slmp

open Handlers IpChecksum

/-! ## Messages -/

/-- A message and the packets that it is sent in: slices that cover it, the first one with
`SYN` and the last one with `EOM`. Slices may overlap, as when one is sent again. -/
structure Message (n : ℕ) where
  data : List Byte
  packet : Fin n → Packet
  head : Fin n
  tail : Fin n
  bound : data.length < 2 ^ 32
  slice : ∀ i, ∀ k < (packet i).payload.length, (packet i).off + k < data.length ∧
    (packet i).payload.getD k 0 = data.getD ((packet i).off + k) 0
  cover : ∀ k < data.length, ∃ i, (packet i).off ≤ k ∧ k < (packet i).off + (packet i).payload.length
  syn : SYN (packet head).flags = true
  start : (packet head).off = 0
  eom : EOM (packet tail).flags = true
  finish : (packet tail).off + (packet tail).payload.length = data.length

/-- The handlers of a message of `n` packets. -/
inductive Task (n : ℕ)
  | hh
  | ph (i : Fin n)
  | th
  deriving DecidableEq

/-- A message for a buffer of the host. Any HPU may run any handler. -/
structure Setup (n : ℕ) where
  msg : Message n
  host_mem_high : BitVec 32
  host_mem_low : BitVec 32
  flow_id : BitVec 32
  hpu_gid : Task n → BitVec 32
  hpu_id : Task n → BitVec 32
  padding : BitVec 8

variable {n : ℕ}

namespace Setup

/-- The packet that a handler is given. -/
def packet (w : Setup n) : Task n → Packet
  | .hh => w.msg.packet w.msg.head
  | .ph i => w.msg.packet i
  | .th => w.msg.packet w.msg.tail

/-- The arguments that the scheduler gives a handler. -/
def args (w : Setup n) (t : Task n) (pkt_mem : BitVec 32) : handler_args_t where
  task := ⟨pkt_mem, w.host_mem_high, w.host_mem_low, w.flow_id⟩
  hpu_gid := w.hpu_gid t
  hpu_id := w.hpu_id t

/-- A handler that gives up does nothing. -/
def handler (w : Setup n) (t : Task n) (dma_idx : dma_idx_t) (pkt_mem : BitVec 32) :
    List Op × dma_idx_t :=
  let args := w.args t pkt_mem
  let hdrs := (w.packet t).hdrs
  let result : Except Error (List Op × dma_idx_t) := match t with
    | .hh => slmp_hh hdrs dma_idx
    | .ph _ => .ok (slmp_ph args hdrs, dma_idx)
    | .th => slmp_th args hdrs w.padding dma_idx
  result.toOption.getD ([], dma_idx)

/-- The order of the scheduler. -/
def ready (status : Task n → Status) : Task n → Prop
  | .hh => True
  | .ph _ => ∃ a ops, status .hh = .done a ops
  | .th => ∀ i, ∃ a ops, status (.ph i) = .done a ops

/-- `HOST_ADDR`, the same for all handlers. -/
def host_addr (w : Setup n) : BitVec 64 := HOST_ADDR (w.args .th 0)

/-- The host looks for the flag of an HPU at the start of the HPU's page. -/
def config (w : Setup n) : Config (Task n) dma_idx_t where
  packet t := (w.packet t).bytes
  ready := ready
  handler := w.handler
  flag_addr gid := w.host_addr + BitVec.ofNat 64 (gid.toNat * PAGE_SIZE)

/-- Where byte `k` of the message goes. -/
def buffer (w : Setup n) (k : ℕ) : BitVec 64 :=
  w.host_addr + BitVec.ofNat 64 (CORE_COUNT * PAGE_SIZE + k)

/-- The flag of the HPU that runs the completion handler. -/
def flag_addr (w : Setup n) (k : ℕ) : BitVec 64 :=
  w.host_addr + BitVec.ofNat 64 ((w.hpu_gid .th).toNat * PAGE_SIZE + k)

end Setup

/-! ## The programs -/

variable {w : Setup n} {a x : BitVec 32} {mem : dma_idx_t} {i : Fin n} {ops : List Op} {p k : ℕ} {c : Command}

/-- The first packet of a message passes the checks of the header handler. -/
theorem slmp_hh_ok (m : Message n) (mem : dma_idx_t) :
    slmp_hh (m.packet m.head).hdrs mem = .ok ([], mem) := by
  have hoff : ntohl (m.packet m.head).hdrs.slmp_hdr.pkt_off = 0 := BitVec.eq_of_toNat_eq m.start
  have hsyn : SYN (ntohs (m.packet m.head).hdrs.slmp_hdr.flags) = true := m.syn
  simp [slmp_hh, hoff, hsyn]

/-- The header handler makes no access of its own. -/
theorem hh_program (w : Setup n) (mem : dma_idx_t) (a : BitVec 32) :
    w.handler .hh mem a = ([], mem) := by
  have hok : slmp_hh (w.packet .hh).hdrs mem = .ok ([], mem) := slmp_hh_ok w.msg mem
  simp only [Setup.handler, hok]
  rfl

/-- The transfer that a payload handler issues. -/
def Setup.transfer (w : Setup n) (i : Fin n) (a : BitVec 32) : Command :=
  let p := w.msg.packet i
  .dma_to_host (w.host_addr + BitVec.ofNat 64 (CORE_COUNT * PAGE_SIZE)
      + (ntohl p.hdrs.slmp_hdr.pkt_off).setWidth 64)
    (a + BitVec.ofNat 32 sizeof_slmp_pkt_hdr_t) (SLMP_PAYLOAD_LEN p.hdrs)

theorem ph_program (w : Setup n) (i : Fin n) (mem : dma_idx_t) (a : BitVec 32) :
    (w.handler (.ph i) mem a).1 =
      acked [w.transfer i a] (SYN (w.msg.packet i).flags) (w.msg.packet i).hdrs (w.args (.ph i) a).task :=
  rfl

/-- The flag that the completion handler writes. -/
def Setup.flag (w : Setup n) (mem : dma_idx_t) : fpspin_flag_t where
  dma_id := mem (w.hpu_id .th) + 1
  len := BitVec.ofNat 32 w.msg.data.length
  hpu_id := (w.hpu_gid .th).setWidth 16
  padding := w.padding

theorem th_program (w : Setup n) (mem : dma_idx_t) (a : BitVec 32) :
    (w.handler .th mem a).1 = host_req (w.args .th a) (w.flag mem) := by
  have heom : EOM (ntohs (w.msg.packet w.msg.tail).hdrs.slmp_hdr.flags) = true := w.msg.eom
  have hlen : ntohl (w.msg.packet w.msg.tail).hdrs.slmp_hdr.pkt_off +
      SLMP_PAYLOAD_LEN (w.msg.packet w.msg.tail).hdrs = BitVec.ofNat 32 w.msg.data.length := by
    apply BitVec.eq_of_toNat_eq
    rw [BitVec.toNat_add, Packet.payload_len, BitVec.toNat_ofNat]
    exact congrArg (· % 2 ^ 32) w.msg.finish
  have hok : slmp_th (w.args .th a) (w.packet .th).hdrs w.padding mem =
      .ok (host_req (w.args .th a) (w.flag mem), update mem (w.hpu_id .th) (mem (w.hpu_id .th) + 1)) := by
    simp only [slmp_th, Setup.packet, heom, hlen, fpspin_host_req, Setup.flag, Setup.args,
      Bool.not_true, Bool.false_eq_true, if_false, Function.update_self]
  simp only [Setup.handler, hok]
  rfl

/-- The programs of SLMP are sound. -/
theorem handler_sound (w : Setup n) (t : Task n) (mem : dma_idx_t) (a : BitVec 32) :
    Sound a (w.packet t).bytes.length (w.handler t mem a).1 := by
  have hn : sizeof_slmp_pkt_hdr_t ≤ (w.packet t).bytes.length := by
    rw [Packet.length_bytes, sizeof_eq]
    exact Nat.le_add_right _ _
  cases t with
  | hh =>
      rw [hh_program]
      exact nil_sound a _
  | ph i =>
      rw [ph_program]
      change Sound (w.args (.ph i) a).task.pkt_mem _ _
      refine acked_sound hn fun c hc x hx _ => ?_
      rw [List.mem_singleton.mp hc] at hx ⊢
      refine ⟨sizeof_slmp_pkt_hdr_t, (Option.some.inj hx).symm, le_rfl, ?_⟩
      change _ + (SLMP_PAYLOAD_LEN _).toNat ≤ _
      rw [Packet.payload_len, Packet.length_bytes, sizeof_eq]
      exact le_rfl
  | th =>
      rw [th_program]
      exact host_req_sound a _

/-- No packet is longer than a word can say. -/
theorem length_bytes_lt (w : Setup n) (t : Task n) : ((w.config).packet t).length < 2 ^ 32 := by
  exact (w.packet t).length_bytes_lt

variable {s s₀ : Sys (Task n) dma_idx_t}

/-- All commands of a run read what their handlers were given. -/
theorem sys_sound (h₀ : s₀.Initial) (h : Reach w.config s₀ s) : s.Sound w.config := by
  intro t a ops pc hp
  obtain ⟨mem, rfl⟩ := program_of_reach h₀ h hp
  exact handler_sound w t mem a

theorem ready_mono (w : Setup n) (status status' : Task n → Status) (t : Task n)
    (h : ∀ u a ops, status u = .done a ops → status' u = .done a ops)
    (hr : w.config.ready status t) : w.config.ready status' t := by
  cases t with
  | hh => trivial
  | ph i =>
      obtain ⟨a, ops, hd⟩ := hr
      exact ⟨a, ops, h _ a ops hd⟩
  | th =>
      intro i
      obtain ⟨a, ops, hd⟩ := hr i
      exact ⟨a, ops, h _ a ops hd⟩

/-! ## What the commands write -/

/-- The payload is behind the header. -/
theorem payload_seen (w : Setup n) (i : Fin n) (a : BitVec 32) (hk : k < (w.msg.packet i).payload.length) :
    (w.transfer i a).byte (view a (w.msg.packet i).bytes) k = (w.msg.packet i).payload.getD k 0 := by
  rw [← (w.msg.packet i).view_payload a hk, BitVec.ofNat_add, ← BitVec.add_assoc]
  rfl

/-- A payload handler writes its slice of the message to its place in the buffer. -/
theorem mem_transfer (w : Setup n) (i : Fin n) (a : BitVec 32) (y : BitVec 64) (v : Byte) :
    (y, v) ∈ (w.transfer i a).writes (view a (w.msg.packet i).bytes) ↔
      ∃ k, k < (w.msg.packet i).payload.length ∧ y = w.buffer ((w.msg.packet i).off + k) ∧
        v = w.msg.data.getD ((w.msg.packet i).off + k) 0 := by
  have hplace : ∀ k, w.host_addr + BitVec.ofNat 64 (CORE_COUNT * PAGE_SIZE)
      + (ntohl (w.msg.packet i).hdrs.slmp_hdr.pkt_off).setWidth 64 + BitVec.ofNat 64 k =
      w.buffer ((w.msg.packet i).off + k) := by
    intro k
    have hoff : (ntohl (w.msg.packet i).hdrs.slmp_hdr.pkt_off).setWidth 64 =
        BitVec.ofNat 64 (w.msg.packet i).off := (BitVec.ofNat_toNat 64 _).symm
    rw [hoff, Setup.buffer, BitVec.add_assoc, BitVec.add_assoc, ← BitVec.ofNat_add, ← BitVec.ofNat_add]
  rw [mem_writes_iff rfl]
  change (∃ k, k < (SLMP_PAYLOAD_LEN _).toNat ∧ _) ↔ _
  rw [Packet.payload_len]
  refine exists_congr fun k => and_congr_right fun hk => ?_
  rw [payload_seen w i a hk, (w.msg.slice i k hk).2, hplace]

/-- The host's memory is aligned to pages and the HPU is one of those there are. -/
structure Setup.Fits (w : Setup n) : Prop where
  aligned : w.host_addr.toNat % PAGE_SIZE = 0
  hpu_gid : ∀ t, (w.hpu_gid t).toNat < CORE_COUNT

/-- The flag is written where it should be. -/
theorem flag_dest (h : w.Fits) (a : BitVec 32) :
    BitVec.ofNat 64 ((HOST_ADDR_HPU (w.args .th a)).toNat / 64 * 64) = w.flag_addr 0 := by
  rw [hpu_line (w.args .th a) h.aligned (h.hpu_gid .th), Setup.flag_addr, Nat.add_zero]
  rfl

theorem mem_flag (h : w.Fits) (a : BitVec 32) (mem : dma_idx_t) (l1 : L1) (y : BitVec 64) (v : Byte) :
    (y, v) ∈ (Command.write_to_host (HOST_ADDR_HPU (w.args .th a)) (w.flag mem).data).writes l1 ↔
      ∃ k, k < 8 ∧ y = w.flag_addr k ∧ v = (w.flag mem).data.extractLsb' (8 * k) 8 := by
  have hadd : ∀ k, w.flag_addr 0 + BitVec.ofNat 64 k = w.flag_addr k := by
    intro k
    rw [Setup.flag_addr, Setup.flag_addr, Nat.add_zero, BitVec.add_assoc, ← BitVec.ofNat_add]
  rw [mem_writes_iff rfl, flag_dest h]
  exact exists_congr fun k => and_congr_right fun _ => by rw [hadd, Command.byte]

/-- Flags are below the buffer. -/
theorem flag_ne_buffer (h : w.Fits) {j k : ℕ} (hj : j < 8) (hk : k < w.msg.data.length) :
    w.flag_addr j ≠ w.buffer k := by
  intro heq
  have hgid := h.hpu_gid .th
  have hbound := w.msg.bound
  have hpage : PAGE_SIZE = 4096 := rfl
  have hcores : CORE_COUNT = 16 := rfl
  rw [Setup.flag_addr, Setup.buffer, BitVec.add_right_inj, hpage, hcores] at heq
  rw [hcores] at hgid
  have := ofNat_inj (by omega) (by omega) heq
  omega

theorem flag_inj (h : w.Fits) {j k : ℕ} (hj : j < 8) (hk : k < 8)
    (heq : w.flag_addr j = w.flag_addr k) : j = k := by
  have hgid := h.hpu_gid .th
  have hpage : PAGE_SIZE = 4096 := rfl
  have hcores : CORE_COUNT = 16 := rfl
  rw [Setup.flag_addr, Setup.flag_addr, BitVec.add_right_inj, hpage] at heq
  rw [hcores] at hgid
  have := ofNat_inj (by omega) (by omega) heq
  omega

theorem buffer_inj {j k : ℕ} (hj : j < w.msg.data.length) (hk : k < w.msg.data.length)
    (h : w.buffer j = w.buffer k) : j = k := by
  have hbound := w.msg.bound
  have hpage : PAGE_SIZE = 4096 := rfl
  have hcores : CORE_COUNT = 16 := rfl
  rw [Setup.buffer, Setup.buffer, BitVec.add_right_inj, hpage, hcores] at h
  have := ofNat_inj (by omega) (by omega) h
  omega

/-- The counter of the flags changes with the completion handler only. -/
theorem mem_eq (h : Reach w.config s₀ s) (hth : s.status .th = .waiting) :
    s.mem = s₀.mem := by
  induction h with
  | refl => rfl
  | tail hr hstep ih =>
      rcases hstep.mem with ⟨hmem, hwait⟩ | ⟨t, a, hw, -, hmem, hstatus⟩
      · rw [hmem]
        exact ih ((hwait _).mp hth)
      · cases t with
        | th =>
            rw [hstatus, Function.update_self] at hth
            exact absurd hth nofun
        | hh =>
            rw [hstatus, Function.update_of_ne (by simp)] at hth
            exact hmem.trans ((congrArg Prod.snd (hh_program w _ a)).trans (ih hth))
        | ph i =>
            rw [hstatus, Function.update_of_ne (by simp)] at hth
            exact hmem.trans (ih hth)

/-- The flags are numbered by a count that the handlers keep; the completion handler is the only one
that counts, so it starts from the count before the run. -/
theorem th_ops (h₀ : s₀.Initial) (h : Reach w.config s₀ s) {pc : ℕ}
    (hp : (s.status .th).program = some (a, ops, pc)) :
    ops = host_req (w.args .th a) (w.flag s₀.mem) := by
  induction h generalizing pc with
  | refl =>
      rw [h₀.waiting] at hp
      exact absurd hp nofun
  | tail hr hstep ih =>
      rcases hstep.program hp with ⟨pc', hp'⟩ | ⟨hw, -, hops⟩
      · exact ih hp'
      · rw [hops, ← mem_eq hr hw]
        exact th_program w _ a

/-- What the commands of a run ask for: bytes of the message in the buffer, and the flag. -/
theorem issued_writes (hf : w.Fits) (h₀ : s₀.Initial) (h : Reach w.config s₀ s) {t : Task n}
    (hi : Issued s.status t a ops p c) {y : BitVec 64} {v : Byte}
    (hw : (y, v) ∈ c.writes (seen a (w.config.packet t) ops p)) :
    (∃ k, k < w.msg.data.length ∧ y = w.buffer k ∧ v = w.msg.data.getD k 0) ∨
      t = .th ∧ ∃ k, k < 8 ∧ y = w.flag_addr k ∧ v = (w.flag s₀.mem).data.extractLsb' (8 * k) 8 := by
  obtain ⟨pc, hp, -, hop⟩ := hi
  cases t with
  | hh =>
      obtain ⟨mem, rfl⟩ := program_of_reach h₀ h hp
      change (w.handler .hh mem a).1[p]? = _ at hop
      rw [hh_program] at hop
      exact absurd hop (by simp)
  | ph i =>
      left
      obtain ⟨mem, rfl⟩ := program_of_reach h₀ h hp
      change (w.handler (.ph i) mem a).1[p]? = _ at hop
      rw [ph_program] at hop
      rcases acked_cases hop with ⟨c', hc', hop', hp'⟩ | ⟨-, ⟨-, hop'⟩ | ⟨-, hop'⟩⟩
      · rw [Op.issue.injEq] at hop'
        rw [hop', List.mem_singleton.mp hc', Nat.lt_one_iff.mp hp'] at hw
        obtain ⟨k, hk, rfl, rfl⟩ := (mem_transfer w i a y v).mp hw
        exact ⟨_, (w.msg.slice i k hk).1, rfl, rfl⟩
      · exact absurd hop' nofun
      · -- a packet that is sent writes nothing
        rw [Op.issue.injEq] at hop'
        rw [hop'] at hw
        exact absurd hw List.not_mem_nil
  | th =>
      right
      rw [th_ops h₀ h hp] at hop
      rw [(host_req_issue hop).2] at hw
      obtain ⟨k, hk, hy, hv⟩ := (mem_flag hf a s₀.mem _ y v).mp hw
      exact ⟨rfl, k, hk, hy, hv⟩

/-! ## No dead ends -/

/-- The tasks of a message. -/
def tasks (n : ℕ) : List (Task n) := Task.hh :: Task.th :: (List.finRange n).map Task.ph

theorem mem_tasks (t : Task n) : t ∈ tasks n := by
  cases t <;> simp [tasks]

/-- The order in which they run at the latest. -/
def rank : Task n → ℕ
  | .hh => 0
  | .ph _ => 1
  | .th => 2

/-- A task waits only for tasks of a smaller rank. -/
theorem ranked (w : Setup n) : w.config.Ranked (tasks n) rank where
  mem _ t _ := mem_tasks t
  ready := by
    intro t _ status _ hover
    cases t with
    | hh => trivial
    | ph i => exact hover .hh ⟨mem_tasks _, Nat.zero_lt_one⟩
    | th => exact fun i => hover (.ph i) ⟨mem_tasks _, Nat.one_lt_two⟩

/-- The flag of the completion handler is the only thing that is written where the host
looks for it. -/
theorem flag_only (hf : w.Fits) (h₀ : s₀.Initial) (h : Reach w.config s₀ s) :
    s.Only .th 0 (w.flag_addr 0 + BitVec.ofNat 64 0) := by
  intro a ops pc hr f hmem l1 v hw
  obtain ⟨log, hinv⟩ := inv_of_reach (length_bytes_lt w) h₀ (fun s hs => sys_sound h₀ hs) h
  obtain ⟨b, ops', pc', hfl⟩ := hinv.flying f hmem
  have hissued : Issued s.status f.owner b ops' f.slot f.call :=
    ⟨pc', by rw [hfl.running]; rfl, hfl.slot, hfl.op⟩
  obtain ⟨v', hw'⟩ := writes_any (seen b (w.config.packet f.owner) ops' f.slot) hw
  rcases issued_writes hf h₀ h hissued hw' with ⟨j, hj, hbuf, -⟩ | ⟨ho, -⟩
  · rw [BitVec.add_zero] at hbuf
    exact absurd hbuf (flag_ne_buffer hf (by decide) hj)
  · refine ⟨ho, ?_⟩
    have hp : (s.status .th).program = some (b, ops', pc') := by
      rw [← ho, hfl.running]
      rfl
    have hop := hfl.op
    rw [th_ops h₀ h hp] at hop
    exact (host_req_issue hop).1

/-- The flag that is polled is the one of the HPU's page. -/
theorem config_flag_addr (w : Setup n) (a : BitVec 32) :
    w.config.flag_addr (w.args .th a).hpu_gid = w.flag_addr 0 := by
  rw [Setup.flag_addr, Nat.add_zero]
  rfl

/-- The completion handler has written its flag, and the host finds it. -/
theorem flag_there (hf : w.Fits) (h₀ : s₀.Initial) (h : Reach w.config s₀ s)
    (hr : s.status .th = .running a (host_req (w.args .th a) (w.flag s₀.mem)) 2)
    (hflight : s.flight = []) : s.host (w.flag_addr 0) = (w.flag s₀.mem).dma_id := by
  have hdest : (Command.write_to_host (HOST_ADDR_HPU (w.args .th a)) (w.flag s₀.mem).data).dest =
      some (w.flag_addr 0) := by
    rw [← flag_dest hf a]
    rfl
  have hw := written_of_reach (length_bytes_lt w) h₀ (fun s hs => sys_sound h₀ hs) hdest
    (Nat.zero_lt_succ 7) (fun s hs => flag_only hf h₀ hs) h hr rfl Nat.zero_lt_two
  have hnot : ¬s.Pending .th 0 0 := fun ⟨f, hmem, _⟩ => by
    rw [hflight] at hmem
    exact absurd hmem List.not_mem_nil
  have hbyte := hw.resolve_right hnot
  rw [BitVec.add_zero] at hbyte
  rw [hbyte, Command.byte]
  exact flag_dma_id _

/-- Nothing waits for good, if no packet is empty. -/
theorem slmp_live (hf : w.Fits) (hne : ∀ i, 0 < (w.msg.packet i).payload.length) (h₀ : s₀.Initial) :
    w.config.Live s₀ where
  sound s h := sys_sound h₀ h
  nonempty s h t a ops pc hp p c hop := by
    -- what each handler issues has bytes: the payload, the header that is sent back, or the flag
    cases t with
    | hh =>
        obtain ⟨mem, rfl⟩ := program_of_reach h₀ h hp
        change (w.handler .hh mem a).1[p]? = _ at hop
        rw [hh_program] at hop
        exact absurd hop (by simp)
    | ph i =>
        obtain ⟨mem, rfl⟩ := program_of_reach h₀ h hp
        change (w.handler (.ph i) mem a).1[p]? = _ at hop
        rw [ph_program] at hop
        rcases acked_cases hop with ⟨c', hc', hop', -⟩ | ⟨-, ⟨-, hop'⟩ | ⟨-, hop'⟩⟩
        · rw [Op.issue.injEq] at hop'
          rw [hop', List.mem_singleton.mp hc']
          change 0 < (SLMP_PAYLOAD_LEN _).toNat
          rw [Packet.payload_len]
          exact hne i
        · exact absurd hop' nofun
        · rw [Op.issue.injEq] at hop'
          rw [hop']
          exact (by decide : 0 < (BitVec.ofNat 32 sizeof_slmp_pkt_hdr_t).toNat)
    | th =>
        rw [th_ops h₀ h hp] at hop
        rw [(host_req_issue hop).2]
        exact (by decide : 0 < 8)
  flag s h hflight t a ops pc hr gid dma_id hop := by
    have hp : (s.status t).program = some (a, ops, pc) := by
      rw [hr]
      rfl
    -- only the completion handler waits for the host
    cases t with
    | hh =>
        obtain ⟨mem, rfl⟩ := program_of_reach h₀ h hp
        change (w.handler .hh mem a).1[pc]? = _ at hop
        rw [hh_program] at hop
        exact absurd hop (by simp)
    | ph i =>
        obtain ⟨mem, rfl⟩ := program_of_reach h₀ h hp
        change (w.handler (.ph i) mem a).1[pc]? = _ at hop
        rw [ph_program] at hop
        rcases acked_cases hop with ⟨c', hc', hop', -⟩ | ⟨-, ⟨-, hop'⟩ | ⟨-, hop'⟩⟩ <;>
          exact absurd hop' nofun
    | th =>
        rw [th_ops h₀ h hp] at hop hr
        obtain ⟨rfl, rfl, rfl⟩ := host_req_poll hop
        rw [config_flag_addr]
        exact flag_there hf h₀ h hr hflight

/-- **From every state of a run the message can be received to its end**: every handler
returns, the completion handler once the host has answered. -/
theorem slmp_completes (hf : w.Fits) (hne : ∀ i, 0 < (w.msg.packet i).payload.length)
    (h₀ : s₀.Initial) (h : Reach w.config s₀ s) :
    ∃ s', Reach w.config s s' ∧ ∀ t, ∃ a ops, s'.status t = .done a ops := by
  obtain ⟨s', hr, hdone⟩ := completes (ranked w) (length_bytes_lt w) h₀ (slmp_live hf hne h₀) h
  exact ⟨s', hr, fun t => hdone t (mem_tasks t)⟩

/-! ### A message of three bytes in two packets -/

/-- The headers of a packet. -/
def demo_hdrs (flags len : BitVec 16) (pkt_off : BitVec 32) : slmp_pkt_hdr_t where
  eth_hdr := ⟨⟨fun _ => 0xaa⟩, ⟨fun _ => 0xbb⟩, 0x0008⟩
  ip_hdr := ⟨5, 4, 0, htons (28 + 10 + len), 0, 0, 64, 17, 0, 0x0a000001, 0x0a000002⟩
  udp_hdr := ⟨htons 9331, htons 9332, htons (18 + len), 0⟩
  slmp_hdr := ⟨htons flags, 7, htonl pkt_off⟩

/-- The first packet asks to be acknowledged, the last one ends the message. -/
def demo_packet (i : Fin 2) : Packet :=
  if i = 0 then ⟨demo_hdrs MKSYN 2 0, [0x11, 0x22], by decide⟩
  else ⟨demo_hdrs MKEOM 1 2, [0x33], by decide⟩

/-- A message of three bytes in two packets. -/
def demo : Setup 2 where
  msg :=
    { data := [0x11, 0x22, 0x33]
      packet := demo_packet
      head := 0
      tail := 1
      bound := by decide
      slice := by decide
      cover := by decide
      syn := by decide
      start := by decide
      eom := by decide
      finish := by decide }
  host_mem_high := 1
  host_mem_low := 0x20000000
  flow_id := 0
  hpu_gid := fun _ => 3
  hpu_id := fun _ => 3
  padding := 0

/-- Memories full of zeros. -/
def demo_start : Sys (Task 2) dma_idx_t where
  l1 := fun _ => 0
  host := fun _ => 0
  wire := []
  mem := fun _ => 0
  flag := fun _ => 0
  status := fun _ => .waiting
  flight := []

theorem demo_initial : demo_start.Initial := ⟨fun _ => rfl, rfl, rfl⟩

/-- The message fits its window, and the HPUs have their pages. -/
theorem demo_fits : demo.Fits := ⟨by decide, fun _ => (by decide : (3 : BitVec 32).toNat < CORE_COUNT)⟩

theorem demo_nonempty : ∀ i, 0 < (demo.msg.packet i).payload.length := by decide

theorem slmp_completes_demo : ∃ s', Reach demo.config demo_start s' ∧
    ∀ t, ∃ a ops, s'.status t = .done a ops :=
  slmp_completes demo_fits demo_nonempty demo_initial .refl

/-! ## What the host sees -/

/-- **The flag is there only once the message is, whatever the order in which the handlers
and their transfers went, and says how long the message is.** -/
theorem slmp_message (hf : w.Fits) (h₀ : s₀.Initial) (h : Reach w.config s₀ s) :
    (s.status .th = .waiting → ∀ y, (∀ k < w.msg.data.length, y ≠ w.buffer k) → s.host y = s₀.host y) ∧
    (s.status .th ≠ .waiting → ∀ k < w.msg.data.length, s.host (w.buffer k) = w.msg.data.getD k 0) ∧
    (∀ a ops, s.status .th = .done a ops →
      ∀ k < 8, s.host (w.flag_addr k) = (w.flag s₀.mem).data.extractLsb' (8 * k) 8) := by
  obtain ⟨log, hinv⟩ := inv_of_reach (length_bytes_lt w) h₀ (fun s hs => sys_sound h₀ hs) h
  refine ⟨fun hwait y hy => ?_, fun hstart k hk => ?_, fun a ops hdone k hk => ?_⟩
  · refine hinv.host_of_not_mem fun t a ops p c hi w' hw' hy' => ?_
    rcases issued_writes hf h₀ h hi hw' with ⟨k, hk, hbuf, -⟩ | ⟨rfl, -⟩
    · exact hy k hk (hy'.symm.trans hbuf)
    · obtain ⟨pc, hp, -⟩ := hi
      rw [hwait] at hp
      exact absurd hp nofun
  · -- the payload handler of a packet with byte `k` is over
    obtain ⟨a, ops, pc, hp⟩ := program_of_ne_waiting hstart
    have hready : ∀ i, ∃ a ops, s.status (.ph i) = .done a ops :=
      ready_of_reach h₀ (fun _ _ => id) (ready_mono w) h hp
    obtain ⟨i, hle, hlt⟩ := w.msg.cover k hk
    obtain ⟨b, ops', hdone⟩ := hready i
    obtain ⟨mem, hops'⟩ := program_of_reach h₀ h (by rw [hdone]; rfl)
    have hop : ops'[0]? = some (.issue (w.transfer i b)) := by
      rw [hops']
      rfl
    have hland := (hinv.of_done hdone hop).host (w.buffer k, w.msg.data.getD k 0)
      ((mem_transfer w i b _ _).mpr ⟨k - (w.msg.packet i).off, by omega, by
        rw [Nat.add_sub_cancel' hle], by rw [Nat.add_sub_cancel' hle]⟩)
    refine hinv.host_of_mem hland fun t a ops p c hi w' hw' hy' => ?_
    rcases issued_writes hf h₀ h hi hw' with ⟨j, hj, hbuf, hv⟩ | ⟨-, j, hj, hflag, -⟩
    · rw [hv, buffer_inj hj hk (hbuf.symm.trans hy')]
    · exact absurd (hflag.symm.trans hy') (flag_ne_buffer hf hj hk)
  · have hops := th_ops h₀ h (a := a) (by rw [hdone]; rfl)
    have hop : ops[0]? = some (.issue (.write_to_host (HOST_ADDR_HPU (w.args .th a))
        (w.flag s₀.mem).data)) := by
      rw [hops]
      rfl
    have hland := (hinv.of_done hdone hop).host (w.flag_addr k, _)
      ((mem_flag hf a s₀.mem _ _ _).mpr ⟨k, hk, rfl, rfl⟩)
    refine hinv.host_of_mem hland fun t a' ops' p c hi w' hw' hy' => ?_
    rcases issued_writes hf h₀ h hi hw' with ⟨j, hj, hbuf, -⟩ | ⟨-, j, hj, hflag, hv⟩
    · exact absurd (hy'.symm.trans hbuf) (flag_ne_buffer hf hk hj)
    · rw [hv, flag_inj hf hj hk (hflag.symm.trans hy')]

theorem slmp_message_demo : ∃ s, Reach demo.config demo_start s ∧
    (∀ k < 3, s.host (demo.buffer k) = [0x11, 0x22, 0x33].getD k 0) ∧
    ∀ k < 8, s.host (demo.flag_addr k) = (0x0000030000000301 : BitVec 64).extractLsb' (8 * k) 8 := by
  obtain ⟨s, hr, hdone⟩ := completes (ranked demo) (length_bytes_lt demo) demo_initial
    (slmp_live demo_fits demo_nonempty demo_initial) (s := demo_start) .refl
  obtain ⟨-, hbuffer, hflag⟩ := slmp_message demo_fits demo_initial hr
  obtain ⟨a, ops, hth⟩ := hdone .th (mem_tasks _)
  refine ⟨s, hr, hbuffer (by rw [hth]; exact nofun), ?_⟩
  have hdata : (demo.flag demo_start.mem).data = 0x0000030000000301 := by decide
  rw [← hdata]
  exact hflag a ops hth

/-! ## Acknowledgements -/

/-- The acknowledgement of packet `i`. -/
def Setup.ack (w : Setup n) (i : Fin n) : List Byte :=
  hdr_bytes (prepare_hdrs_ack (w.msg.packet i).hdrs MKACK)

/-- The header has been rewritten when the packet is sent. -/
theorem ack_seen (w : Setup n) (i : Fin n) (a : BitVec 32) (mem : dma_idx_t)
    (hsyn : SYN (w.msg.packet i).flags = true) :
    (Command.send_packet a (BitVec.ofNat 32 sizeof_slmp_pkt_hdr_t)).bytes
      (seen a (w.msg.packet i).bytes (w.handler (.ph i) mem a).1 2) = w.ack i := by
  have hcontent : content (w.msg.packet i).bytes ((w.handler (.ph i) mem a).1.take 2) =
      patch (w.msg.packet i).bytes 0 (w.ack i) := by
    rw [ph_program, hsyn]
    rfl
  have hack : (w.ack i).length = 52 := hdr_bytes_length _
  have hin : 0 + (w.ack i).length ≤ (w.msg.packet i).bytes.length := by
    rw [hack, Packet.length_bytes]
    omega
  refine List.ext_getElem (by rw [hack]; rfl) fun k _ hk => ?_
  rw [hack] at hk
  simp only [Command.bytes, List.getElem_map, List.getElem_range, Command.byte]
  rw [seen, hcontent, view, add_offset_sub a (by omega), patch_getD hin, if_pos (by omega), Nat.sub_zero,
    List.getD_eq_getElem _ _ (by omega)]

/-- Only payload handlers send, and only the acknowledgement. -/
theorem issued_send (h₀ : s₀.Initial) (h : Reach w.config s₀ s) {t : Task n} {data length : BitVec 32}
    (hi : Issued s.status t a ops p (.send_packet data length)) :
    ∃ i, t = .ph i ∧ SYN (w.msg.packet i).flags = true ∧ p = 2 ∧
      (Command.send_packet data length).bytes (seen a (w.config.packet t) ops p) = w.ack i := by
  obtain ⟨pc, hp, -, hop⟩ := hi
  obtain ⟨mem, rfl⟩ := program_of_reach h₀ h hp
  cases t with
  | hh =>
      change (w.handler .hh mem a).1[p]? = _ at hop
      rw [hh_program] at hop
      exact absurd hop (by simp)
  | ph i =>
      change (w.handler (.ph i) mem a).1[p]? = _ at hop
      rw [ph_program] at hop
      -- of what a payload handler does, only its last step sends a packet
      rcases acked_cases hop with ⟨c', hc', hop', -⟩ | ⟨hsyn, ⟨-, hop'⟩ | ⟨hp', hop'⟩⟩
      · rw [Op.issue.injEq, List.mem_singleton.mp hc'] at hop'
        exact absurd hop' nofun
      · exact absurd hop' nofun
      · rw [Op.issue.injEq] at hop'
        refine ⟨i, rfl, hsyn, hp', ?_⟩
        rw [hop', hp']
        exact ack_seen w i a mem hsyn
  | th =>
      change (w.handler .th mem a).1[p]? = _ at hop
      rw [th_program] at hop
      exact absurd (host_req_issue hop).2 nofun

/-- A list with one element and no other one. -/
theorem eq_singleton {α : Type} {l : List α} {x : α} (hl : l.Nodup) (hx : x ∈ l) (h : ∀ y ∈ l, y = x) :
    l = [x] := by
  match l with
  | [] => exact absurd hx List.not_mem_nil
  | [y] => rw [h y List.mem_cons_self]
  | y :: z :: l =>
      have hy := h y List.mem_cons_self
      have hz := h z (List.mem_cons_of_mem _ List.mem_cons_self)
      rw [hy, hz] at hl
      exact absurd List.mem_cons_self (List.nodup_cons.mp hl).1

/-- **Each packet that asks for it is acknowledged exactly once, and no other.** -/
theorem slmp_acks (h₀ : s₀.Initial) (h : Reach w.config s₀ s) :
    (∀ e ∈ s.wire, ∃ i, e.1 = .ph i ∧ SYN (w.msg.packet i).flags = true ∧ e.2.2 = w.ack i) ∧
    ∀ i, (s.wire.filter fun e => e.1 = .ph i).length ≤ 1 ∧
      ∀ a ops, s.status (.ph i) = .done a ops →
        (s.wire.filter fun e => e.1 = .ph i).map (fun e => e.2.2) =
          if SYN (w.msg.packet i).flags then [w.ack i] else [] := by
  obtain ⟨log, hinv⟩ := inv_of_reach (length_bytes_lt w) h₀ (fun s hs => sys_sound h₀ hs) h
  -- every packet on the wire was sent by that step of a payload handler
  have hwire : ∀ e ∈ s.wire, ∃ i, e = (.ph i, 2, w.ack i) ∧ SYN (w.msg.packet i).flags = true := by
    intro e he
    obtain ⟨a, ops, data, length, hi, hout⟩ := hinv.wired e he
    obtain ⟨i, ht, hsyn, hp, hack⟩ := issued_send h₀ h hi
    exact ⟨i, Prod.ext ht (Prod.ext hp (hout.trans hack)), hsyn⟩
  -- no step has two packets there
  have hnodup : s.wire.Nodup := (List.nodup_append.mp hinv.once).2.1.of_map
  have hsame : ∀ i, ∀ e ∈ s.wire.filter (fun e => e.1 = .ph i), e = (.ph i, 2, w.ack i) := by
    intro i e he
    obtain ⟨he, hi⟩ := List.mem_filter.mp he
    obtain ⟨j, rfl, -⟩ := hwire e he
    have hij : j = i := by simpa using hi
    rw [hij]
  refine ⟨fun e he => ?_, fun i => ⟨?_, fun a ops hdone => ?_⟩⟩
  · obtain ⟨i, rfl, hsyn⟩ := hwire e he
    exact ⟨i, rfl, hsyn, rfl⟩
  · rcases List.eq_nil_or_concat (s.wire.filter fun e => e.1 = .ph i) with hnil | ⟨l, e, hl⟩
    · rw [hnil]
      exact Nat.zero_le _
    · rw [eq_singleton (hnodup.filter _) (x := e) (by rw [hl]; simp) fun y hy =>
        (hsame i y hy).trans (hsame i e (by rw [hl]; simp)).symm]
      exact le_rfl
  · split_ifs with hsyn
    · -- a handler that is done has sent its packet, and the one on the wire is it
      obtain ⟨mem, hops⟩ := program_of_reach h₀ h (by rw [hdone]; rfl)
      have hop : ops[2]? = some (.issue (.send_packet a (BitVec.ofNat 32 sizeof_slmp_pkt_hdr_t))) := by
        rw [hops]
        change (w.handler (.ph i) mem a).1[2]? = _
        rw [ph_program, hsyn]
        rfl
      have hland := (hinv.of_done hdone hop).wire _ _ rfl
      rw [hops] at hland
      have hmem : (.ph i, 2, w.ack i) ∈ s.wire.filter fun e => e.1 = .ph i := by
        refine List.mem_filter.mpr ⟨?_, by simp⟩
        rw [← ack_seen w i a mem hsyn]
        exact hland
      rw [eq_singleton (hnodup.filter _) hmem (hsame i)]
      rfl
    · -- without SYN there is no such step
      have hnil : s.wire.filter (fun e => e.1 = .ph i) = [] := by
        refine List.eq_nil_iff_forall_not_mem.mpr fun e he => ?_
        obtain ⟨he', hi⟩ := List.mem_filter.mp he
        obtain ⟨j, rfl, hsyn'⟩ := hwire e he'
        have hij : j = i := by simpa using hi
        exact hsyn (hij ▸ hsyn')
      rw [hnil]
      rfl

theorem slmp_acks_demo : ∃ s, Reach demo.config demo_start s ∧
    (s.wire.filter fun e => e.1 = .ph 0).map (fun e => e.2.2) = [demo.ack 0] ∧
    s.wire.filter (fun e => e.1 = .ph 1) = [] := by
  obtain ⟨s, hr, hdone⟩ := completes (ranked demo) (length_bytes_lt demo) demo_initial
    (slmp_live demo_fits demo_nonempty demo_initial) (s := demo_start) .refl
  obtain ⟨-, hacks⟩ := slmp_acks demo_initial hr
  obtain ⟨a, ops, h0⟩ := hdone (.ph 0) (mem_tasks _)
  obtain ⟨b, ops', h1⟩ := hdone (.ph 1) (mem_tasks _)
  exact ⟨s, hr, (hacks 0).2 a ops h0, List.map_eq_nil_iff.mp ((hacks 1).2 b ops' h1)⟩

end Pspin.Slmp
