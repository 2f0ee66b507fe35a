/-
The packetizer of `NICOutbound` on its own: any commands, in any order of calls.

`Sys` makes the calls of a list one after the other and records the commands that came in,
numbered in order, and the packets with the numbers of their commands. A call that fails an
assertion has no next state.

A command with a flow is cut as long as its packets have room behind the header. One without
is a single packet, which may be empty. `Packetized` says what the packets of one command are,
however its turns fall between those of the others.
-/
import Pspin.NicCuts

set_option autoImplicit false

namespace Pspin.NicOutbound.Packetizer

open Turns (Ledger Pieces piecesOf)

inductive Call
  | new_cmd (cmd : NICCommand)
  | get_next_packet

/-- The command of a call. -/
def Call.cmd : Call → Option NICCommand
  | .new_cmd cmd => some cmd
  | .get_next_packet => none

structure Sys where
  commands : List NICCommand
  /-- The numbers of the commands in the queue. -/
  owners : List ℕ
  accepted : List NICCommand
  issued : List (ℕ × NetworkPacket)

/-! ## Calls -/

namespace Sys

def reset : Sys := ⟨[], [], [], []⟩

/-- A call. The first command was put back if there are as many as before. -/
def step (max_packet_len : BitVec 32) (s : Sys) : Call → Option Sys
  | .new_cmd cmd => (new_cmd s.commands cmd).map fun commands =>
    { s with
      commands := commands
      owners := s.owners ++ [s.accepted.length]
      accepted := s.accepted ++ [cmd] }
  | .get_next_packet => (get_next_packet max_packet_len s.commands).map fun (pkt, commands) =>
    { s with
      commands := commands
      owners := s.owners.tail ++
        if commands.length = s.commands.length then s.owners.take 1 else []
      issued := s.issued ++ [(s.owners.headD 0, pkt)] }

def run (max_packet_len : BitVec 32) (s : Sys) (calls : List Call) : Option Sys :=
  calls.foldlM (step max_packet_len) s

end Sys

/-- The commands the packetizer is for: with a flow, bytes to send and packets that hold more
than the header; without, no more than a packet holds. -/
def Queueable (max_packet_len : BitVec 32) (cmd : NICCommand) : Prop :=
  (0 < cmd.fid ∧ 0 < cmd.length ∧ RDMA_HEADER_LENGTH < max_packet_len)
    ∨ (cmd.fid = 0 ∧ cmd.length ≤ max_packet_len)

instance (max_packet_len : BitVec 32) (cmd : NICCommand) :
    Decidable (Queueable max_packet_len cmd) := instDecidableOr

/-! ## The packets of a command -/

/-- The addresses from `addr` on. -/
def addresses (addr : BitVec 64) (n : ℕ) : List (BitVec 64) :=
  (List.range n).map fun k => addr + BitVec.ofNat 64 k

/-- The addresses of the payload of a packet. -/
def segment (pkt : NetworkPacket) : List (BitVec 64) :=
  addresses pkt.source_addr pkt.payload_length.toNat

/-- What the packets of a command are, `queued` while bytes of it are in the packetizer. -/
structure Packetized (max_packet_len : BitVec 32) (cmd : NICCommand) (pkts : List NetworkPacket)
    (queued : Prop) : Prop where
  /-- The payloads follow each other from the source address on. -/
  consecutive : pkts.flatMap segment <+: addresses cmd.source_addr cmd.length.toNat
  /-- Only a command without bytes has a packet without. -/
  payload : 0 < cmd.length → ∀ pkt ∈ pkts, 0 < pkt.payload_length
  fits : ∀ pkt ∈ pkts, pkt.length.toNat = (header_length cmd).toNat + pkt.payload_length.toNat
    ∧ pkt.length ≤ max_packet_len
  cmd_id : ∀ pkt ∈ pkts, pkt.cmd_id = cmd.cmd_id
  waiting : queued → ∀ pkt ∈ pkts, pkt.is_last = false
  whole : ¬queued → pkts.flatMap segment = addresses cmd.source_addr cmd.length.toNat
    ∧ ∃ init last, pkts = init ++ [last] ∧ last.is_last = true
      ∧ ∀ pkt ∈ init, pkt.is_last = false

/-! ## Cutting a packet off a command -/

theorem addresses_add (addr : BitVec 64) (m n : ℕ) :
    addresses addr (m + n) = addresses addr m ++ addresses (addr + BitVec.ofNat 64 m) n := by
  have hshift : ∀ k,
      addr + BitVec.ofNat 64 (m + k) = addr + BitVec.ofNat 64 m + BitVec.ofNat 64 k := by
    intro k
    rw [BitVec.ofNat_add, BitVec.add_assoc]
  simp [addresses, List.range_add, hshift]

section Cut

variable {max_packet_len : BitVec 32} {cmd cmd' : NICCommand}

theorem header_length_flow (h : 0 < cmd.fid) : header_length cmd = 32 := if_pos h

theorem header_length_single (h : cmd.fid = 0) : header_length cmd = 0 := by
  simp [header_length, h]

/-- A command without a flow is a single packet. -/
theorem payloadlen_single (hfid : cmd.fid = 0) (hfits : cmd.length ≤ max_packet_len) :
    payloadlen max_packet_len cmd = cmd.length := by
  unfold payloadlen
  rw [header_length_single hfid]
  simp only
  split_ifs with hroom
  · rfl
  · bv_omega

theorem Queueable.payload_pos (h : Queueable max_packet_len cmd) (hlen : 0 < cmd.length) :
    0 < payloadlen max_packet_len cmd := by
  rcases h with ⟨hfid, -, hmax⟩ | ⟨hfid, hfits⟩
  · unfold RDMA_HEADER_LENGTH at hmax
    unfold payloadlen
    rw [header_length_flow hfid]
    simp only
    split_ifs with hroom
    · exact hlen
    · bv_omega
  · rw [payloadlen_single hfid hfits]
    exact hlen

/-- Header and payload share a packet. -/
theorem Queueable.fits (h : Queueable max_packet_len cmd) :
    (header_length cmd).toNat + (payloadlen max_packet_len cmd).toNat ≤ max_packet_len.toNat := by
  rcases h with ⟨hfid, -, hmax⟩ | ⟨hfid, hfits⟩
  · unfold RDMA_HEADER_LENGTH at hmax
    unfold payloadlen
    rw [header_length_flow hfid]
    simp only
    split_ifs with hroom
    · bv_omega
    · bv_omega
  · rw [payloadlen_single hfid hfits, header_length_single hfid]
    bv_omega

theorem Queueable.asserts (h : Queueable max_packet_len cmd) :
    0 < cmd.fid ∨ cmd.length ≤ max_packet_len := by
  rcases h with ⟨hfid, -, -⟩ | ⟨-, hfits⟩
  · exact Or.inl hfid
  · exact Or.inr hfits

theorem Queueable.left_of (h : Queueable max_packet_len cmd)
    (hleft : cmd' ∈ left_of max_packet_len cmd) : Queueable max_packet_len cmd' := by
  obtain ⟨rfl, hpos⟩ := mem_left_of hleft
  rcases h with ⟨hfid, -, hmax⟩ | ⟨hfid, hfits⟩
  · exact Or.inl ⟨hfid, hpos, hmax⟩
  · -- nothing is left of a single packet
    have hlen := rest_of_length max_packet_len cmd
    rw [payloadlen_single hfid hfits, Nat.sub_self] at hlen
    exact absurd hlen hpos.ne'

/-- A command gets shorter with each packet. -/
theorem Queueable.left_of_lt (h : Queueable max_packet_len cmd) :
    ∀ cmd' ∈ NicOutbound.left_of max_packet_len cmd, cmd'.length.toNat < cmd.length.toNat := by
  intro cmd' hleft
  obtain ⟨rfl, hpos⟩ := mem_left_of hleft
  have hlen := rest_of_length max_packet_len cmd
  have hrest : 0 < (rest_of max_packet_len cmd).length.toNat := hpos
  have hpayload : 0 < (payloadlen max_packet_len cmd).toNat := h.payload_pos (by bv_omega)
  omega

/-! ## All packets of a command -/

section Packets

variable {pkts : List NetworkPacket} {left : Option NICCommand}

/-- The payloads follow each other, and the rest of the command follows them. -/
theorem segments_eq (h : Pieces (first_packet max_packet_len) (NicOutbound.left_of max_packet_len)
      cmd pkts left) :
    pkts.flatMap segment = addresses cmd.source_addr (pkts.map (·.payload_length.toNat)).sum
      ∧ ∀ cmd' ∈ left, cmd'.source_addr
        = cmd.source_addr + BitVec.ofNat 64 (pkts.map (·.payload_length.toNat)).sum := by
  induction h with
  | start =>
    refine ⟨rfl, fun cmd' hcmd' => ?_⟩
    obtain rfl := Option.mem_some_iff.mp hcmd'
    simp
  | cut h ih =>
    rename_i pkts cmd'
    obtain ⟨hsegments, hleft⟩ := ih
    have haddr := hleft cmd' rfl
    have hpkt : segment (first_packet max_packet_len cmd')
        = addresses cmd'.source_addr (payloadlen max_packet_len cmd').toNat := rfl
    have hpayload : (first_packet max_packet_len cmd').payload_length
      = payloadlen max_packet_len cmd' := rfl
    constructor
    · rw [List.flatMap_append, List.flatMap_singleton, hsegments, hpkt, haddr, List.map_append,
        List.sum_append, List.map_singleton, List.sum_singleton, hpayload, addresses_add]
    · intro cmd'' hcmd''
      obtain ⟨rfl, -⟩ := mem_left_of hcmd''
      -- the source address moves on by the payload
      have hrest : (rest_of max_packet_len cmd').source_addr
        = cmd'.source_addr + (payloadlen max_packet_len cmd').setWidth 64 := rfl
      rw [hrest, haddr, ← BitVec.ofNat_toNat, BitVec.add_assoc, ← BitVec.ofNat_add,
        List.map_append, List.sum_append, List.map_singleton, List.sum_singleton, hpayload]

/-- Every packet has its place in the limit, the id, and a payload if there is any. -/
theorem packet_spec (h : Pieces (first_packet max_packet_len) (NicOutbound.left_of max_packet_len)
      cmd pkts left) (hcmd : Queueable max_packet_len cmd) :
    ∀ pkt ∈ pkts, (0 < cmd.length → 0 < pkt.payload_length)
      ∧ (pkt.length.toNat = (header_length cmd).toNat + pkt.payload_length.toNat
        ∧ pkt.length ≤ max_packet_len)
      ∧ pkt.cmd_id = cmd.cmd_id := by
  -- what holds of the command holds of what is left of it, and so of each packet
  refine (h.forall_mem (P := fun cmd' => Queueable max_packet_len cmd' ∧ cmd'.fid = cmd.fid
    ∧ cmd'.cmd_id = cmd.cmd_id ∧ (0 < cmd.length → 0 < cmd'.length))
    ⟨hcmd, rfl, rfl, id⟩ ?_ ?_).2
  · rintro cmd' ⟨hcmd', hfid, hid, -⟩ cmd'' hleft
    obtain ⟨rfl, hpos⟩ := mem_left_of hleft
    exact ⟨hcmd'.left_of hleft, hfid, hid, fun _ => hpos⟩
  · rintro cmd' ⟨hcmd', hfid, hid, hlen⟩
    have hheader : header_length cmd' = header_length cmd := by
      unfold header_length
      rw [hfid]
    have hfits := hcmd'.fits
    -- the length of a packet does not wrap, since it fits `max_packet_len`
    have hlength : (first_packet max_packet_len cmd').length.toNat
        = (header_length cmd').toNat + (payloadlen max_packet_len cmd').toNat := by
      refine (BitVec.toNat_add _ _).trans (Nat.mod_eq_of_lt ?_)
      exact lt_of_le_of_lt hfits max_packet_len.isLt
    refine ⟨fun hpos => hcmd'.payload_pos (hlen hpos), ⟨?_, ?_⟩, hid⟩
    · rw [hlength, hheader]
      rfl
    · rw [BitVec.le_def, hlength]
      exact hfits

theorem no_mark (h : pkts.countP (·.is_last) = 0) : ∀ pkt ∈ pkts, pkt.is_last = false := by
  intro pkt hpkt
  exact Bool.eq_false_of_not_eq_true (List.countP_eq_zero.mp h pkt hpkt)

/-- The commands that came in, those in the queue, and the packets. -/
abbrev Inv (max_packet_len : BitVec 32) (s : Sys) : Prop :=
  Ledger (first_packet max_packet_len) (NicOutbound.left_of max_packet_len)
    (Queueable max_packet_len) s.accepted s.owners s.commands s.issued

/-- **The packets of an accepted command.** -/
theorem Inv.packets_of {s : Sys} {c : ℕ} (h : Inv max_packet_len s)
    (hc : s.accepted[c]? = some cmd) :
    Packetized max_packet_len cmd (piecesOf s.issued c) (c ∈ s.owners) := by
  have hcmd : Queueable max_packet_len cmd := h.accepted_all cmd (List.mem_of_getElem? hc)
  obtain ⟨hlt, -⟩ := List.getElem?_eq_some_iff.mp hc
  have hmarked : (c ∈ s.owners → (piecesOf s.issued c).countP (·.is_last) = 0)
      ∧ (c ∉ s.owners → ∃ init last, piecesOf s.issued c = init ++ [last]
        ∧ last.is_last = true ∧ init.countP (·.is_last) = 0) := by
    rw [← h.queued]
    exact h.served.marked h.accepted_all (fun _ hq _ hleft => hq.left_of hleft)
      (fun _ _ => first_packet_last _ _) hlt
  obtain ⟨hwaiting, hdone⟩ := hmarked
  obtain ⟨left, hpieces⟩ := h.served.pieces hc
  obtain ⟨hsegments, -⟩ := segments_eq hpieces
  have hsum := packets_sum hpieces
  have hspec := packet_spec hpieces hcmd
  refine ⟨?_, fun hlen pkt hpkt => (hspec pkt hpkt).1 hlen, fun pkt hpkt => (hspec pkt hpkt).2.1,
    fun pkt hpkt => (hspec pkt hpkt).2.2, fun hq => no_mark (hwaiting hq), fun hq => ?_⟩
  · rw [hsegments, ← hsum, addresses_add]
    exact List.prefix_append _ _
  · -- the command is cut up, so nothing is left of it
    have hcut := h.served.done c cmd hc (by rwa [h.queued])
    have hall := packets_sum hcut
    rw [Option.elim_none, Nat.add_zero] at hall
    obtain ⟨init, last, heq, hlast, hinit⟩ := hdone hq
    refine ⟨?_, init, last, heq, hlast, no_mark hinit⟩
    rw [hsegments, hall]

end Packets

end Cut

/-! ## Runs -/

section Runs

variable {max_packet_len : BitVec 32} {s s' : Sys}

/-- A packet comes from any queue that is not empty. -/
theorem Inv.get_next_packet (h : Inv max_packet_len s) (hne : s.commands ≠ []) :
    ∃ s', s.step max_packet_len .get_next_packet = some s' ∧ Inv max_packet_len s'
      ∧ Turns.work (·.length.toNat) s'.commands < Turns.work (·.length.toNat) s.commands := by
  obtain ⟨cmd, commands, hcommands⟩ := List.exists_cons_of_ne_nil hne
  have howners : s.owners ≠ [] := by
    rw [← List.length_pos_iff, h.length, hcommands]
    exact Nat.succ_pos _
  obtain ⟨c, owners, howners⟩ := List.exists_cons_of_ne_nil howners
  have hcmd : Queueable max_packet_len cmd :=
    h.queue_all cmd (by rw [hcommands]; exact List.mem_cons_self)
  have hinv := h
  unfold Inv at hinv
  rw [hcommands, howners] at hinv
  have hstep : s.step max_packet_len .get_next_packet = some
      { s with
        commands := commands ++ (left_of max_packet_len cmd).toList
        owners := owners ++ ((left_of max_packet_len cmd).map fun _ => c).toList
        issued := s.issued ++ [(c, first_packet max_packet_len cmd)] } := by
    rw [Sys.step, hcommands, howners, get_next_packet_eq hcmd.asserts, ← put_back]
    rfl
  refine ⟨_, hstep, hinv.serve fun _ hq _ hleft => hq.left_of hleft, ?_⟩
  rw [hcommands]
  exact Turns.work_serve hcmd.left_of_lt commands

theorem Inv.step {call : Call} (h : Inv max_packet_len s)
    (hcall : ∀ cmd, call = .new_cmd cmd → Queueable max_packet_len cmd)
    (hstep : s.step max_packet_len call = some s') : Inv max_packet_len s' := by
  cases call with
  | new_cmd cmd =>
    obtain ⟨commands, hnew, rfl⟩ := Option.map_eq_some_iff.mp hstep
    unfold new_cmd at hnew
    split_ifs at hnew
    obtain rfl := Option.some.inj hnew
    exact h.accept (hcall cmd rfl)
  | get_next_packet =>
    have hne : s.commands ≠ [] := by
      intro hnil
      rw [Sys.step, hnil] at hstep
      exact absurd hstep (by simp [NicOutbound.get_next_packet])
    obtain ⟨s₁, hstep₁, hinv, -⟩ := h.get_next_packet hne
    rw [hstep₁] at hstep
    exact Option.some.inj hstep ▸ hinv

theorem Inv.run {calls : List Call} (h : Inv max_packet_len s)
    (hcalls : ∀ cmd, Call.new_cmd cmd ∈ calls → Queueable max_packet_len cmd)
    (hrun : s.run max_packet_len calls = some s') : Inv max_packet_len s' := by
  induction calls generalizing s with
  | nil => exact Option.some.inj hrun ▸ h
  | cons call calls ih =>
    unfold Sys.run at hrun
    rw [List.foldlM_cons] at hrun
    obtain ⟨s₁, hstep, hrest⟩ := Option.bind_eq_some_iff.mp hrun
    have h₁ := h.step (fun cmd hcmd => hcalls cmd (hcmd ▸ List.mem_cons_self)) hstep
    exact ih h₁ (fun cmd hcmd => hcalls cmd (List.mem_cons_of_mem _ hcmd)) hrest

/-- Packets alone empty the queue. -/
theorem Inv.drains {s : Sys} (h : Inv max_packet_len s) :
    ∃ n s', s.run max_packet_len (List.replicate n .get_next_packet) = some s'
      ∧ s'.commands = [] ∧ s'.owners = [] := by
  by_cases hne : s.commands = []
  · refine ⟨0, s, rfl, hne, ?_⟩
    rw [← List.length_eq_zero_iff, h.length, hne]
    rfl
  · obtain ⟨s₁, hstep, h₁, hlt⟩ := h.get_next_packet hne
    obtain ⟨n, s', hrun, hempty⟩ := h₁.drains
    refine ⟨n + 1, s', ?_, hempty⟩
    rw [List.replicate_succ, Sys.run, List.foldlM_cons, hstep]
    exact hrun
termination_by Turns.work (·.length.toNat) s.commands

/-- The commands of the calls are accepted in order. -/
theorem accepted_run {calls : List Call} (hrun : s.run max_packet_len calls = some s') :
    s'.accepted = s.accepted ++ calls.filterMap Call.cmd := by
  induction calls generalizing s with
  | nil =>
    obtain rfl := Option.some.inj hrun
    simp
  | cons call calls ih =>
    unfold Sys.run at hrun
    rw [List.foldlM_cons] at hrun
    obtain ⟨s₁, hstep, hrest⟩ := Option.bind_eq_some_iff.mp hrun
    rw [ih hrest]
    cases call with
    | new_cmd cmd =>
      obtain ⟨commands, -, rfl⟩ := Option.map_eq_some_iff.mp hstep
      simp [Call.cmd]
    | get_next_packet =>
      obtain ⟨⟨pkt, commands⟩, -, rfl⟩ := Option.map_eq_some_iff.mp hstep
      simp [Call.cmd, List.filterMap_cons]

/-- **The packetizer.** After any calls, the packets of every command are consecutive pieces of
it, in order and within the limit, and the last one is marked; every queue that is not empty
has a next packet; and without new commands the queue runs empty. -/
theorem packetized {calls : List Call}
    (hcalls : ∀ cmd, Call.new_cmd cmd ∈ calls → Queueable max_packet_len cmd)
    (hrun : Sys.reset.run max_packet_len calls = some s) :
    s.accepted = calls.filterMap Call.cmd
      ∧ (∀ c cmd, s.accepted[c]? = some cmd →
        Packetized max_packet_len cmd (piecesOf s.issued c) (c ∈ s.owners))
      ∧ (s.commands ≠ [] → ∃ s', s.step max_packet_len .get_next_packet = some s')
      ∧ ∃ n s', s.run max_packet_len (List.replicate n .get_next_packet) = some s'
        ∧ s'.commands = [] ∧ s'.owners = [] := by
  have hreset : Inv max_packet_len Sys.reset := Ledger.empty
  have hinv := hreset.run hcalls hrun
  refine ⟨accepted_run hrun, fun c cmd hc => hinv.packets_of hc, fun hne => ?_, hinv.drains⟩
  obtain ⟨s', hstep, -⟩ := hinv.get_next_packet hne
  exact ⟨s', hstep⟩

end Runs

/-! Packets of 64 bytes: 80 bytes with a flow, in turns with an empty single packet and with 32
bytes that fill one packet behind the header. -/

def demo_calls : List Call :=
  [.new_cmd ⟨0x1000, 80, 0, 1, 5⟩, .new_cmd ⟨0x2000, 0, 0, 0, 6⟩, .get_next_packet,
    .new_cmd ⟨0x3000, 32, 0, 1, 7⟩, .get_next_packet, .get_next_packet, .get_next_packet]

theorem packetized_demo : ∃ s, Sys.reset.run 64 demo_calls = some s
    ∧ s.accepted = demo_calls.filterMap Call.cmd
    ∧ (∀ c cmd, s.accepted[c]? = some cmd →
      Packetized 64 cmd (piecesOf s.issued c) (c ∈ s.owners))
    ∧ (s.commands ≠ [] → ∃ s', s.step 64 .get_next_packet = some s')
    ∧ ∃ n s', s.run 64 (List.replicate n .get_next_packet) = some s'
      ∧ s'.commands = [] ∧ s'.owners = [] := by
  have hcalls : ∀ cmd, Call.new_cmd cmd ∈ demo_calls → Queueable 64 cmd := by
    intro cmd hcmd
    simp only [demo_calls, List.mem_cons, Call.new_cmd.injEq, reduceCtorEq, List.not_mem_nil,
      or_false, false_or] at hcmd
    rcases hcmd with rfl | rfl | rfl <;> decide
  exact ⟨_, rfl, packetized hcalls rfl⟩

example : (Sys.reset.run 64 demo_calls).map (fun s => s.issued.map fun q =>
    (q.1, q.2.source_addr, q.2.length, q.2.is_last))
    = some [(0, 0x1000, 64, false), (1, 0x2000, 0, true), (0, 0x1020, 64, false),
      (2, 0x3000, 64, true)] := by
  decide

end Pspin.NicOutbound.Packetizer
