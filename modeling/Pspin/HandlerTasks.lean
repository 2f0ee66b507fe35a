/-
Handlers and the commands that they leave in flight.

A task runs a handler on a copy of a packet in L1. The handler stores into that copy and
issues commands, and goes on without waiting for them. A command reads the packet and
writes host memory byte by byte, while other commands do the same and other handlers run.

Two things keep this in order. A task is over only once its commands are, and its packet
memory goes to another task only then. `Inv` says what follows: every byte that reaches
host memory, or the network, is one of those that the handler had asked for when it issued
the command.

A handler may also wait: for a command of its own, or for the host. The host finds a flag
in its memory and answers it in `__host_data.flag`, which the handler reads until the answer
is the one it waits for. The program of the host is a step of the system like any other.
-/
import Mathlib.Data.BitVec
import Mathlib.Data.List.Nodup
import Mathlib.Logic.Relation
import Pspin.MemWrites

set_option autoImplicit false

open Function (update)

namespace Pspin.Handlers

/-- What memories hold. -/
abbrev Byte := BitVec 8

/-- The L1 memory that packets are copied to. -/
abbrev L1 := BitVec 32 → Byte

/-- The memory of the host. -/
abbrev Host := BitVec 64 → Byte

/-! ## Commands -/

/-- What `spin_dma_to_host`, `spin_send_packet` and `spin_write_to_host` ask for. -/
inductive Command
  | dma_to_host (host_addr : BitVec 64) (nic_addr length : BitVec 32)
  | send_packet (data length : BitVec 32)
  | write_to_host (host_addr user_data : BitVec 64)
  deriving DecidableEq

namespace Command

/-- The bytes that it moves. -/
def size : Command → ℕ
  | dma_to_host _ _ length => length.toNat
  | send_packet _ length => length.toNat
  | write_to_host _ _ => 8

/-- Where it reads. -/
def source : Command → Option (BitVec 32)
  | dma_to_host _ nic_addr _ => some nic_addr
  | send_packet data _ => some data
  | write_to_host _ _ => none

/-- Where in host memory it writes. `host_direct` has the bytes in the low lanes of the
line of 64 bytes. -/
def dest : Command → Option (BitVec 64)
  | dma_to_host host_addr _ _ => some host_addr
  | send_packet _ _ => none
  | write_to_host host_addr _ => some (BitVec.ofNat 64 (host_addr.toNat / 64 * 64))

/-- Byte `k`, with `l1` in packet memory. -/
def byte (l1 : L1) : Command → ℕ → Byte
  | dma_to_host _ nic_addr _, k => l1 (nic_addr + BitVec.ofNat 32 k)
  | send_packet data _, k => l1 (data + BitVec.ofNat 32 k)
  | write_to_host _ user_data, k => user_data.extractLsb' (8 * k) 8

/-- All the bytes, in the order in which they are moved. -/
def bytes (l1 : L1) (c : Command) : List Byte := (List.range c.size).map (c.byte l1)

/-- The bytes that it writes to host memory, with their places. -/
def writes (l1 : L1) (c : Command) : List (BitVec 64 × Byte) :=
  match c.dest with
  | some host_addr => (List.range c.size).map fun k => (host_addr + BitVec.ofNat 64 k, c.byte l1 k)
  | none => []

end Command

/-- One step of a handler. `wait` is `spin_cmd_wait` for the command that was issued `back`
steps before. `poll` reads `__host_data.flag[gid]` until its `dma_id` is the given one. -/
inductive Op
  | store (off : ℕ) (bytes : List Byte)
  | issue (c : Command)
  | wait (back : ℕ)
  | poll (gid : BitVec 32) (dma_id : Byte)

/-- The packet with the bytes from `off` on replaced. -/
def patch (packet : List Byte) (off : ℕ) (bytes : List Byte) : List Byte :=
  packet.take off ++ bytes ++ packet.drop (off + bytes.length)

/-- Only stores change the packet. -/
def Op.apply (packet : List Byte) : Op → List Byte
  | store off bytes => patch packet off bytes
  | issue _ => packet
  | wait _ => packet
  | poll _ _ => packet

/-- The packet after some steps of its handler. -/
def content (packet : List Byte) (ops : List Op) : List Byte := ops.foldl Op.apply packet

/-- Packet memory with `packet` at `a`; nothing is said about the rest. -/
def view (a : BitVec 32) (packet : List Byte) : L1 := fun x => packet.getD (x - a).toNat 0

/-! ## The system -/

variable {T S : Type} [DecidableEq T]

/-- Where a task is. `pc` steps of its program have been taken. -/
inductive Status
  | waiting
  | running (pkt_mem : BitVec 32) (program : List Op) (pc : ℕ)
  | done (pkt_mem : BitVec 32) (program : List Op)

/-- A command under way, with the bytes that it has moved. `slot` is the step of the
handler that issued it. -/
structure Flight (T : Type) where
  owner : T
  slot : ℕ
  call : Command
  out : List Byte

/-- The handlers, the memories they share, and the commands under way. -/
structure Sys (T S : Type) where
  l1 : L1
  host : Host
  /-- The packets sent, each with the step that sent it. -/
  wire : List (T × ℕ × List Byte)
  /-- `__host_data.flag`: the `dma_id` of the host's last answer to each HPU. -/
  flag : BitVec 32 → Byte
  /-- What the handlers keep from one packet to the next. -/
  mem : S
  status : T → Status
  flight : List (Flight T)

/-- `ready` is when the scheduler may start a task. The state that a handler keeps is
its own while it runs, so it changes when the task starts. The host looks for the flag of
an HPU at `flag_addr`. -/
structure Config (T S : Type) where
  packet : T → List Byte
  ready : (T → Status) → T → Prop
  handler : T → S → BitVec 32 → List Op × S
  flag_addr : BitVec 32 → BitVec 64

/-- Memory with `bytes` from `a` on. -/
def place (a : BitVec 32) (bytes : List Byte) (l1 : L1) : L1 := fun x =>
  if (x - a).toNat < bytes.length then bytes.getD (x - a).toNat 0 else l1 x

/-- The `n` bytes from `a` on and the `m` bytes from `b` on are different ones. -/
def Apart (a : BitVec 32) (n : ℕ) (b : BitVec 32) (m : ℕ) : Prop :=
  ∀ x : BitVec 32, (x - a).toNat < n → (x - b).toNat < m → False

/-- Host memory after the next byte of `f`. -/
def Sys.moveByte (s : Sys T S) (f : Flight T) : Host :=
  match f.call.dest with
  | some host_addr =>
    update s.host (host_addr + BitVec.ofNat 64 f.out.length) (f.call.byte s.l1 f.out.length)
  | none => s.host

/-- The packets sent once `f` is complete. -/
def Sys.sent (s : Sys T S) (f : Flight T) : List (T × ℕ × List Byte) :=
  match f.call with
  | .send_packet _ _ => s.wire ++ [(f.owner, f.slot, f.out)]
  | _ => s.wire

/-- When `t` may go on after step `pc`, which only waits. A test that fails is made again
and changes nothing. -/
def Sys.Passes (s : Sys T S) (t : T) (pc : ℕ) : Op → Prop
  | .store _ _ => False
  | .issue _ => False
  | .wait back => ∀ f ∈ s.flight, f.owner = t → f.slot + back ≠ pc
  | .poll gid dma_id => s.flag gid = dma_id

/-- The steps of the system. A task starts in packet memory that no other task uses, takes
its steps, and is over once its commands are. Commands move their bytes one by one; one
that has nothing to move is never reported complete. The host may at any time answer the
flag that it finds in its memory. -/
inductive Step (cfg : Config T S) (s : Sys T S) : Sys T S → Prop
  | start (t : T) (a : BitVec 32) (waiting : s.status t = .waiting) (ready : cfg.ready s.status t)
      (free : ∀ u b ops pc, s.status u = .running b ops pc →
        Apart a (cfg.packet t).length b (cfg.packet u).length) :
      Step cfg s { s with
        l1 := place a (cfg.packet t) s.l1
        mem := (cfg.handler t s.mem a).2
        status := update s.status t (.running a (cfg.handler t s.mem a).1 0) }
  | store (t : T) (a : BitVec 32) (ops : List Op) (pc off : ℕ) (bytes : List Byte)
      (running : s.status t = .running a ops pc) (op : ops[pc]? = some (.store off bytes)) :
      Step cfg s { s with
        l1 := place (a + BitVec.ofNat 32 off) bytes s.l1
        status := update s.status t (.running a ops (pc + 1)) }
  | issue (t : T) (a : BitVec 32) (ops : List Op) (pc : ℕ) (c : Command)
      (running : s.status t = .running a ops pc) (op : ops[pc]? = some (.issue c)) :
      Step cfg s { s with
        flight := ⟨t, pc, c, []⟩ :: s.flight
        status := update s.status t (.running a ops (pc + 1)) }
  | pass (t : T) (a : BitVec 32) (ops : List Op) (pc : ℕ) (op : Op)
      (running : s.status t = .running a ops pc) (op_at : ops[pc]? = some op)
      (passes : s.Passes t pc op) :
      Step cfg s { s with status := update s.status t (.running a ops (pc + 1)) }
  | beat (f : Flight T) (fs gs : List (Flight T)) (flight : s.flight = fs ++ f :: gs)
      (more : f.out.length < f.call.size) :
      Step cfg s { s with
        host := s.moveByte f
        flight := fs ++ { f with out := f.out ++ [f.call.byte s.l1 f.out.length] } :: gs }
  | complete (f : Flight T) (fs gs : List (Flight T)) (flight : s.flight = fs ++ f :: gs)
      (all : f.out.length = f.call.size) (nonempty : 0 < f.call.size) :
      Step cfg s { s with wire := s.sent f, flight := fs ++ gs }
  | finish (t : T) (a : BitVec 32) (ops : List Op) (running : s.status t = .running a ops ops.length)
      (landed : ∀ f ∈ s.flight, f.owner ≠ t) :
      Step cfg s { s with status := update s.status t (.done a ops) }
  | answer (gid : BitVec 32) :
      Step cfg s { s with flag := update s.flag gid (s.host (cfg.flag_addr gid)) }

/-- A run, step by step. -/
def Reach (cfg : Config T S) (s₀ s : Sys T S) : Prop := Relation.ReflTransGen (Step cfg) s₀ s

/-- Nothing has started. -/
structure Sys.Initial (s : Sys T S) : Prop where
  waiting : ∀ t, s.status t = .waiting
  flight : s.flight = []
  wire : s.wire = []

/-! ## Programs -/

/-- The packet memory of a started task, its program, and how far it is. -/
def Status.program : Status → Option (BitVec 32 × List Op × ℕ)
  | .waiting => none
  | .running a ops pc => some (a, ops, pc)
  | .done a ops => some (a, ops, ops.length)

/-- The stores of a handler stay in its packet, its commands read nothing else, and what a
command reads is not stored to once the command is issued. -/
structure Sound (a : BitVec 32) (n : ℕ) (ops : List Op) : Prop where
  store : ∀ (p off : ℕ) (bytes : List Byte), ops[p]? = some (.store off bytes) →
    off + bytes.length ≤ n
  source : ∀ (p : ℕ) (c : Command) (x : BitVec 32), ops[p]? = some (.issue c) → c.source = some x →
    0 < c.size → ∃ off, x = a + BitVec.ofNat 32 off ∧ off + c.size ≤ n ∧
      ∀ (q off' : ℕ) (bytes : List Byte), p < q → ops[q]? = some (.store off' bytes) →
        off + c.size ≤ off' ∨ off' + bytes.length ≤ off

/-- The packet memory that command `p` of a program reads. -/
def seen (a : BitVec 32) (packet : List Byte) (ops : List Op) (p : ℕ) : L1 :=
  view a (content packet (ops.take p))

end Pspin.Handlers
