/-
What a command moves is what its handler saw when it issued it.

`Sound` is about one program: its stores leave alone what its commands still read. So a
byte that a command reads later is the byte it would have read at once (`byte_eq`), as
long as nobody else stores into the packet. `Inv` carries this through every
interleaving.
-/
import Mathlib.Data.BitVec
import Mathlib.Data.List.GetD
import Pspin.HandlerTasks

set_option autoImplicit false

open Function (update)

namespace Pspin.Handlers

variable {T S : Type} [DecidableEq T] {cfg : Config T S} {s s' s₀ : Sys T S} {t u : T}
variable {a b x : BitVec 32} {n off k p pc : ℕ} {ops : List Op} {c : Command}
variable {packet bytes : List Byte}

/-! ## Addresses -/

/-- Distances from a place further on, in words that wrap. -/
theorem sub_add_offset (x a : BitVec 32) (h : off < 2 ^ 32) :
    (x - (a + BitVec.ofNat 32 off)).toNat =
      if off ≤ (x - a).toNat then (x - a).toNat - off else 2 ^ 32 + (x - a).toNat - off := by
  rw [← sub_sub]
  generalize x - a = y
  have hoff : (BitVec.ofNat 32 off).toNat = off := by
    rw [BitVec.toNat_ofNat, Nat.mod_eq_of_lt h]
  have hy := y.isLt
  rw [BitVec.toNat_sub, hoff]
  split_ifs <;> omega

/-- The distance of a place inside a packet. -/
theorem add_offset_sub (a : BitVec 32) (h : off < 2 ^ 32) :
    (a + BitVec.ofNat 32 off - a).toNat = off := by
  rw [BitVec.add_comm, BitVec.add_sub_cancel, BitVec.toNat_ofNat, Nat.mod_eq_of_lt h]

/-! ## Packets -/

/-- A store does not change the length of a packet. -/
theorem patch_length (h : off + bytes.length ≤ packet.length) :
    (patch packet off bytes).length = packet.length := by
  simp only [patch, List.length_append, List.length_take, List.length_drop]
  omega

/-- A store changes the bytes it writes and no others. -/
theorem patch_getD (h : off + bytes.length ≤ packet.length) (k : ℕ) :
    (patch packet off bytes).getD k 0 =
      if off ≤ k ∧ k < off + bytes.length then bytes.getD (k - off) 0 else packet.getD k 0 := by
  have htake : (packet.take off).length = off := by
    rw [List.length_take]
    omega
  simp only [List.getD_eq_getElem?_getD, patch, List.append_assoc]
  rcases Nat.lt_or_ge k off with hk | hk
  · rw [List.getElem?_append_left (by omega), List.getElem?_take_of_lt hk, if_neg (by omega)]
  · rw [List.getElem?_append_right (by omega), htake]
    rcases Nat.lt_or_ge k (off + bytes.length) with hk' | hk'
    · rw [List.getElem?_append_left (by omega), if_pos ⟨hk, hk'⟩]
    · rw [List.getElem?_append_right (by omega), List.getElem?_drop, if_neg (by omega)]
      congr 2
      omega

/-- The next operation changes the packet as it says. -/
theorem content_succ (packet : List Byte) {op : Op} (h : ops[p]? = some op) :
    content packet (ops.take (p + 1)) = op.apply (content packet (ops.take p)) := by
  rw [List.take_add_one, h]
  simp [content]

theorem content_end (packet : List Byte) (h : ops[p]? = none) :
    content packet (ops.take (p + 1)) = content packet (ops.take p) := by
  rw [List.take_add_one, h]
  simp

/-- A sound program keeps the length of its packet, so all its stores lie inside. -/
theorem content_length (h : Sound a packet.length ops) (p : ℕ) :
    (content packet (ops.take p)).length = packet.length := by
  induction p with
  | zero => rfl
  | succ p ih =>
      cases hop : ops[p]? with
      | none => rw [content_end packet hop, ih]
      | some op =>
          rw [content_succ packet hop]
          cases op with
          | issue c => exact ih
          | wait back => exact ih
          | poll gid dma_id => exact ih
          | store off bytes =>
              have := h.store p off bytes hop
              exact (patch_length (by omega)).trans ih

/-- A store of the handler at step `p`, seen in packet memory. -/
theorem seen_store (h : Sound a packet.length ops) (hn : packet.length < 2 ^ 32)
    (hop : ops[p]? = some (.store off bytes)) (hx : (x - a).toNat < packet.length) (l1 : L1)
    (hl1 : l1 x = seen a packet ops p x) :
    place (a + BitVec.ofNat 32 off) bytes l1 x = seen a packet ops (p + 1) x := by
  have hin := h.store p off bytes hop
  have hlen := content_length h p
  rw [place, seen, view, content_succ packet hop, sub_add_offset x a (by omega), Op.apply,
    patch_getD (by omega)]
  by_cases hat : off ≤ (x - a).toNat ∧ (x - a).toNat < off + bytes.length
  · rw [if_pos hat.1, if_pos (by omega), if_pos hat]
  · have hout : ¬(if off ≤ (x - a).toNat then (x - a).toNat - off
        else 2 ^ 32 + (x - a).toNat - off) < bytes.length := by
      split_ifs <;> omega
    rw [if_neg hout, if_neg hat]
    exact hl1

/-- What a command reads stays as it was when the command was issued. -/
theorem seen_stable (h : Sound a packet.length ops) (hn : packet.length < 2 ^ 32)
    (hop : ops[p]? = some (.issue c)) (hsrc : c.source = some x) (hk : k < c.size) (hpc : p ≤ pc) :
    seen a packet ops pc (x + BitVec.ofNat 32 k) = seen a packet ops p (x + BitVec.ofNat 32 k) := by
  obtain ⟨off, rfl, hle, hno⟩ := h.source p c x hop hsrc (Nat.zero_lt_of_lt hk)
  -- `x` is `off` bytes into the packet
  have hadd : a + BitVec.ofNat 32 off + BitVec.ofNat 32 k = a + BitVec.ofNat 32 (off + k) := by
    rw [BitVec.add_assoc, ← BitVec.ofNat_add]
  rw [hadd, seen, seen, view, view, add_offset_sub a (by omega)]
  -- induction on the steps taken since the command was issued
  induction pc, hpc using Nat.le_induction with
  | base => rfl
  | succ pc hpc ih =>
      rw [← ih]
      cases hq : ops[pc]? with
      | none => rw [content_end packet hq]
      | some op =>
          rw [content_succ packet hq]
          cases op with
          | issue c' => rfl
          | wait back => rfl
          | poll gid dma_id => rfl
          | store off' bytes =>
              -- a store after the command, so it is not in the part that the command reads
              have hin := h.store pc off' bytes hq
              have hlen := content_length h pc
              have hne : p ≠ pc := fun heq => by
                rw [heq, hq] at hop
                exact absurd hop (by simp)
              have hout := hno pc off' bytes (by omega) hq
              rw [Op.apply, patch_getD (by omega), if_neg (by omega)]

/-- A command that moves a byte now moves the one its handler saw. -/
theorem byte_eq (h : Sound a packet.length ops) (hn : packet.length < 2 ^ 32)
    (hop : ops[p]? = some (.issue c)) (hpc : p ≤ pc) (hk : k < c.size) {l1 : L1}
    (hl1 : ∀ x, (x - a).toNat < packet.length → l1 x = seen a packet ops pc x) :
    c.byte l1 k = c.byte (seen a packet ops p) k := by
  have hread : ∀ x, c.source = some x →
      l1 (x + BitVec.ofNat 32 k) = seen a packet ops p (x + BitVec.ofNat 32 k) := by
    intro x hx
    rw [← seen_stable h hn hop hx hk hpc]
    obtain ⟨off, rfl, hle, -⟩ := h.source p c x hop hx (Nat.zero_lt_of_lt hk)
    refine hl1 _ ?_
    rw [BitVec.add_assoc, ← BitVec.ofNat_add, add_offset_sub a (by omega)]
    omega
  cases c with
  | dma_to_host host_addr nic_addr length => exact hread nic_addr rfl
  | send_packet data length => exact hread data rfl
  | write_to_host host_addr user_data => rfl

/-! ## Whole runs -/

/-- Task `t` has issued `c` as step `p` of its program. -/
def Issued (status : T → Status) (t : T) (a : BitVec 32) (ops : List Op) (p : ℕ) (c : Command) : Prop :=
  ∃ pc, (status t).program = some (a, ops, pc) ∧ p < pc ∧ ops[p]? = some (.issue c)

/-- Every program that has been started is sound. -/
def Sys.Sound (cfg : Config T S) (s : Sys T S) : Prop :=
  ∀ t a ops pc, (s.status t).program = some (a, ops, pc) → Handlers.Sound a (cfg.packet t).length ops

/-- Everything that `c` asks for has arrived. -/
structure Landed (wire : List (T × ℕ × List Byte)) (log : List (BitVec 64 × Byte)) (l1 : L1) (t : T)
    (p : ℕ) (c : Command) : Prop where
  host : ∀ w ∈ c.writes l1, w ∈ log
  wire : ∀ data length, c = .send_packet data length → (t, p, c.bytes l1) ∈ wire

/-- A command under way. -/
structure Flying (cfg : Config T S) (status : T → Status) (log : List (BitVec 64 × Byte)) (f : Flight T)
    (a : BitVec 32) (ops : List Op) (pc : ℕ) : Prop where
  running : status f.owner = .running a ops pc
  slot : f.slot < pc
  op : ops[f.slot]? = some (.issue f.call)
  size : f.out.length ≤ f.call.size
  out : ∀ k < f.out.length, f.out.getD k 0 = f.call.byte (seen a (cfg.packet f.owner) ops f.slot) k
  host : ∀ k < f.out.length, ∀ host_addr, f.call.dest = some host_addr →
    (host_addr + BitVec.ofNat 64 k, f.call.byte (seen a (cfg.packet f.owner) ops f.slot) k) ∈ log

/-- Packet memory: the packet of every running task, each in a place of its own. -/
structure Placed (cfg : Config T S) (status : T → Status) (l1 : L1) : Prop where
  holds : ∀ t a ops pc, status t = .running a ops pc →
    ∀ x, (x - a).toNat < (cfg.packet t).length → l1 x = seen a (cfg.packet t) ops pc x
  apart : ∀ t u a ops pc b ops' pc', t ≠ u → status t = .running a ops pc →
    status u = .running b ops' pc' → Apart a (cfg.packet t).length b (cfg.packet u).length

/-- `log` is what has been written to host memory. -/
structure Inv (cfg : Config T S) (host₀ : Host) (log : List (BitVec 64 × Byte)) (s : Sys T S) : Prop where
  host : s.host = MemWrites.apply host₀ log
  placed : Placed cfg s.status s.l1
  flying : ∀ f ∈ s.flight, ∃ a ops pc, Flying cfg s.status log f a ops pc
  landed : ∀ t a ops p c, Issued s.status t a ops p c →
    (∃ f ∈ s.flight, f.owner = t ∧ f.slot = p) ∨
      Landed s.wire log (seen a (cfg.packet t) ops p) t p c
  logged : ∀ w ∈ log, ∃ t a ops p c, Issued s.status t a ops p c ∧
    w ∈ c.writes (seen a (cfg.packet t) ops p)
  wired : ∀ e ∈ s.wire, ∃ a ops data length,
    Issued s.status e.1 a ops e.2.1 (.send_packet data length) ∧
      e.2.2 = (Command.send_packet data length).bytes (seen a (cfg.packet e.1) ops e.2.1)
  once : (s.flight.map (fun f => (f.owner, f.slot)) ++ s.wire.map fun e => (e.1, e.2.1)).Nodup

section Status

variable {status : T → Status} {ops' : List Op}

/-- A task that starts has issued nothing. -/
theorem issued_start (h : status t = .waiting) :
    Issued (update status t (.running a ops 0)) u b ops' p c ↔ Issued status u b ops' p c := by
  by_cases hu : u = t
  · subst hu
    simp [Issued, h, Status.program]
  · rw [Issued, Issued, Function.update_of_ne hu]

/-- The next operation may be a command. -/
theorem issued_next (h : status t = .running a ops pc) :
    Issued (update status t (.running a ops (pc + 1))) u b ops' p c ↔
      Issued status u b ops' p c ∨
        (u = t ∧ b = a ∧ ops' = ops ∧ p = pc ∧ ops[pc]? = some (.issue c)) := by
  by_cases hu : u = t
  · subst hu
    simp only [Issued, h, Status.program, Function.update_self, Option.some.injEq, Prod.mk.injEq]
    constructor
    · rintro ⟨pc', ⟨rfl, rfl, rfl⟩, hp, hop⟩
      rcases Nat.lt_succ_iff_lt_or_eq.mp hp with hlt | rfl
      · exact .inl ⟨pc, ⟨rfl, rfl, rfl⟩, hlt, hop⟩
      · exact .inr ⟨trivial, rfl, rfl, rfl, hop⟩
    · rintro (⟨pc', ⟨rfl, rfl, rfl⟩, hp, hop⟩ | ⟨-, rfl, rfl, rfl, hop⟩)
      · exact ⟨_, ⟨rfl, rfl, rfl⟩, Nat.lt_succ_of_lt hp, hop⟩
      · exact ⟨_, ⟨rfl, rfl, rfl⟩, Nat.lt_succ_self _, hop⟩
  · rw [Issued, Issued, Function.update_of_ne hu]
    exact ⟨.inl, fun hi => hi.resolve_right fun hu' => hu hu'.1⟩

/-- A task that ends keeps what it has issued. -/
theorem issued_finish (h : status t = .running a ops ops.length) :
    Issued (update status t (.done a ops)) u b ops' p c ↔ Issued status u b ops' p c := by
  by_cases hu : u = t
  · subst hu
    simp only [Issued, h, Status.program, Function.update_self]
  · rw [Issued, Issued, Function.update_of_ne hu]

end Status

variable {host₀ : Host} {log : List (BitVec 64 × Byte)}

omit [DecidableEq T] in
/-- A command stays in flight while its task goes on and more is written. -/
theorem Flying.mono {status status' : T → Status} {log' : List (BitVec 64 × Byte)} {f : Flight T}
    {pc' : ℕ} (h : Flying cfg status log f a ops pc) (hs : status' f.owner = .running a ops pc')
    (hpc : pc ≤ pc') (hlog : ∀ w ∈ log, w ∈ log') : Flying cfg status' log' f a ops pc' where
  running := hs
  slot := lt_of_lt_of_le h.slot hpc
  op := h.op
  size := h.size
  out := h.out
  host k hk host_addr hd := hlog _ (h.host k hk host_addr hd)

/-! ### Packet memory -/

section Placed

variable {status : T → Status} {l1 : L1}

/-- The scheduler places a packet apart from those of the running tasks. -/
theorem Placed.start (h : Placed cfg status l1) (hfree : ∀ u b ops pc, status u = .running b ops pc →
      Apart a (cfg.packet t).length b (cfg.packet u).length) (ops : List Op) :
    Placed cfg (update status t (.running a ops 0)) (place a (cfg.packet t) l1) where
  holds := by
    intro u b ops' pc hu x hx
    by_cases hut : u = t
    · -- the new packet, at its start
      subst hut
      rw [Function.update_self, Status.running.injEq] at hu
      obtain ⟨rfl, rfl, rfl⟩ := hu
      rw [place, if_pos hx]
      rfl
    · -- the others are outside of what has been written
      rw [Function.update_of_ne hut] at hu
      have hout : ¬(x - a).toNat < (cfg.packet t).length := fun hx' => hfree u b ops' pc hu x hx' hx
      rw [place, if_neg hout]
      exact h.holds u b ops' pc hu x hx
  apart := by
    intro u v b ops' pc c ops'' pc' huv hu hv
    by_cases hut : u = t
    · -- the new one against an old one, by what the scheduler has checked, and the other way
      -- round
      subst hut
      rw [Function.update_self, Status.running.injEq] at hu
      rw [Function.update_of_ne (Ne.symm huv)] at hv
      obtain ⟨rfl, -, -⟩ := hu
      exact hfree v c ops'' pc' hv
    · rw [Function.update_of_ne hut] at hu
      by_cases hvt : v = t
      · subst hvt
        rw [Function.update_self, Status.running.injEq] at hv
        obtain ⟨rfl, -, -⟩ := hv
        exact fun x hx hx' => hfree u b ops' pc hu x hx' hx
      · rw [Function.update_of_ne hvt] at hv
        exact h.apart u v b ops' pc c ops'' pc' huv hu hv

/-- A step of `t` that changes packet memory at most in its own packet. -/
theorem Placed.next {l1' : L1} (h : Placed cfg status l1) (hr : status t = .running a ops pc)
    (hown : ∀ x, (x - a).toNat < (cfg.packet t).length → l1' x = seen a (cfg.packet t) ops (pc + 1) x)
    (hother : ∀ x, ¬(x - a).toNat < (cfg.packet t).length → l1' x = l1 x) :
    Placed cfg (update status t (.running a ops (pc + 1))) l1' where
  holds := by
    intro u b ops' pc' hu x hx
    by_cases hut : u = t
    · subst hut
      rw [Function.update_self, Status.running.injEq] at hu
      obtain ⟨rfl, rfl, rfl⟩ := hu
      exact hown x hx
    · rw [Function.update_of_ne hut] at hu
      rw [hother x fun hx' => h.apart t u a ops pc b ops' pc' (Ne.symm hut) hr hu x hx' hx]
      exact h.holds u b ops' pc' hu x hx
  apart := by
    -- the regions are those of before
    have hat : ∀ u b ops' pc', update status t (.running a ops (pc + 1)) u = .running b ops' pc' →
        ∃ ops'' pc'', status u = .running b ops'' pc'' := by
      intro u b ops' pc' hu
      by_cases hut : u = t
      · subst hut
        rw [Function.update_self, Status.running.injEq] at hu
        exact ⟨ops, pc, hu.1 ▸ hr⟩
      · rw [Function.update_of_ne hut] at hu
        exact ⟨ops', pc', hu⟩
    intro u v b ops' pc' c ops'' pc'' huv hu hv
    obtain ⟨_, _, hu⟩ := hat u b ops' pc' hu
    obtain ⟨_, _, hv⟩ := hat v c ops'' pc'' hv
    exact h.apart u v b _ _ c _ _ huv hu hv

/-- A task that ends leaves no packet behind. -/
theorem Placed.finish (h : Placed cfg status l1) (t : T) (a : BitVec 32) (ops : List Op) :
    Placed cfg (update status t (.done a ops)) l1 := by
  have hat : ∀ u b ops' pc', update status t (.done a ops) u = .running b ops' pc' →
      status u = .running b ops' pc' := by
    intro u b ops' pc' hu
    by_cases hut : u = t
    · rw [hut, Function.update_self] at hu
      exact absurd hu (by simp)
    · rwa [Function.update_of_ne hut] at hu
  exact ⟨fun u b ops' pc' hu => h.holds u b ops' pc' (hat u b ops' pc' hu),
    fun u v b ops' pc' c ops'' pc'' huv hu hv => h.apart u v b ops' pc' c ops'' pc'' huv
      (hat u b ops' pc' hu) (hat v c ops'' pc'' hv)⟩

/-- A store of a handler stays in its packet. -/
theorem place_outside {m : ℕ} (l1 : L1) (hin : off + bytes.length ≤ m) (hm : m < 2 ^ 32)
    (hx : ¬(x - a).toNat < m) : place (a + BitVec.ofNat 32 off) bytes l1 x = l1 x := by
  rw [place, sub_add_offset x a (by omega), if_neg]
  split_ifs <;> omega

end Placed

/-! ### The steps -/

/-- A task starts: its packet is placed, and its program is fixed for good. -/
theorem inv_start (h : Inv cfg host₀ log s) (hw : s.status t = .waiting)
    (hfree : ∀ u b ops pc, s.status u = .running b ops pc →
      Apart a (cfg.packet t).length b (cfg.packet u).length) (ops : List Op) (mem : S) :
    Inv cfg host₀ log { s with
      l1 := place a (cfg.packet t) s.l1, mem := mem, status := update s.status t (.running a ops 0) } where
  host := h.host
  placed := h.placed.start hfree ops
  flying := by
    intro f hf
    obtain ⟨b, ops', pc, hfl⟩ := h.flying f hf
    -- a task that waits has nothing in flight
    have hne : f.owner ≠ t := fun heq => by
      have := hfl.running
      rw [heq, hw] at this
      exact absurd this (by simp)
    exact ⟨b, ops', pc, hfl.mono ((Function.update_of_ne hne _ _).trans hfl.running) le_rfl
      fun w hw => hw⟩
  landed u b ops' p c hi := h.landed u b ops' p c ((issued_start hw).mp hi)
  logged w hwl := by
    obtain ⟨u, b, ops', p, c, hi, hw'⟩ := h.logged w hwl
    exact ⟨u, b, ops', p, c, (issued_start hw).mpr hi, hw'⟩
  wired e he := by
    obtain ⟨b, ops', d, n, hi, hout⟩ := h.wired e he
    exact ⟨b, ops', d, n, (issued_start hw).mpr hi, hout⟩
  once := h.once

/-- What a step of `t` leaves of the commands under way. -/
theorem flying_next {status : T → Status} (hr : status t = .running a ops pc) {f : Flight T}
    (h : ∃ b ops' pc', Flying cfg status log f b ops' pc') :
    ∃ b ops' pc', Flying cfg (update status t (.running a ops (pc + 1))) log f b ops' pc' := by
  obtain ⟨b, ops', pc', hfl⟩ := h
  by_cases hf : f.owner = t
  · have hrun := hfl.running
    rw [hf, hr, Status.running.injEq] at hrun
    obtain ⟨rfl, rfl, rfl⟩ := hrun
    refine ⟨a, ops, pc + 1, hfl.mono ?_ (Nat.le_succ pc) fun w hw => hw⟩
    rw [hf, Function.update_self]
  · exact ⟨b, ops', pc', hfl.mono ((Function.update_of_ne hf _ _).trans hfl.running) le_rfl
      fun w hw => hw⟩

/-- A step of `t` that issues nothing. -/
theorem inv_next {l1' : L1} (h : Inv cfg host₀ log s) (hr : s.status t = .running a ops pc)
    (hop : ∀ c, ops[pc]? ≠ some (.issue c))
    (hplaced : Placed cfg (update s.status t (.running a ops (pc + 1))) l1') :
    Inv cfg host₀ log { s with
      l1 := l1', status := update s.status t (.running a ops (pc + 1)) } := by
  have hissued : ∀ u b ops' p c, Issued (update s.status t (.running a ops (pc + 1))) u b ops' p c ↔
      Issued s.status u b ops' p c := by
    intro u b ops' p c
    rw [issued_next hr]
    refine ⟨fun hi => hi.resolve_right ?_, .inl⟩
    rintro ⟨-, -, -, -, hop'⟩
    exact hop c hop'
  refine ⟨h.host, hplaced, fun f hf => flying_next hr (h.flying f hf), fun u b ops' p c hi => ?_,
    fun w hw => ?_, fun e he => ?_, h.once⟩
  · exact h.landed u b ops' p c ((hissued ..).mp hi)
  · obtain ⟨u, b, ops', p, c, hi, hw'⟩ := h.logged w hw
    exact ⟨u, b, ops', p, c, (hissued ..).mpr hi, hw'⟩
  · obtain ⟨b, ops', d, n, hi, hout⟩ := h.wired e he
    exact ⟨b, ops', d, n, (hissued ..).mpr hi, hout⟩

/-- A store: only the packet of the task changes. A command that is in flight may still read it,
which is why a sound program stores only where no command of its own reads. -/
theorem inv_store (h : Inv cfg host₀ log s) (hsound : Handlers.Sound a (cfg.packet t).length ops)
    (hlen : (cfg.packet t).length < 2 ^ 32) (hr : s.status t = .running a ops pc)
    (hop : ops[pc]? = some (.store off bytes)) :
    Inv cfg host₀ log { s with
      l1 := place (a + BitVec.ofNat 32 off) bytes s.l1
      status := update s.status t (.running a ops (pc + 1)) } := by
  refine inv_next h hr (fun c hc => ?_) (h.placed.next hr (fun x hx => ?_) fun x hx => ?_)
  · rw [hop, Option.some.injEq] at hc
    exact absurd hc (by simp)
  · exact seen_store hsound hlen hop hx s.l1 (h.placed.holds t a ops pc hr x hx)
  · exact place_outside s.l1 (hsound.store pc off bytes hop) hlen hx

omit [DecidableEq T] in
/-- A step that only waits issues nothing and leaves the packet alone. -/
theorem Sys.Passes.waits {op : Op} (h : s.Passes t pc op) :
    (∀ c, op ≠ .issue c) ∧ ∀ packet, op.apply packet = packet := by
  cases op with
  | store off bytes => exact absurd h id
  | issue c => exact absurd h id
  | wait back => exact ⟨fun c => by simp, fun packet => rfl⟩
  | poll gid dma_id => exact ⟨fun c => by simp, fun packet => rfl⟩

/-- An operation that waited and whose condition is met changes nothing but the program counter. -/
theorem inv_pass {op : Op} (h : Inv cfg host₀ log s) (hr : s.status t = .running a ops pc)
    (hop : ops[pc]? = some op) (hp : s.Passes t pc op) :
    Inv cfg host₀ log { s with status := update s.status t (.running a ops (pc + 1)) } := by
  obtain ⟨hissue, happly⟩ := hp.waits
  have hseen : seen a (cfg.packet t) ops (pc + 1) = seen a (cfg.packet t) ops pc := by
    rw [seen, seen, content_succ _ hop, happly]
  refine inv_next h hr (fun c hc => ?_) (h.placed.next hr (fun x hx => ?_) fun x _ => rfl)
  · rw [hop, Option.some.injEq] at hc
    exact hissue c hc
  · rw [hseen]
    exact h.placed.holds t a ops pc hr x hx

/-- A command goes into flight. It has written nothing yet. -/
theorem inv_issue (h : Inv cfg host₀ log s) (hr : s.status t = .running a ops pc)
    (hop : ops[pc]? = some (.issue c)) :
    Inv cfg host₀ log { s with
      flight := ⟨t, pc, c, []⟩ :: s.flight
      status := update s.status t (.running a ops (pc + 1)) } := by
  have hseen : seen a (cfg.packet t) ops (pc + 1) = seen a (cfg.packet t) ops pc := by
    rw [seen, content_succ _ hop]
    rfl
  -- `t` had issued nothing as step `pc` before
  have hnew : ∀ b ops' q c', Issued s.status t b ops' q c' → q ≠ pc := by
    rintro b ops' q c' ⟨pc', hp, hlt, -⟩
    rw [hr, Status.program, Option.some.injEq, Prod.mk.injEq, Prod.mk.injEq] at hp
    omega
  refine ⟨h.host, ?_, fun f hf => ?_, fun u b ops' p c' hi => ?_, fun w hw => ?_, fun e he => ?_, ?_⟩
  · refine h.placed.next hr (fun x hx => ?_) fun x _ => rfl
    rw [hseen]
    exact h.placed.holds t a ops pc hr x hx
  · rcases List.mem_cons.mp hf with rfl | hf
    · exact ⟨a, ops, pc + 1, Function.update_self .., Nat.lt_succ_self pc, hop, Nat.zero_le _,
        fun k hk => absurd hk (Nat.not_lt_zero k), fun k hk => absurd hk (Nat.not_lt_zero k)⟩
    · exact flying_next hr (h.flying f hf)
  · rcases (issued_next hr).mp hi with hi | ⟨rfl, rfl, rfl, rfl, -⟩
    · rcases h.landed u b ops' p c' hi with ⟨f, hf, hfo⟩ | hl
      · exact .inl ⟨f, List.mem_cons_of_mem _ hf, hfo⟩
      · exact .inr hl
    · exact .inl ⟨_, List.mem_cons_self, rfl, rfl⟩
  · obtain ⟨u, b, ops', p, c', hi, hw'⟩ := h.logged w hw
    exact ⟨u, b, ops', p, c', (issued_next hr).mpr (.inl hi), hw'⟩
  · obtain ⟨b, ops', d, n, hi, hout⟩ := h.wired e he
    exact ⟨b, ops', d, n, (issued_next hr).mpr (.inl hi), hout⟩
  · change ((t, pc) :: (s.flight.map (fun f => (f.owner, f.slot)) ++
      s.wire.map fun e => (e.1, e.2.1))).Nodup
    refine List.nodup_cons.mpr ⟨fun hmem => ?_, h.once⟩
    rcases List.mem_append.mp hmem with hmem | hmem
    · obtain ⟨f, hf, heq⟩ := List.mem_map.mp hmem
      rw [Prod.mk.injEq] at heq
      obtain ⟨b, ops', pc', hfl⟩ := h.flying f hf
      have hrun := hfl.running
      rw [heq.1, hr, Status.running.injEq] at hrun
      have := hfl.slot
      omega
    · obtain ⟨e, he, heq⟩ := List.mem_map.mp hmem
      rw [Prod.mk.injEq] at heq
      obtain ⟨b, ops', d, n, hi, -⟩ := h.wired e he
      rw [heq.1] at hi
      exact hnew b ops' _ _ hi heq.2

/-- What a byte adds to the writes of the host. -/
def Flight.write (f : Flight T) (v : Byte) : List (BitVec 64 × Byte) :=
  match f.call.dest with
  | some host_addr => [(host_addr + BitVec.ofNat 64 f.out.length, v)]
  | none => []

/-- What a command writes, byte by byte. -/
theorem mem_writes_iff {l1 : L1} {host_addr y : BitVec 64} {v : Byte} (hd : c.dest = some host_addr) :
    (y, v) ∈ c.writes l1 ↔ ∃ k, k < c.size ∧ y = host_addr + BitVec.ofNat 64 k ∧ v = c.byte l1 k := by
  rw [Command.writes, hd]
  constructor
  · intro h
    obtain ⟨k, hk, heq⟩ := List.mem_map.mp h
    rw [Prod.mk.injEq] at heq
    exact ⟨k, List.mem_range.mp hk, heq.1.symm, heq.2.symm⟩
  · rintro ⟨k, hk, rfl, rfl⟩
    exact List.mem_map.mpr ⟨k, List.mem_range.mpr hk, rfl⟩

omit [DecidableEq T] in
/-- What a command under way writes is in its call: the place of the next byte, with the byte. -/
theorem mem_write_iff {f : Flight T} {v : Byte} {w : BitVec 64 × Byte} :
    w ∈ f.write v ↔ ∃ host_addr, f.call.dest = some host_addr ∧
      w = (host_addr + BitVec.ofNat 64 f.out.length, v) := by
  rw [Flight.write]
  cases f.call.dest with
  | none => simp
  | some host_addr => simp

omit [DecidableEq T] in
/-- The command that moves a byte stays in flight: the byte is the next one of its call, and if
it goes to host memory then the log has it. -/
theorem Flying.beat {status : T → Status} {f : Flight T} {v : Byte}
    (h : Flying cfg status log f a ops pc) (hmore : f.out.length < f.call.size)
    (hv : f.call.byte (seen a (cfg.packet f.owner) ops f.slot) f.out.length = v) :
    Flying cfg status (log ++ f.write v) { f with out := f.out ++ [v] } a ops pc := by
  have hlast : ∀ k, k < (f.out ++ [v]).length → k < f.out.length ∨ k = f.out.length := by
    intro k hk
    rw [List.length_append, List.length_singleton] at hk
    omega
  refine ⟨h.running, h.slot, h.op, ?_, fun k hk => ?_, fun k hk host_addr hd => ?_⟩
  · change (f.out ++ [v]).length ≤ f.call.size
    rw [List.length_append, List.length_singleton]
    exact hmore
  · change (f.out ++ [v]).getD k 0 = _
    rcases hlast k hk with hk | rfl
    · rw [List.getD_append _ _ _ _ hk]
      exact h.out k hk
    · rw [List.getD_append_right _ _ _ _ le_rfl, Nat.sub_self]
      exact hv.symm
  · rcases hlast k hk with hk | rfl
    · exact List.mem_append_left _ (h.host k hk host_addr hd)
    · exact List.mem_append_right _ (mem_write_iff.mpr ⟨host_addr, hd, by rw [← hv]⟩)

omit [DecidableEq T] in
/-- A command in flight is still there after the byte, or is the one that has moved it. -/
theorem mem_after_beat {f g : Flight T} {fs gs : List (Flight T)} {v : Byte} (hg : g ∈ fs ++ f :: gs) :
    g ∈ fs ++ { f with out := f.out ++ [v] } :: gs ∨ g = f := by
  rcases List.mem_append.mp hg with hg | hg
  · exact .inl (List.mem_append_left _ hg)
  · rcases List.mem_cons.mp hg with rfl | hg
    · exact .inr rfl
    · exact .inl (List.mem_append_right _ (List.mem_cons_of_mem _ hg))

omit [DecidableEq T] in
/-- A command that was there before the byte, or the one that has moved it. -/
theorem mem_before_beat {f g : Flight T} {fs gs : List (Flight T)} {v : Byte}
    (hg : g ∈ fs ++ { f with out := f.out ++ [v] } :: gs) :
    g ∈ fs ++ f :: gs ∨ g = { f with out := f.out ++ [v] } := by
  rcases List.mem_append.mp hg with hg | hg
  · exact .inl (List.mem_append_left _ hg)
  · rcases List.mem_cons.mp hg with rfl | hg
    · exact .inr rfl
    · exact .inl (List.mem_append_right _ (List.mem_cons_of_mem _ hg))

omit [DecidableEq T] in
/-- A byte of a command reaches the host. The one place where something is written: the log grows
by that byte, and the byte is the one that the task's packet held when the command was issued. -/
theorem inv_beat {f : Flight T} {fs gs : List (Flight T)} (h : Inv cfg host₀ log s) (hs : s.Sound cfg)
    (hlen : ∀ t, (cfg.packet t).length < 2 ^ 32) (hf : s.flight = fs ++ f :: gs)
    (hmore : f.out.length < f.call.size) :
    Inv cfg host₀ (log ++ f.write (f.call.byte s.l1 f.out.length)) { s with
      host := s.moveByte f
      flight := fs ++ { f with out := f.out ++ [f.call.byte s.l1 f.out.length] } :: gs } := by
  have hfmem : f ∈ s.flight := by
    rw [hf]
    simp
  obtain ⟨a, ops, pc, hfl⟩ := h.flying f hfmem
  have hsound := hs f.owner a ops pc (by rw [hfl.running]; rfl)
  have hbyte : f.call.byte s.l1 f.out.length =
      f.call.byte (seen a (cfg.packet f.owner) ops f.slot) f.out.length :=
    byte_eq hsound (hlen _) hfl.op hfl.slot.le hmore (h.placed.holds _ _ _ _ hfl.running)
  have hissued : Issued s.status f.owner a ops f.slot f.call :=
    ⟨pc, by rw [hfl.running]; rfl, hfl.slot, hfl.op⟩
  rw [hbyte]
  generalize hv : f.call.byte (seen a (cfg.packet f.owner) ops f.slot) f.out.length = v at hbyte
  have hlog : ∀ w ∈ log, w ∈ log ++ f.write v := fun w hw => List.mem_append_left _ hw
  refine ⟨?_, h.placed, fun g hg => ?_, fun u b ops' p c hi => ?_, fun w hw => ?_, h.wired, ?_⟩
  · -- host memory has the byte, if it goes there
    change s.moveByte f = _
    rw [MemWrites.apply_append, ← h.host, Sys.moveByte, Flight.write, hbyte]
    cases f.call.dest <;> rfl
  · rcases mem_before_beat hg with hg | rfl
    · obtain ⟨b, ops', pc', hg⟩ := h.flying g (hf ▸ hg)
      exact ⟨b, ops', pc', hg.mono hg.running le_rfl hlog⟩
    · exact ⟨a, ops, pc, hfl.beat hmore hv⟩
  · rcases h.landed u b ops' p c hi with ⟨g, hg, hgo⟩ | hl
    · -- not landed yet: it is in flight as before, or it is the command that moved the byte
      rcases mem_after_beat (hf ▸ hg) with hg | rfl
      · exact .inl ⟨g, hg, hgo⟩
      · exact .inl ⟨_, List.mem_append_right _ List.mem_cons_self, hgo⟩
    · exact .inr ⟨fun w hw => hlog w (hl.host w hw), hl.wire⟩
  · rcases List.mem_append.mp hw with hw | hw
    · exact h.logged w hw
    · -- the new entry of the log is this byte
      obtain ⟨host_addr, hd, rfl⟩ := mem_write_iff.mp hw
      rw [← hv]
      exact ⟨f.owner, a, ops, f.slot, f.call, hissued, (mem_writes_iff hd).mpr ⟨_, hmore, rfl, rfl⟩⟩
  · -- owners and slots are the same as before
    have honce := h.once
    rw [hf, List.map_append, List.map_cons] at honce
    rw [List.map_append, List.map_cons]
    exact honce

omit [DecidableEq T] in
/-- All the bytes of a command have been moved. -/
theorem Flying.all {status : T → Status} {f : Flight T} (h : Flying cfg status log f a ops pc)
    (hall : f.out.length = f.call.size) :
    f.out = f.call.bytes (seen a (cfg.packet f.owner) ops f.slot) ∧
      ∀ w ∈ f.call.writes (seen a (cfg.packet f.owner) ops f.slot), w ∈ log := by
  constructor
  · refine List.ext_getElem (by rw [hall, Command.bytes]; simp) fun k hk _ => ?_
    have hk' := h.out k hk
    rw [List.getD_eq_getElem _ _ hk] at hk'
    rw [hk']
    simp only [Command.bytes, List.getElem_map, List.getElem_range]
  · intro w hw
    cases hd : f.call.dest with
    | none =>
        rw [Command.writes, hd] at hw
        exact absurd hw List.not_mem_nil
    | some host_addr =>
        rw [Command.writes, hd] at hw
        obtain ⟨k, hk, rfl⟩ := List.mem_map.mp hw
        rw [List.mem_range, ← hall] at hk
        exact h.host k hk host_addr hd

omit [DecidableEq T] in
/-- Packets sent are not taken back. -/
theorem Sys.mem_sent_of_mem {s : Sys T S} {f : Flight T} {e : T × ℕ × List Byte} (he : e ∈ s.wire) :
    e ∈ s.sent f := by
  rw [Sys.sent]
  split
  · exact List.mem_append_left _ he
  · exact he

omit [DecidableEq T] in
/-- A packet on the wire after the step was there before, or is what a `send_packet` has read. -/
theorem Sys.mem_sent {s : Sys T S} {f : Flight T} {e : T × ℕ × List Byte} (he : e ∈ s.sent f) :
    e ∈ s.wire ∨
      ∃ data length, f.call = .send_packet data length ∧ e = (f.owner, f.slot, f.out) := by
  rw [Sys.sent] at he
  split at he
  · rename_i data length hcall
    rcases List.mem_append.mp he with he | he
    · exact .inl he
    · exact .inr ⟨data, length, hcall, List.mem_singleton.mp he⟩
  · exact .inl he

omit [DecidableEq T] in
/-- The command of a step is known by its owner and its slot. -/
theorem Flying.call_eq {status : T → Status} {f : Flight T} {b : BitVec 32} {ops' : List Op}
    (h : Flying cfg status log f a ops pc) (hi : Issued status f.owner b ops' f.slot c) :
    b = a ∧ ops' = ops ∧ c = f.call := by
  obtain ⟨pc', hp, -, hop⟩ := hi
  rw [h.running, Status.program, Option.some.injEq, Prod.mk.injEq, Prod.mk.injEq] at hp
  obtain ⟨rfl, rfl, -⟩ := hp
  have hc := hop.symm.trans h.op
  rw [Option.some.injEq, Op.issue.injEq] at hc
  exact ⟨rfl, rfl, hc⟩

omit [DecidableEq T] in
/-- A command that has moved all its bytes has landed when it is complete: they are in the log,
and a packet to be sent is on the wire. -/
theorem Flying.lands {s : Sys T S} {f : Flight T} (h : Flying cfg s.status log f a ops pc)
    (hall : f.out.length = f.call.size) :
    Landed (s.sent f) log (seen a (cfg.packet f.owner) ops f.slot) f.owner f.slot f.call := by
  obtain ⟨hout, hhost⟩ := h.all hall
  refine ⟨hhost, fun data length hcall => ?_⟩
  rw [← hout, Sys.sent, hcall]
  exact List.mem_append_right _ List.mem_cons_self

omit [DecidableEq T] in
/-- No command is counted twice: the slot goes from the commands under way to the packets sent,
or it is gone. -/
theorem Inv.once_complete {f : Flight T} {fs gs : List (Flight T)} (h : Inv cfg host₀ log s)
    (hf : s.flight = fs ++ f :: gs) :
    ((fs ++ gs).map (fun f => (f.owner, f.slot)) ++ (s.sent f).map fun e => (e.1, e.2.1)).Nodup := by
  have hperm : (s.flight.map fun f => (f.owner, f.slot)).Perm
      ((f.owner, f.slot) :: (fs ++ gs).map fun f => (f.owner, f.slot)) := by
    rw [hf, List.map_append, List.map_cons, List.map_append]
    exact List.perm_middle
  have honce := (hperm.append_right _).nodup_iff.mp h.once
  generalize (fs ++ gs).map (fun f => (f.owner, f.slot)) = slots at honce ⊢
  rw [Sys.sent]
  split
  · rw [List.map_append, ← List.append_assoc, List.map_singleton]
    exact (List.perm_append_singleton _ _).nodup_iff.mpr honce
  · exact (List.nodup_cons.mp honce).2

omit [DecidableEq T] in
/-- A command is complete: all its bytes are in the log, and a packet to be sent goes to the wire.
-/
theorem inv_complete {f : Flight T} {fs gs : List (Flight T)} (h : Inv cfg host₀ log s)
    (hf : s.flight = fs ++ f :: gs) (hall : f.out.length = f.call.size) :
    Inv cfg host₀ log { s with wire := s.sent f, flight := fs ++ gs } := by
  have hmem : ∀ g, g ∈ s.flight ↔ g = f ∨ g ∈ fs ++ gs := by
    intro g
    rw [hf]
    simp only [List.mem_append, List.mem_cons]
    tauto
  obtain ⟨a, ops, pc, hfl⟩ := h.flying f ((hmem f).mpr (.inl rfl))
  have hissued : Issued s.status f.owner a ops f.slot f.call :=
    ⟨pc, by rw [hfl.running]; rfl, hfl.slot, hfl.op⟩
  refine ⟨h.host, h.placed, fun g hg => h.flying g ((hmem g).mpr (.inr hg)), fun u b ops' p c hi => ?_,
    h.logged, fun e he => ?_, h.once_complete hf⟩
  · rcases h.landed u b ops' p c hi with ⟨g, hg, hgo⟩ | hl
    · rcases (hmem g).mp hg with rfl | hg
      · -- `g` was the command of this step
        right
        obtain ⟨rfl, rfl⟩ := hgo
        obtain ⟨rfl, rfl, rfl⟩ := hfl.call_eq hi
        exact hfl.lands hall
      · exact .inl ⟨g, hg, hgo⟩
    · exact .inr ⟨hl.host, fun data length hcall => Sys.mem_sent_of_mem (hl.wire data length hcall)⟩
  · rcases Sys.mem_sent he with he | ⟨data, length, hcall, rfl⟩
    · exact h.wired e he
    · exact ⟨a, ops, data, length, hcall ▸ hissued, hcall ▸ (hfl.all hall).1⟩

/-- A task ends when none of its commands is in flight, so everything that it issued has landed. -/
theorem inv_finish (h : Inv cfg host₀ log s) (hr : s.status t = .running a ops ops.length)
    (hno : ∀ f ∈ s.flight, f.owner ≠ t) :
    Inv cfg host₀ log { s with status := update s.status t (.done a ops) } where
  host := h.host
  placed := h.placed.finish t a ops
  flying := by
    intro f hf
    obtain ⟨b, ops', pc, hfl⟩ := h.flying f hf
    exact ⟨b, ops', pc, hfl.mono ((Function.update_of_ne (hno f hf) _ _).trans hfl.running) le_rfl
      fun w hw => hw⟩
  landed u b ops' p c hi := h.landed u b ops' p c ((issued_finish hr).mp hi)
  logged w hw := by
    obtain ⟨u, b, ops', p, c, hi, hw'⟩ := h.logged w hw
    exact ⟨u, b, ops', p, c, (issued_finish hr).mpr hi, hw'⟩
  wired e he := by
    obtain ⟨b, ops', d, n, hi, hout⟩ := h.wired e he
    exact ⟨b, ops', d, n, (issued_finish hr).mpr hi, hout⟩
  once := h.once

/-! ### Runs -/

/-- Every step keeps the invariant, the log grows. -/
theorem inv_step (hlen : ∀ t, (cfg.packet t).length < 2 ^ 32) (h : Inv cfg host₀ log s)
    (hs : s.Sound cfg) (hstep : Step cfg s s') : ∃ log', Inv cfg host₀ log' s' := by
  cases hstep with
  | start t a hw hready hfree => exact ⟨log, inv_start h hw hfree _ _⟩
  | store t a ops pc off bytes hr hop =>
      exact ⟨log, inv_store h (hs t a ops pc (by rw [hr]; rfl)) (hlen t) hr hop⟩
  | issue t a ops pc c hr hop => exact ⟨log, inv_issue h hr hop⟩
  | pass t a ops pc op hr hop hp => exact ⟨log, inv_pass h hr hop hp⟩
  | beat f fs gs hf hmore => exact ⟨_, inv_beat h hs hlen hf hmore⟩
  | complete f fs gs hf hall hpos => exact ⟨log, inv_complete h hf hall⟩
  | finish t a ops hr hno => exact ⟨log, inv_finish h hr hno⟩
  | answer gid =>
      exact ⟨log, ⟨h.host, h.placed, h.flying, h.landed, h.logged, h.wired, h.once⟩⟩

omit [DecidableEq T] in
theorem Sys.Initial.inv (h : s₀.Initial) (cfg : Config T S) : Inv cfg s₀.host [] s₀ := by
  have hnone : ∀ t a ops p c, ¬Issued s₀.status t a ops p c := by
    rintro t a ops p c ⟨pc, hp, -⟩
    rw [h.waiting t] at hp
    exact absurd hp (by simp [Status.program])
  have hwait : ∀ t a ops pc, s₀.status t ≠ .running a ops pc := by
    intro t a ops pc
    rw [h.waiting t]
    exact nofun
  refine ⟨rfl, ⟨fun t a ops pc hr => absurd hr (hwait t a ops pc),
    fun t u a ops pc b ops' pc' _ hr => absurd hr (hwait t a ops pc)⟩, fun f hf => ?_,
    fun t a ops p c hi => absurd hi (hnone t a ops p c), fun w hw => absurd hw List.not_mem_nil,
    fun e he => ?_, ?_⟩
  · rw [h.flight] at hf
    exact absurd hf List.not_mem_nil
  · rw [h.wire] at he
    exact absurd he List.not_mem_nil
  · rw [h.flight, h.wire]
    exact List.nodup_nil

/-- **In every run of sound programs, host memory and the network hold what the handlers
asked for.** -/
theorem inv_of_reach (hlen : ∀ t, (cfg.packet t).length < 2 ^ 32) (h₀ : s₀.Initial)
    (hs : ∀ s, Reach cfg s₀ s → s.Sound cfg) (h : Reach cfg s₀ s) :
    ∃ log, Inv cfg s₀.host log s := by
  induction h with
  | refl => exact ⟨[], h₀.inv cfg⟩
  | tail hr hstep ih =>
      obtain ⟨log, ih⟩ := ih
      exact inv_step hlen ih (hs _ hr) hstep

/-! ### Which programs run -/

/-- A program that is there after a step was there before, or the step started it. -/
theorem Step.program (h : Step cfg s s') (hp : (s'.status t).program = some (a, ops, pc)) :
    (∃ pc', (s.status t).program = some (a, ops, pc')) ∨
      (s.status t = .waiting ∧ cfg.ready s.status t ∧ ops = (cfg.handler t s.mem a).1) := by
  have hother : ∀ {u : T} {st : Status}, t ≠ u →
      (update s.status u st t).program = some (a, ops, pc) →
      ∃ pc', (s.status t).program = some (a, ops, pc') := by
    intro u st hne hp
    rw [Function.update_of_ne hne] at hp
    exact ⟨pc, hp⟩
  -- a step of `t` itself keeps the program
  have hown : ∀ {b : BitVec 32} {ops' : List Op} {pc' : ℕ} {st : Status}, s.status t = .running b ops' pc' →
      (∃ pc'', st.program = some (b, ops', pc'')) → st.program = some (a, ops, pc) →
      ∃ pc', (s.status t).program = some (a, ops, pc') := by
    rintro b ops' pc' st hr ⟨pc'', hst⟩ hp
    rw [hst, Option.some.injEq, Prod.mk.injEq, Prod.mk.injEq] at hp
    obtain ⟨rfl, rfl, -⟩ := hp
    exact ⟨pc', by rw [hr]; rfl⟩
  cases h with
  | start u b hw hready hfree =>
      by_cases htu : t = u
      · subst htu
        change (update s.status t _ t).program = _ at hp
        rw [Function.update_self, Status.program, Option.some.injEq, Prod.mk.injEq, Prod.mk.injEq] at hp
        obtain ⟨rfl, rfl, -⟩ := hp
        exact .inr ⟨hw, hready, rfl⟩
      · exact .inl (hother htu hp)
  | store u b ops' pc' off bytes hr hop =>
      left
      by_cases htu : t = u
      · subst htu
        change (update s.status t _ t).program = _ at hp
        rw [Function.update_self] at hp
        exact hown hr ⟨_, rfl⟩ hp
      · exact hother htu hp
  | issue u b ops' pc' c hr hop =>
      left
      by_cases htu : t = u
      · subst htu
        change (update s.status t _ t).program = _ at hp
        rw [Function.update_self] at hp
        exact hown hr ⟨_, rfl⟩ hp
      · exact hother htu hp
  | pass u b ops' pc' op hr hop hpass =>
      left
      by_cases htu : t = u
      · subst htu
        change (update s.status t _ t).program = _ at hp
        rw [Function.update_self] at hp
        exact hown hr ⟨_, rfl⟩ hp
      · exact hother htu hp
  | beat f fs gs hf hmore => exact .inl ⟨pc, hp⟩
  | complete f fs gs hf hall hpos => exact .inl ⟨pc, hp⟩
  | finish u b ops' hr hno =>
      left
      by_cases htu : t = u
      · subst htu
        change (update s.status t _ t).program = _ at hp
        rw [Function.update_self] at hp
        exact hown hr ⟨_, rfl⟩ hp
      · exact hother htu hp
  | answer gid => exact .inl ⟨pc, hp⟩

/-- Only a start changes the state that handlers keep. -/
theorem Step.mem (h : Step cfg s s') :
    (s'.mem = s.mem ∧ ∀ t, s'.status t = .waiting ↔ s.status t = .waiting) ∨
      ∃ t a, s.status t = .waiting ∧ cfg.ready s.status t ∧ s'.mem = (cfg.handler t s.mem a).2 ∧
        s'.status = update s.status t (.running a (cfg.handler t s.mem a).1 0) := by
  have hkeep : ∀ {u : T} {st : Status}, s.status u ≠ .waiting → st ≠ .waiting →
      ∀ t, update s.status u st t = .waiting ↔ s.status t = .waiting := by
    intro u st hu hst t
    by_cases htu : t = u
    · rw [htu, Function.update_self]
      exact iff_of_false hst hu
    · rw [Function.update_of_ne htu]
  cases h with
  | start t a hw hready hfree => exact .inr ⟨t, a, hw, hready, rfl, rfl⟩
  | store t a ops pc off bytes hr hop => exact .inl ⟨rfl, hkeep (by rw [hr]; exact nofun) nofun⟩
  | issue t a ops pc c hr hop => exact .inl ⟨rfl, hkeep (by rw [hr]; exact nofun) nofun⟩
  | pass t a ops pc op hr hop hp => exact .inl ⟨rfl, hkeep (by rw [hr]; exact nofun) nofun⟩
  | beat f fs gs hf hmore => exact .inl ⟨rfl, fun t => Iff.rfl⟩
  | complete f fs gs hf hall hpos => exact .inl ⟨rfl, fun t => Iff.rfl⟩
  | finish t a ops hr hno => exact .inl ⟨rfl, hkeep (by rw [hr]; exact nofun) nofun⟩
  | answer gid => exact .inl ⟨rfl, fun t => Iff.rfl⟩

/-- What is over stays over. -/
theorem Step.done (h : Step cfg s s') (hd : s.status t = .done a ops) : s'.status t = .done a ops := by
  have hkeep : ∀ {u : T} {st : Status}, s.status u ≠ .done a ops →
      update s.status u st t = .done a ops := by
    intro u st hu
    have hne : t ≠ u := fun htu => hu (htu ▸ hd)
    rw [Function.update_of_ne hne]
    exact hd
  cases h with
  | start u b hw hready hfree => exact hkeep (by rw [hw]; exact nofun)
  | store u b ops' pc' off bytes hr hop => exact hkeep (by rw [hr]; exact nofun)
  | issue u b ops' pc' c hr hop => exact hkeep (by rw [hr]; exact nofun)
  | pass u b ops' pc' op hr hop hp => exact hkeep (by rw [hr]; exact nofun)
  | beat f fs gs hf hmore => exact hd
  | complete f fs gs hf hall hpos => exact hd
  | finish u b ops' hr hno => exact hkeep (by rw [hr]; exact nofun)
  | answer gid => exact hd

omit [DecidableEq T] in
/-- A task that has started has its program. -/
theorem program_of_ne_waiting {status : T → Status} (h : status t ≠ .waiting) :
    ∃ a ops pc, (status t).program = some (a, ops, pc) := by
  cases hs : status t with
  | waiting => exact absurd hs h
  | running a ops pc => exact ⟨a, ops, pc, rfl⟩
  | done a ops => exact ⟨a, ops, ops.length, rfl⟩

/-- What a task needs to be ready, and what lasts, holds of every task that has started. -/
theorem ready_of_reach {P : (T → Status) → T → Prop} (h₀ : s₀.Initial)
    (hready : ∀ status t, cfg.ready status t → P status t)
    (hmono : ∀ status status' t, (∀ u a ops, status u = .done a ops → status' u = .done a ops) →
      P status t → P status' t)
    (h : Reach cfg s₀ s) (hp : (s.status t).program = some (a, ops, pc)) : P s.status t := by
  induction h generalizing pc with
  | refl =>
      rw [h₀.waiting t] at hp
      exact absurd hp (by simp [Status.program])
  | tail hr hstep ih =>
      refine hmono _ _ t (fun u b ops' => hstep.done) ?_
      rcases hstep.program hp with ⟨pc', hp'⟩ | ⟨-, hr', -⟩
      · exact ih hp'
      · exact hready _ _ hr'

/-- A program is what its handler made of some state. -/
theorem program_of_reach (h₀ : s₀.Initial) (h : Reach cfg s₀ s)
    (hp : (s.status t).program = some (a, ops, pc)) : ∃ mem, ops = (cfg.handler t mem a).1 := by
  induction h generalizing pc with
  | refl =>
      rw [h₀.waiting t] at hp
      exact absurd hp (by simp [Status.program])
  | tail hr hstep ih =>
      rcases hstep.program hp with ⟨pc', hp'⟩ | ⟨-, -, hops⟩
      · exact ih hp'
      · exact ⟨_, hops⟩

/-! ### What a finished task has done -/

omit [DecidableEq T] in
/-- What a finished task has issued is where it belongs. -/
theorem Inv.of_done (h : Inv cfg host₀ log s) (hdone : s.status t = .done a ops)
    (hop : ops[p]? = some (.issue c)) :
    Landed s.wire log (seen a (cfg.packet t) ops p) t p c := by
  have hp : p < ops.length := (List.getElem?_eq_some_iff.mp hop).1
  have hi : Issued s.status t a ops p c := ⟨ops.length, by rw [hdone]; rfl, hp, hop⟩
  refine (h.landed t a ops p c hi).resolve_left ?_
  rintro ⟨f, hf, rfl, -⟩
  obtain ⟨b, ops', pc, hfl⟩ := h.flying f hf
  exact absurd (hdone.symm.trans hfl.running) nofun

omit [DecidableEq T] in
/-- A byte that some command has written, and to which all commands write the same. -/
theorem Inv.host_of_mem (h : Inv cfg host₀ log s) {y : BitVec 64} {v : Byte} (hmem : (y, v) ∈ log)
    (hsame : ∀ t a ops p c, Issued s.status t a ops p c →
      ∀ w ∈ c.writes (seen a (cfg.packet t) ops p), w.1 = y → w.2 = v) : s.host y = v := by
  rw [h.host]
  refine MemWrites.apply_of_mem (fun w hw hy => ?_) ⟨(y, v), hmem, rfl⟩
  obtain ⟨t, a, ops, p, c, hi, hw'⟩ := h.logged w hw
  exact hsame t a ops p c hi w hw' hy

omit [DecidableEq T] in
/-- A byte that no command asks for. -/
theorem Inv.host_of_not_mem (h : Inv cfg host₀ log s) {y : BitVec 64}
    (hno : ∀ t a ops p c, Issued s.status t a ops p c →
      ∀ w ∈ c.writes (seen a (cfg.packet t) ops p), w.1 ≠ y) : s.host y = host₀ y := by
  rw [h.host]
  refine MemWrites.apply_of_not_mem fun w hw => ?_
  obtain ⟨t, a, ops, p, c, hi, hw'⟩ := h.logged w hw
  exact hno t a ops p c hi w hw'

end Pspin.Handlers
