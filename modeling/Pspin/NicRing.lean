/-
Sequences of calls to the allocator of `NICInbound`.

`allocate_pkt_space` and `free_pkt_space` are called in any order: a packet is allocated
with a size between one byte and the buffer, and comes back once, with a size that fills
the same segments. The live packets lie apart in the buffer after any such sequence, and
no assertion fails (`live_safe`).

Space is only reclaimed where no packet cuts a ring that is empty. Such a cut leaves the
head behind every block for good; `reclaimed_iff` says that nothing else does.
-/
import Pspin.NicSpace
import Pspin.Sync

set_option autoImplicit false

namespace Pspin.NicInbound

open RingSpace (Block Ring Holds Stuck)
open RingSpace.Block (Apart)

/-! ## A ring that may be stuck -/

/-- The blocks of a ring that was cut while it was empty. -/
structure StuckSpace (p : Params) (s : State) (blocks : List Block) : Prop where
  stuck : Stuck p.l2_pkt_buff_size s.ring blocks
  count : s.in_flight_packets = blocks.length
  queue : ∀ e ∈ s.free_req_queue, (⟨e.1, e.2⟩ : Block) ∈ blocks

/-- The blocks of a ring, stuck or not. -/
def Kept (p : Params) (s : State) (blocks : List Block) : Prop :=
  Space p s blocks ∨ StuckSpace p s blocks

/-- The allocation would cut an empty ring: it does not fit behind the tail, but in front of
the head. -/
def CutsEmpty (p : Params) (s : State) (n : ℕ) : Prop :=
  s.in_flight_packets = 0 ∧ p.l2_pkt_buff_size - s.tail_ptr < round_up n
    ∧ round_up n ≤ s.head_ptr

instance (p : Params) (s : State) (n : ℕ) : Decidable (CutsEmpty p s n) :=
  inferInstanceAs (Decidable (_ ∧ _ ∧ _))

section Ring

variable {p : Params} {s s' : State} {blocks : List Block} {b : Block} {n : ℕ}
  {addr : mem_addr_t} {size : mem_size_t}

/-- The offset of an address that was made from one. -/
theorem offset_of_addr {o : ℕ} (ho : o < 2 ^ 32) :
    (p.l2_pkt_buff_start + BitVec.ofNat _ o - p.l2_pkt_buff_start).toNat = o := by
  rw [BitVec.add_comm, BitVec.add_sub_cancel, BitVec.toNat_ofNat]
  exact Nat.mod_eq_of_lt ho

theorem Kept.apart (h : Kept p s blocks) : blocks.Pairwise Apart :=
  h.elim (·.holds.apart) (·.stuck.apart)

theorem Kept.bounds (h : Kept p s blocks) (hb : b ∈ blocks) :
    0 < b.size ∧ b.stop ≤ p.l2_pkt_buff_size :=
  h.elim (·.holds.bounds hb) (·.stuck.bounds hb)

theorem Kept.queue (h : Kept p s blocks) : ∀ e ∈ s.free_req_queue, (⟨e.1, e.2⟩ : Block) ∈ blocks :=
  h.elim (·.queue) (·.queue)

/-- A stuck ring is not empty. -/
theorem StuckSpace.in_flight_pos (h : StuckSpace p s blocks) : 0 < s.in_flight_packets := by
  rw [h.count]
  exact List.length_pos_of_ne_nil h.stuck.ne

/-- The ring is not stuck. -/
def Whole (p : Params) (s : State) : Prop := ∃ blocks, Space p s blocks

theorem StuckSpace.not_whole (h : StuckSpace p s blocks) : ¬ Whole p s := by
  rintro ⟨blocks', hspace⟩
  exact h.stuck.not_holds hspace.holds

/-- Where the head of a stuck ring is nothing was freed. -/
theorem StuckSpace.settled (h : StuckSpace p s blocks) : Settled s := by
  refine List.lookup_eq_none_iff.mpr fun e he => ?_
  rw [bne_iff_ne]
  exact (h.stuck.offset_ne (h.queue e he)).symm

/-- A grant of a stuck ring: the head does not move, so the ring still ends where it got stuck. -/
theorem StuckSpace.allocate_pkt_space (hp : p.l2_pkt_buff_size < 2 ^ 32)
    (h : StuckSpace p s blocks) (hpos : 0 < round_up n)
    (ha : allocate_pkt_space p s n = some (addr, s')) :
    StuckSpace p s' (blocks ++ [⟨(addr - p.l2_pkt_buff_start).toNat, round_up n⟩])
      ∧ s'.head_ptr = s.head_ptr ∧ s'.free_req_queue = s.free_req_queue := by
  have hle : s.tail_ptr ≤ s.head_ptr := h.stuck.tail_le
  have hhead : s.head_ptr ≤ p.l2_pkt_buff_size := h.stuck.head_le
  have hcount := h.in_flight_pos
  unfold NicInbound.allocate_pkt_space at ha
  simp only at ha
  -- the tail is not behind the head, and something is in flight
  rw [if_neg (by omega)] at ha
  split_ifs at ha with hlt hfits
  obtain ⟨rfl, rfl⟩ := Prod.mk.inj (Option.some.inj ha)
  rw [offset_of_addr (by omega)]
  refine ⟨⟨h.stuck.push hpos ?_, ?_, ?_⟩, rfl, rfl⟩
  · show s.tail_ptr + round_up n ≤ s.head_ptr
    omega
  · show s.in_flight_packets + 1 = _
    rw [h.count, List.length_append]
    rfl
  · exact fun e he => List.mem_append_left _ (h.queue e he)

/-- **How a ring gets stuck.** -/
theorem Space.cut_empty (h : Space p s blocks) (hpos : 0 < round_up n) (hcut : CutsEmpty p s n) :
    ∃ s', NicInbound.allocate_pkt_space p s n = some (p.l2_pkt_buff_start + BitVec.ofNat _ 0, s')
      ∧ StuckSpace p s' [⟨0, round_up n⟩] ∧ blocks = []
      ∧ s'.head_ptr = s.head_ptr ∧ s'.free_req_queue = s.free_req_queue := by
  obtain ⟨hzero, hroom, hwraps⟩ := hcut
  -- no packet is in flight, so the pointers meet
  have hnil : blocks = [] := List.length_eq_zero_iff.mp (h.count.symm.trans hzero)
  subst hnil
  obtain ⟨-, hptr, -, hqueue⟩ := h.of_nil
  have ha : NicInbound.allocate_pkt_space p s n = some (p.l2_pkt_buff_start + BitVec.ofNat _ 0,
      { s with
        tail_ptr := round_up n
        cut_ptr := s.tail_ptr
        cut := true
        in_flight_packets := s.in_flight_packets + 1 }) := by
    unfold NicInbound.allocate_pkt_space
    simp only
    rw [if_pos (Or.inr ⟨hptr.symm, hzero⟩), if_neg (by omega), if_pos hwraps, Nat.zero_add]
  -- the packet is at offset 0, and the head waits at the cut
  refine ⟨_, ha, ⟨Stuck.of_wrap h.holds hpos hwraps, ?_, ?_⟩, rfl, rfl, rfl⟩
  · show s.in_flight_packets + 1 = 1
    rw [hzero]
  · intro e he
    have he' : e ∈ s.free_req_queue := he
    rw [hqueue] at he'
    exact absurd he' List.not_mem_nil

/-- An empty ring with no room on either side refuses. -/
theorem Space.room (h : Space p s blocks) (hcut : ¬ CutsEmpty p s n)
    (ha : NicInbound.allocate_pkt_space p s n = some (addr, s')) :
    s.in_flight_packets = 0 → round_up n ≤ p.l2_pkt_buff_size - s.tail_ptr := by
  intro hzero
  by_contra hno
  unfold CutsEmpty at hcut
  have hnil : blocks = [] := List.length_eq_zero_iff.mp (h.count.symm.trans hzero)
  subst hnil
  have hptr := h.of_nil.2.1
  unfold NicInbound.allocate_pkt_space at ha
  simp only at ha
  rw [if_pos (Or.inr ⟨hptr.symm, hzero⟩), if_neg hno, if_neg (by omega)] at ha
  exact absurd ha (by simp)

/-- **A block is taken**, from a ring in whatever state. Only the cut of an empty ring makes
it stuck. -/
theorem Kept.allocate_pkt_space (hp : p.l2_pkt_buff_size < 2 ^ 32) (h : Kept p s blocks)
    (hpos : 0 < round_up n) (ha : allocate_pkt_space p s n = some (addr, s')) :
    Kept p s' (blocks ++ [⟨(addr - p.l2_pkt_buff_start).toNat, round_up n⟩])
      ∧ s'.head_ptr = s.head_ptr ∧ s'.free_req_queue = s.free_req_queue
      ∧ (Whole p s' ↔ Whole p s ∧ ¬ CutsEmpty p s n) := by
  rcases h with h | h
  · by_cases hcut : CutsEmpty p s n
    · obtain ⟨t, ht, hstuck, hnil, hhead, hqueue⟩ := h.cut_empty hpos hcut
      obtain ⟨hat, rfl⟩ := Prod.mk.inj (Option.some.inj (ht.symm.trans ha))
      rw [← hat, offset_of_addr (by decide), hnil]
      exact ⟨Or.inr hstuck, hhead, hqueue,
        iff_of_false hstuck.not_whole fun hc => hc.2 hcut⟩
    · obtain ⟨hspace, -, hhead, hqueue⟩ := h.allocate_pkt_space hp hpos (h.room hcut ha) ha
      exact ⟨Or.inl hspace, hhead, hqueue, iff_of_true ⟨_, hspace⟩ ⟨⟨_, h⟩, hcut⟩⟩
  · obtain ⟨hstuck, hhead, hqueue⟩ := h.allocate_pkt_space hp hpos ha
    exact ⟨Or.inr hstuck, hhead, hqueue,
      iff_of_false hstuck.not_whole fun hc => h.not_whole hc.1⟩

/-- In a stuck ring a block that comes back waits for good. -/
theorem StuckSpace.free_pkt_space (h : StuckSpace p s blocks) (hb : b ∈ blocks)
    (hoff : (addr - p.l2_pkt_buff_start).toNat = b.offset) (hsize : round_up size.toNat = b.size)
    (hfree : free_pkt_space p s addr size = some s') :
    StuckSpace p s' blocks ∧ s' = add_free_req s b.offset b.size := by
  have hadd : StuckSpace p (add_free_req s b.offset b.size) blocks := by
    refine ⟨h.stuck, h.count, fun e he => ?_⟩
    rcases List.mem_cons.mp he with rfl | he
    · exact hb
    · exact h.queue e he
  unfold NicInbound.free_pkt_space at hfree
  simp only at hfree
  split_ifs at hfree
  obtain rfl := Option.some.inj hfree
  rw [hoff, hsize]
  -- the head waits at an offset where no packet starts, so it never moves
  have hlook : (add_free_req s b.offset b.size).free_req_queue.lookup
      (add_free_req s b.offset b.size).head_ptr = none := hadd.settled
  have hstay : ∀ m, advance_head m (add_free_req s b.offset b.size)
      = add_free_req s b.offset b.size := by
    intro m
    cases m with
    | zero => rfl
    | succ m =>
      unfold advance_head
      rw [hlook]
  rw [hstay]
  exact ⟨hadd, rfl⟩

/-- **A block comes back**, to a ring in whatever state. -/
theorem Kept.free_pkt_space (h : Kept p s blocks) (hb : b ∈ blocks)
    (hoff : (addr - p.l2_pkt_buff_start).toNat = b.offset) (hsize : round_up size.toNat = b.size)
    (hfree : free_pkt_space p s addr size = some s') :
    ∃ j ≤ blocks.length, Kept p s' (blocks.drop j) ∧ Settled s'
      ∧ (∀ c ∈ blocks.take j, freed s c ∨ c.offset = b.offset)
      ∧ (∀ c ∈ blocks.drop j, freed s' c ↔ (freed s c ∨ c.offset = b.offset))
      ∧ (Whole p s' ↔ Whole p s) := by
  rcases h with h | h
  · obtain ⟨j, hj, hspace, hsettled, hgone, hkept⟩ := h.free_pkt_space hb hoff hsize hfree
    exact ⟨j, hj, Or.inl hspace, hsettled, hgone, hkept, iff_of_true ⟨_, hspace⟩ ⟨_, h⟩⟩
  · obtain ⟨hstuck, rfl⟩ := h.free_pkt_space hb hoff hsize hfree
    refine ⟨0, Nat.zero_le _, Or.inr hstuck, hstuck.settled, by simp, fun c _ => ?_,
      iff_of_false hstuck.not_whole h.not_whole⟩
    unfold freed add_free_req
    rw [List.exists_mem_cons_iff, or_comm]
    exact or_congr Iff.rfl eq_comm

/-- The block just taken is not freed. -/
theorem Kept.not_freed_last {c : Block} (h : Kept p s blocks) (h' : Kept p s' (blocks ++ [c]))
    (hqueue : s'.free_req_queue = s.free_req_queue) : ¬ freed s' c := by
  rintro ⟨e, he, heq⟩
  rw [hqueue] at he
  have hmem := h.queue e he
  have hapart := (List.pairwise_append.mp h'.apart).2.2 _ hmem c (List.mem_singleton_self c)
  have hpos := (h'.bounds (List.mem_append_left _ hmem)).1
  have hpos' := (h'.bounds (List.mem_append_right _ (List.mem_singleton_self c))).1
  exact hapart.offset_ne hpos hpos' heq

/-! ## Pointers on segments -/

theorem advance_head_tail_ptr (m : ℕ) (s : State) : (advance_head m s).tail_ptr = s.tail_ptr := by
  induction m generalizing s with
  | zero => rfl
  | succ m ih =>
      unfold advance_head
      split
      · rfl
      · rw [ih]
        rfl

theorem free_pkt_space_tail_ptr (h : free_pkt_space p s addr size = some s') :
    s'.tail_ptr = s.tail_ptr := by
  unfold free_pkt_space at h
  simp only at h
  split_ifs at h
  obtain rfl := Option.some.inj h
  exact advance_head_tail_ptr _ _

theorem dvd_round_up (n : ℕ) : NI_PKT_ADDR_ALIGNMENT ∣ round_up n := Nat.dvd_mul_left _ _

theorem allocate_pkt_space_tail_ptr (h : allocate_pkt_space p s n = some (addr, s'))
    (htail : NI_PKT_ADDR_ALIGNMENT ∣ s.tail_ptr) : NI_PKT_ADDR_ALIGNMENT ∣ s'.tail_ptr := by
  unfold allocate_pkt_space at h
  simp only at h
  split_ifs at h <;> obtain ⟨-, rfl⟩ := Prod.mk.inj (Option.some.inj h)
  · exact (Nat.dvd_add_right htail).mpr (dvd_round_up n)
  · exact (Nat.dvd_add_right (Nat.dvd_zero _)).mpr (dvd_round_up n)
  · exact (Nat.dvd_add_right htail).mpr (dvd_round_up n)

end Ring

end Pspin.NicInbound

namespace Pspin.NicRing

open RingSpace (Block)
open RingSpace.Block (Apart)
open NicInbound

/-! ## The calls -/

/-- A buffer of whole segments inside the address space. -/
structure Buffer (p : Params) : Prop where
  aligned : NI_PKT_ADDR_ALIGNMENT ∣ p.l2_pkt_buff_size
  lt : p.l2_pkt_buff_size < 2 ^ 32
  inside : p.l2_pkt_buff_start.toNat + p.l2_pkt_buff_size ≤ 2 ^ 32

/-- A live packet: the address it got and the size that was asked for. -/
structure alloc_t where
  addr : mem_addr_t
  pkt_size : ℕ
deriving DecidableEq

/-- The bytes of the packet, up to the alignment. -/
def alloc_t.bytes (x : alloc_t) : ℕ :=
  (x.pkt_size + (NI_PKT_ADDR_ALIGNMENT - 1)) / NI_PKT_ADDR_ALIGNMENT * NI_PKT_ADDR_ALIGNMENT

/-- The end of its address range. -/
def alloc_t.stop (x : alloc_t) : ℕ := x.addr.toNat + x.bytes

inductive op_t
  | alloc (pkt_size : ℕ)
  | free (x : alloc_t) (size : mem_size_t)
deriving DecidableEq

/-- The allocator, and the packets that were handed out and not freed. -/
structure Sys where
  nic : State
  live : List alloc_t

namespace Sys

/-- A call. An allocation may fail; a free that fails an assertion changes nothing here. -/
def step (p : Params) (s : Sys) : op_t → Sys
  | .alloc pkt_size =>
    match allocate_pkt_space p s.nic pkt_size with
    | none => s
    | some (addr, nic) => ⟨nic, s.live ++ [⟨addr, pkt_size⟩]⟩
  | .free x size =>
    match free_pkt_space p s.nic x.addr size with
    | none => s
    | some nic => ⟨nic, s.live.erase x⟩

/-- After reset no packet is out. -/
def init (s : Sys) : Prop := (∃ her_o, s.nic = reset her_o) ∧ s.live = []

/-- A packet has bytes and is no larger than the buffer. It comes back while it is live, with
a size that fills its segments. -/
def allowed (p : Params) (s : Sys) : op_t → Prop
  | .alloc pkt_size => 0 < pkt_size ∧ pkt_size ≤ p.l2_pkt_buff_size
  | .free x size => x ∈ s.live ∧ round_up size.toNat = x.bytes

instance (p : Params) (s : Sys) (op : op_t) : Decidable (allowed p s op) := by
  cases op <;> exact inferInstanceAs (Decidable (_ ∧ _))

/-- The call does not cut an empty ring. -/
def Careful (p : Params) (s : Sys) : op_t → Prop
  | .alloc pkt_size => ¬ CutsEmpty p s.nic pkt_size
  | .free _ _ => True

instance (p : Params) (s : Sys) (op : op_t) : Decidable (Careful p s op) := by
  cases op
  · exact inferInstanceAs (Decidable (¬ _))
  · exact inferInstanceAs (Decidable True)

/-- The live packets lie in the buffer, apart from each other, and every one of them can be
freed: no assertion fails. -/
structure Safe (p : Params) (s : Sys) : Prop where
  inside : ∀ x ∈ s.live, p.l2_pkt_buff_start ≤ x.addr
    ∧ x.stop ≤ p.l2_pkt_buff_start.toNat + p.l2_pkt_buff_size
  apart : s.live.Pairwise fun x y => x.stop ≤ y.addr.toNat ∨ y.stop ≤ x.addr.toNat
  frees : ∀ x ∈ s.live, ∀ size, (free_pkt_space p s.nic x.addr size).isSome = true

/-- Nothing is left in the ring, and half of the buffer can be had in one piece. -/
structure Reclaimed (p : Params) (s : State) : Prop where
  free_req_queue : s.free_req_queue = []
  in_flight_packets : s.in_flight_packets = 0
  head_ptr : s.head_ptr = s.tail_ptr
  alloc : ∀ n, 0 < n → 2 * n ≤ p.l2_pkt_buff_size → (allocate_pkt_space p s n).isSome = true

/-! ## The invariant -/

def block (p : Params) (x : alloc_t) : Block := ⟨(x.addr - p.l2_pkt_buff_start).toNat, x.bytes⟩

/-- The live packets are the blocks of the ring that did not come back. -/
structure Live (p : Params) (s : Sys) (blocks : List Block) : Prop where
  mem : ∀ x ∈ s.live, block p x ∈ blocks ∧ ¬ freed s.nic (block p x)
  all : ∀ b ∈ blocks, ¬ freed s.nic b → ∃ x ∈ s.live, block p x = b
  apart : s.live.Pairwise fun x y => Apart (block p x) (block p y)

/-- The packets that are out are blocks of the ring. -/
structure Inv (p : Params) (s : Sys) : Prop where
  settled : Settled s.nic
  aligned : NI_PKT_ADDR_ALIGNMENT ∣ s.nic.tail_ptr
  blocks : ∃ blocks, Kept p s.nic blocks ∧ Live p s blocks

variable {p : Params} {s : Sys} {op : op_t}

/-- With sizes up to the buffer the sum in `round_up` stays in its type. -/
theorem round_up_eq (hp : Buffer p) {n : ℕ} (hn : n ≤ p.l2_pkt_buff_size) :
    round_up n = (n + (NI_PKT_ADDR_ALIGNMENT - 1)) / NI_PKT_ADDR_ALIGNMENT * NI_PKT_ADDR_ALIGNMENT := by
  obtain ⟨k, hk⟩ := hp.aligned
  have hlt := hp.lt
  unfold NI_PKT_ADDR_ALIGNMENT at hk
  unfold round_up NI_PKT_ADDR_ALIGNMENT
  rw [Nat.mod_eq_of_lt (by omega)]
  rfl

theorem init_inv (h : init s) : Inv p s := by
  obtain ⟨⟨her_o, hnic⟩, hlive⟩ := h
  refine ⟨?_, ?_, [], Or.inl ?_, ?_, ?_, ?_⟩
  · rw [hnic]
    rfl
  · rw [hnic]
    exact Nat.dvd_zero _
  · rw [hnic]
    exact ⟨.straight rfl (Nat.zero_le _), rfl, fun e he => absurd he List.not_mem_nil⟩
  · rw [hlive]
    exact fun x hx => absurd hx List.not_mem_nil
  · exact fun b hb => absurd hb List.not_mem_nil
  · rw [hlive]
    exact List.Pairwise.nil

/-- Packets that are out differ. -/
theorem Live.nodup {blocks : List Block} (hk : Kept p s.nic blocks) (h : Live p s blocks) :
    s.live.Nodup := by
  refine (List.pairwise_iff_getElem.mpr fun i j hi hj hij => ?_)
  have hapart := List.pairwise_iff_getElem.mp h.apart i j hi hj hij
  intro heq
  have hpos := (hk.bounds (h.mem _ (List.getElem_mem hi)).1).1
  have hpos' := (hk.bounds (h.mem _ (List.getElem_mem hj)).1).1
  exact hapart.offset_ne hpos hpos' (congrArg (fun x => (block p x).offset) heq)

/-- Another live packet begins elsewhere. -/
theorem Live.offset_ne {blocks : List Block} (hk : Kept p s.nic blocks) (h : Live p s blocks)
    {x y : alloc_t} (hx : x ∈ s.live) (hy : y ∈ s.live) (hne : x ≠ y) :
    (block p x).offset ≠ (block p y).offset := by
  have hsymm : Std.Symm fun x y => Apart (block p x) (block p y) := ⟨fun _ _ => Apart.symm⟩
  have hapart : Apart (block p x) (block p y) := h.apart.forall hx hy hne
  exact hapart.offset_ne (hk.bounds (h.mem _ hx).1).1 (hk.bounds (h.mem _ hy).1).1

/-- **An allocation.** -/
theorem Inv.alloc (hp : Buffer p) (h : Inv p s) {n : ℕ} (ha : allowed p s (.alloc n)) :
    Inv p (step p s (.alloc n))
      ∧ (Whole p (step p s (.alloc n)).nic ↔ Whole p s.nic ∧ ¬ CutsEmpty p s.nic n) := by
  obtain ⟨hn, hle⟩ := ha
  have hbytes := round_up_eq hp hle
  have hpos : 0 < round_up n := by
    rw [hbytes]
    unfold NI_PKT_ADDR_ALIGNMENT
    omega
  obtain ⟨blocks, hk, hlive⟩ := h.blocks
  cases halloc : allocate_pkt_space p s.nic n with
  | none =>
      have hstep : step p s (.alloc n) = s := by simp only [step, halloc]
      rw [hstep]
      refine ⟨h, ⟨fun hw => ⟨hw, fun hcut => ?_⟩, And.left⟩⟩
      -- the ring that would be cut has room
      obtain ⟨bs, hspace⟩ := hw
      obtain ⟨t, ht, -⟩ := hspace.cut_empty hpos hcut
      exact absurd (ht.symm.trans halloc) (Option.some_ne_none _)
  | some r =>
      obtain ⟨addr, nic⟩ := r
      have hstep : step p s (.alloc n) = ⟨nic, s.live ++ [⟨addr, n⟩]⟩ := by
        simp only [step, halloc]
      rw [hstep]
      obtain ⟨hk', hhead, hqueue, hwhole⟩ := hk.allocate_pkt_space hp.lt hpos halloc
      have hblock : block p ⟨addr, n⟩ = ⟨(addr - p.l2_pkt_buff_start).toNat, round_up n⟩ := by
        unfold block alloc_t.bytes
        rw [hbytes]
      rw [← hblock] at hk'
      have hfreed : ∀ b, freed nic b ↔ freed s.nic b := by
        intro b
        unfold freed
        rw [hqueue]
      have hlast := hk.not_freed_last hk' hqueue
      refine ⟨⟨?_, allocate_pkt_space_tail_ptr halloc h.aligned, _, hk', ?_, ?_, ?_⟩, hwhole⟩
      · show nic.free_req_queue.lookup nic.head_ptr = none
        rw [hhead, hqueue]
        exact h.settled
      · intro x hx
        rcases List.mem_append.mp hx with hx | hx
        · obtain ⟨hmem, hnot⟩ := hlive.mem x hx
          exact ⟨List.mem_append_left _ hmem, fun hc => hnot ((hfreed _).mp hc)⟩
        · obtain rfl := List.mem_singleton.mp hx
          exact ⟨List.mem_append_right _ (List.mem_singleton_self _), hlast⟩
      · intro b hb hnot
        rcases List.mem_append.mp hb with hb | hb
        · obtain ⟨x, hx, heq⟩ := hlive.all b hb fun hc => hnot ((hfreed b).mpr hc)
          exact ⟨x, List.mem_append_left _ hx, heq⟩
        · obtain rfl := List.mem_singleton.mp hb
          exact ⟨_, List.mem_append_right _ (List.mem_singleton_self _), rfl⟩
      · refine List.pairwise_append.mpr ⟨hlive.apart, List.pairwise_singleton _ _, ?_⟩
        intro x hx y hy
        obtain rfl := List.mem_singleton.mp hy
        have hall := (List.pairwise_append.mp hk'.apart).2.2
        exact hall _ (hlive.mem x hx).1 _ (List.mem_singleton_self _)

/-- **A free.** -/
theorem Inv.free (h : Inv p s) {x : alloc_t} {size : mem_size_t}
    (ha : allowed p s (.free x size)) : Inv p (step p s (.free x size))
      ∧ (Whole p (step p s (.free x size)).nic ↔ Whole p s.nic) := by
  obtain ⟨hx, hsize⟩ := ha
  obtain ⟨blocks, hk, hlive⟩ := h.blocks
  cases hfree : free_pkt_space p s.nic x.addr size with
  | none =>
      have hstep : step p s (.free x size) = s := by simp only [step, hfree]
      rw [hstep]
      exact ⟨h, Iff.rfl⟩
  | some nic =>
      have hstep : step p s (.free x size) = ⟨nic, s.live.erase x⟩ := by simp only [step, hfree]
      rw [hstep]
      obtain ⟨hmem, hnot⟩ := hlive.mem x hx
      obtain ⟨j, hj, hk', hsettled, hgone, hkept, hwhole⟩ :=
        hk.free_pkt_space hmem rfl hsize hfree
      have htail : nic.tail_ptr = s.nic.tail_ptr := free_pkt_space_tail_ptr hfree
      have herase : ∀ y, y ∈ s.live.erase x ↔ y ≠ x ∧ y ∈ s.live :=
        fun y => (hlive.nodup hk).mem_erase_iff
      refine ⟨⟨hsettled, ?_, _, hk', ?_, ?_, ?_⟩, hwhole⟩
      · show _ ∣ nic.tail_ptr
        rw [htail]
        exact h.aligned
      · intro y hy
        obtain ⟨hne, hy⟩ := (herase y).mp hy
        obtain ⟨hmem', hnot'⟩ := hlive.mem y hy
        -- neither freed before nor in the place of the freed packet
        have hstill : ¬ (freed s.nic (block p y) ∨ (block p y).offset = (block p x).offset) := by
          rintro (hc | hc)
          · exact hnot' hc
          · exact hlive.offset_ne hk hy hx hne hc
        have hdrop : block p y ∈ blocks.drop j := by
          rw [← List.take_append_drop j blocks] at hmem'
          rcases List.mem_append.mp hmem' with hc | hc
          · exact absurd (hgone _ hc) hstill
          · exact hc
        exact ⟨hdrop, fun hc => hstill ((hkept _ hdrop).mp hc)⟩
      · intro b hb hnot'
        have hstill : ¬ (freed s.nic b ∨ b.offset = (block p x).offset) :=
          fun hc => hnot' ((hkept b hb).mpr hc)
        obtain ⟨y, hy, rfl⟩ := hlive.all b (List.mem_of_mem_drop hb) fun hc => hstill (Or.inl hc)
        refine ⟨y, (herase y).mpr ⟨?_, hy⟩, rfl⟩
        rintro rfl
        exact hstill (Or.inr rfl)
      · exact hlive.apart.sublist List.erase_sublist

theorem step_inv (hp : Buffer p) (h : Inv p s) (ha : allowed p s op) : Inv p (step p s op) := by
  cases op with
  | alloc n => exact (h.alloc hp ha).1
  | free x size => exact (h.free ha).1

/-- The ring stays whole exactly when the call is careful. -/
theorem step_whole (hp : Buffer p) (h : Inv p s) (ha : allowed p s op) :
    Whole p (step p s op).nic ↔ Whole p s.nic ∧ Careful p s op := by
  cases op with
  | alloc n => exact (h.alloc hp ha).2
  | free x size => exact (h.free ha).2.trans (and_iff_left trivial).symm

theorem inv_reach (hp : Buffer p) (h : Sync.Reach init (step p) (allowed p) s) : Inv p s :=
  Sync.Reach.inv (P := Inv p) (fun _ hs => init_inv hs) (fun _ _ hi ha => step_inv hp hi ha) h

theorem run_inv (hp : Buffer p) {ops : List op_t} (h : Inv p s)
    (ha : Sync.Allowed (step p) (allowed p) s ops) : Inv p (Sync.run (step p) s ops) :=
  (Sync.Always.of_inv (fun _ _ hi he => step_inv hp hi he) h ha).last

/-! ## No packet over another -/

/-- A packet that is out lies in the buffer. -/
theorem Live.bounds (hp : Buffer p) {blocks : List Block} (hk : Kept p s.nic blocks)
    (h : Live p s blocks) {x : alloc_t} (hx : x ∈ s.live) :
    x.addr.toNat = p.l2_pkt_buff_start.toNat + (block p x).offset
      ∧ (block p x).offset + x.bytes ≤ p.l2_pkt_buff_size := by
  have hstop := (hk.bounds (h.mem x hx).1).2
  refine ⟨?_, hstop⟩
  have hinside := hp.inside
  have hsub : (x.addr - p.l2_pkt_buff_start).toNat + x.bytes ≤ p.l2_pkt_buff_size := hstop
  have haddr : p.l2_pkt_buff_start + (x.addr - p.l2_pkt_buff_start) = x.addr := by
    rw [BitVec.add_comm, BitVec.sub_add_cancel]
  have hpos : 0 < x.bytes := (hk.bounds (h.mem x hx).1).1
  have hsum := congrArg BitVec.toNat haddr
  have hwidth : 2 ^ C_ADDR_WIDTH = 2 ^ 32 := rfl
  rw [BitVec.toNat_add, Nat.mod_eq_of_lt (by omega)] at hsum
  exact hsum.symm

/-- What the invariant says of the packets. -/
theorem Inv.safe (hp : Buffer p) (h : Inv p s) : Safe p s := by
  obtain ⟨blocks, hk, hlive⟩ := h.blocks
  -- a packet lies in the buffer
  refine ⟨fun x hx => ?_, ?_, fun x hx size => ?_⟩
  · obtain ⟨haddr, hstop⟩ := hlive.bounds hp hk hx
    refine ⟨BitVec.le_def.mpr ?_, ?_⟩
    · omega
    · unfold alloc_t.stop
      omega
  · -- two packets share no byte
    refine hlive.apart.imp_of_mem fun {x y} hx hy hapart => ?_
    obtain ⟨haddr, -⟩ := hlive.bounds hp hk hx
    obtain ⟨haddr', -⟩ := hlive.bounds hp hk hy
    unfold Apart Block.stop at hapart
    have hbytes : (block p x).size = x.bytes := rfl
    have hbytes' : (block p y).size = y.bytes := rfl
    unfold alloc_t.stop
    omega
  · -- and one that is out has not been given back, so giving it back passes the assertions
    obtain ⟨haddr, -⟩ := hlive.bounds hp hk hx
    have hnot := (hlive.mem x hx).2
    have hlook : s.nic.free_req_queue.lookup (x.addr - p.l2_pkt_buff_start).toNat = none := by
      refine List.lookup_eq_none_iff.mpr fun e he => ?_
      rw [bne_iff_ne]
      exact fun hc => hnot ⟨e, he, hc.symm⟩
    have hge : ¬ x.addr < p.l2_pkt_buff_start := by
      rw [BitVec.lt_def]
      omega
    unfold free_pkt_space
    simp only
    rw [hlook, if_neg (by simp [hge])]
    rfl

/-- **The packets are safe.** After any sequence of allocations and frees the live packets
lie in the buffer, no two of them share a byte, and none fails an assertion when it comes
back. -/
theorem live_safe (hp : Buffer p) (h : Sync.Reach init (step p) (allowed p) s) : Safe p s :=
  (inv_reach hp h).safe hp

/-! ## Space that comes back -/

/-- In an empty ring one side has half of the buffer. -/
theorem half_fits (hp : Buffer p) {s : State} (h : Space p s [])
    (halign : NI_PKT_ADDR_ALIGNMENT ∣ s.tail_ptr) {n : ℕ} (hn : 2 * n ≤ p.l2_pkt_buff_size) :
    (allocate_pkt_space p s n).isSome = true := by
  obtain ⟨hzero, hptr, -, -⟩ := h.of_nil
  have hround := round_up_eq hp (n := n) (by omega)
  obtain ⟨k, hk⟩ := hp.aligned
  obtain ⟨m, hm⟩ := halign
  unfold NI_PKT_ADDR_ALIGNMENT at hround hk hm
  unfold allocate_pkt_space
  simp only
  rw [if_pos (Or.inr ⟨hptr.symm, hzero⟩)]
  split_ifs with hbehind hfront
  · rfl
  · rfl
  · exfalso
    omega

/-- **A whole ring without live packets is empty.** The head would be at a freed block. -/
theorem Inv.reclaimed (hp : Buffer p) (h : Inv p s) (hw : Whole p s.nic) (hlive : s.live = []) :
    Reclaimed p s.nic := by
  obtain ⟨blocks, hk, hl⟩ := h.blocks
  rcases hk with hspace | hstuck
  · cases blocks with
    | nil =>
        obtain ⟨hzero, hptr, -, hqueue⟩ := hspace.of_nil
        exact ⟨hqueue, hzero, hptr, fun n _ hn => half_fits hp hspace h.aligned hn⟩
    | cons b rest =>
        exfalso
        have hfreed : freed s.nic b := by
          by_contra hnot
          obtain ⟨x, hx, -⟩ := hl.all b List.mem_cons_self hnot
          rw [hlive] at hx
          exact absurd hx List.not_mem_nil
        obtain ⟨e, he, heq⟩ := hfreed
        have hhead : b.offset = s.nic.head_ptr := hspace.holds.head_eq
        have hnone := List.lookup_eq_none_iff.mp h.settled e he
        rw [bne_iff_ne] at hnone
        exact hnone (hhead.symm.trans heq.symm)
  · exact absurd hw hstuck.not_whole

/-- A stuck ring keeps its packets. -/
theorem Inv.whole (h : Inv p s) (hr : Reclaimed p s.nic) : Whole p s.nic := by
  obtain ⟨blocks, hk, -⟩ := h.blocks
  rcases hk with hspace | hstuck
  · exact ⟨blocks, hspace⟩
  · have hpos := hstuck.in_flight_pos
    rw [hr.in_flight_packets] at hpos
    exact absurd hpos (Nat.lt_irrefl 0)

/-- **Exactly the careful calls.** After a sequence of allocations and frees in which every
packet came back, the ring is empty, with half of the buffer in one piece, if and only if no
allocation has cut an empty ring. -/
theorem reclaimed_iff (hp : Buffer p) {ops : List op_t} (hs : init s)
    (ha : Sync.Allowed (step p) (allowed p) s ops) (hlive : (Sync.run (step p) s ops).live = []) :
    Reclaimed p (Sync.run (step p) s ops).nic ↔ Sync.Allowed (step p) (Careful p) s ops := by
  have hinv : Inv p s := init_inv hs
  have hend := run_inv hp hinv ha
  have hstart : Whole p s.nic := by
    obtain ⟨⟨her_o, hnic⟩, -⟩ := hs
    rw [hnic]
    exact ⟨[], .straight rfl (Nat.zero_le _), rfl, fun e he => absurd he List.not_mem_nil⟩
  have hrun := Sync.run_iff (P := fun s : Sys => Whole p s.nic)
    (fun _ _ hi he => step_inv hp hi he) (fun _ _ hi he => step_whole hp hi he) hinv ha
  rw [and_iff_right hstart] at hrun
  rw [← hrun]
  exact ⟨fun hr => hend.whole hr, fun hw => hend.reclaimed hp hw hlive⟩

/-! ## Runs -/

/-- A buffer of two segments. -/
def demo_params : Params := ⟨0x1c100000#32, 128⟩

/-- What the HER lines hold before the first packet. -/
def demo_meta : mpq_meta_t := ⟨0, 0, 0, 0, 0, 0, 0, 0, 0, 0, fun _ => 0, fun _ => 0⟩

def demo_start : Sys := ⟨reset ⟨0, false, 0, 0, 0, demo_meta⟩, []⟩

/-- A packet of each of two sizes; the second comes when the first is gone. -/
def demo_ops : List op_t :=
  [.alloc 60, .alloc 64, .free ⟨0x1c100000#32, 60⟩ 60#32, .alloc 1]

theorem live_safe_demo : Buffer demo_params
    ∧ Sync.Reach init (step demo_params) (allowed demo_params)
      (Sync.run (step demo_params) demo_start demo_ops)
    ∧ Safe demo_params (Sync.run (step demo_params) demo_start demo_ops) := by
  have hp : Buffer demo_params := ⟨by decide, by decide, by decide⟩
  have hreach : Sync.Reach init (step demo_params) (allowed demo_params)
      (Sync.run (step demo_params) demo_start demo_ops) :=
    Sync.Reach.run (.reset ⟨⟨_, rfl⟩, rfl⟩) (by decide +kernel)
  exact ⟨hp, hreach, live_safe hp hreach⟩

/-- The packet behind the cut is the last one to come back, out of order. -/
def careful_ops : List op_t :=
  demo_ops ++ [.free ⟨0x1c100000#32, 1⟩ 1#32, .free ⟨0x1c100040#32, 64⟩ 64#32]

theorem reclaimed_iff_demo :
    Reclaimed demo_params (Sync.run (step demo_params) demo_start careful_ops).nic :=
  (reclaimed_iff ⟨by decide, by decide, by decide⟩ ⟨⟨_, rfl⟩, rfl⟩ (by decide +kernel)
    (by decide +kernel)).mpr (by decide +kernel)

/-- `L2_PKT_BUFF_START` and `L2_PKT_BUFF_SIZE`. -/
def l2_params : Params := ⟨0x1c100000#32, 512 * 1024⟩

/-- The whole buffer is taken and comes back: the ring is empty, at the end of the buffer.
The next packet goes to the front, and comes back too. -/
def cutting_ops : List op_t :=
  [.alloc 524288, .free ⟨0x1c100000#32, 524288⟩ 524288#32,
    .alloc 64, .free ⟨0x1c100000#32, 64⟩ 64#32]

/-- **Space is lost for good** when an empty ring is cut: nothing is live, and one packet
still counts as in flight. -/
theorem cut_empty_ring : ¬ ∀ (p : Params) (s : Sys) (ops : List op_t), Buffer p → init s →
    Sync.Allowed (step p) (allowed p) s ops → (Sync.run (step p) s ops).live = [] →
    Reclaimed p (Sync.run (step p) s ops).nic := by
  intro hall
  have hrun := hall l2_params demo_start cutting_ops ⟨by decide, by decide, by decide⟩
    ⟨⟨_, rfl⟩, rfl⟩ (by decide +kernel) (by decide +kernel)
  have hzero := hrun.in_flight_packets
  revert hzero
  decide +kernel

end Sys

end Pspin.NicRing
