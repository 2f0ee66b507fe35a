/-
`NICInbound`: the model of the NIC that drives the HER and feedback ports.

Packets come from the application, wait, get space in the L2 ring and are written by
DMA. A packet whose write has completed is ready; its HER is driven onto the port after
a rising edge and sampled by the engine at the next one. The model samples the feedback
address lines after every edge and frees the packet it finds there.

The AXI master under the DMA writes is not part of this file: its answer that the
write of the oldest queued packet has completed is an input. Payload bytes and the
statistics are left out. A failing `assert` ends the simulation, so the functions that
assert return `none` there.
-/
import Mathlib.Logic.Function.Basic
import Mathlib.Tactic.Common
import Pspin.Config

set_option autoImplicit false

namespace Pspin.NicInbound

/-- Packets begin at lines of 64 bytes. -/
def NI_PKT_ADDR_ALIGNMENT : ℕ := 64

/-- The packet buffer in L2. -/
structure Params where
  l2_pkt_buff_start : mem_addr_t
  l2_pkt_buff_size : ℕ

/-- The HER with the two fields that stay on the host side. -/
structure nic_her_t extends her_descr_t where
  user_ptr : ℕ
  nic_arrival_time : ℕ
deriving DecidableEq

/-- A packet that waits to arrive: its HER, its length and the cycles until it is there. -/
structure incoming_her_t where
  her : nic_her_t
  pkt_len : ℕ
  wait_cycles : ℕ
deriving DecidableEq

/-- What is remembered of a packet until its feedback. -/
structure pktentry_t where
  nic_arrival_time : ℕ
  pspin_arrival_time : ℕ
  size : mem_size_t
  user_ptr : ℕ
deriving DecidableEq

/-- The model's variables, and the lines it drives. -/
structure State where
  her_valid_o : Bool
  her_o : her_descr_t
  eos_o : Bool
  hers_to_send : ℕ
  incoming_hers : List incoming_her_t
  queued_hers : List nic_her_t
  ready_hers : List nic_her_t
  packet_wait_cycles : ℕ
  head_ptr : ℕ
  tail_ptr : ℕ
  cut_ptr : ℕ
  cut : Bool
  in_flight_packets : ℕ
  free_req_queue : List (ℕ × ℕ)
  app_sent_eos : Bool
  pktmap : mem_addr_t → Option pktentry_t

/-- What `posedge` reads from the ports, and the answer of the AXI driver. -/
structure Input where
  pspin_active_i : Bool
  her_ready_i : Bool
  feedback_her_addr_i : mem_addr_t
  feedback_her_size_i : mem_size_t
  write_completed : Bool
  sim_time : ℕ

/-- The constructor. The HER lines come up with whatever the testbench holds. -/
def reset (her_o : her_descr_t) : State where
  her_valid_o := false
  her_o := her_o
  eos_o := false
  hers_to_send := 0
  incoming_hers := []
  queued_hers := []
  ready_hers := []
  packet_wait_cycles := 0
  head_ptr := 0
  tail_ptr := 0
  cut_ptr := 0
  cut := false
  in_flight_packets := 0
  free_req_queue := []
  app_sent_eos := false
  pktmap := fun _ => none

/-! ## The application side -/

/-- The application adds a packet. -/
def add_packet (s : State) (ih : incoming_her_t) : State :=
  { s with incoming_hers := s.incoming_hers ++ [ih], hers_to_send := s.hers_to_send + 1 }

def set_eos (s : State) : State := { s with app_sent_eos := true }

/-- The application's calls between two edges. -/
def app_calls (s : State) (packets : List incoming_her_t) (eos : Bool) : State :=
  let s' := packets.foldl add_packet s
  if eos then set_eos s' else s'

/-! ## The L2 ring -/

/-- Up to the next multiple of the alignment, in 32 bits. -/
def round_up (size : ℕ) : ℕ :=
  (size + NI_PKT_ADDR_ALIGNMENT - 1) % 2 ^ 32 / NI_PKT_ADDR_ALIGNMENT * NI_PKT_ADDR_ALIGNMENT

/-- `allocate_pkt_space`: the address, and the state with the pointers moved. -/
def allocate_pkt_space (p : Params) (s : State) (pkt_size : ℕ) : Option (mem_addr_t × State) :=
  let size := round_up pkt_size
  let take (s : State) : mem_addr_t × State :=
    (p.l2_pkt_buff_start + BitVec.ofNat _ s.tail_ptr,
      { s with tail_ptr := s.tail_ptr + size, in_flight_packets := s.in_flight_packets + 1 })
  if s.head_ptr < s.tail_ptr ∨ (s.tail_ptr = s.head_ptr ∧ s.in_flight_packets = 0) then
    if size ≤ p.l2_pkt_buff_size - s.tail_ptr then some (take s)
    -- no room up to the end: that end is cut off, and the packet goes to the front
    else if size ≤ s.head_ptr then
      some (take { s with cut_ptr := s.tail_ptr, cut := true, tail_ptr := 0 })
    else none
  else if s.tail_ptr < s.head_ptr then
    -- the free bytes are between the tail and the head
    if size ≤ s.head_ptr - s.tail_ptr then some (take s) else none
  else none

/-- One round of the loop in `free_pkt_space`: the packet at the head goes. -/
def retire_head (s : State) (head_ptr_increase : ℕ) : State :=
  let head := s.head_ptr + head_ptr_increase
  -- behind the cut the head goes on at the front
  let at_cut := s.cut && head == s.cut_ptr
  { s with
    free_req_queue := s.free_req_queue.filter (·.1 != s.head_ptr)
    head_ptr := if at_cut then 0 else head
    cut := s.cut && !at_cut
    in_flight_packets := s.in_flight_packets - 1 }

/-- The loop: the head moves over every freed packet it meets. Each round takes an entry
out of the queue, so the length of the queue bounds the rounds. -/
def advance_head : ℕ → State → State
  | 0, s => s
  | n + 1, s =>
    match s.free_req_queue.lookup s.head_ptr with
    | none => s
    | some head_ptr_increase => advance_head n (retire_head s head_ptr_increase)

/-- A free waits at the front of the queue. -/
def add_free_req (s : State) (offset size : ℕ) : State :=
  { s with free_req_queue := (offset, size) :: s.free_req_queue }

/-- `free_pkt_space`: the size is the one of the feedback. -/
def free_pkt_space (p : Params) (s : State) (addr : mem_addr_t) (size : mem_size_t) :
    Option State :=
  let offset := (addr - p.l2_pkt_buff_start).toNat
  -- the two assertions: the address is in the buffer, and not freed already
  if addr < p.l2_pkt_buff_start ∨ (s.free_req_queue.lookup offset).isSome then none
  else
    let s' := add_free_req s offset (round_up size.toNat)
    some (advance_head s'.free_req_queue.length s')

/-! ## A rising edge -/

/-- `progress_axi_write_responses`: the oldest queued packet becomes ready. -/
def progress_axi_write_responses (s : State) (write_completed : Bool) : Option State :=
  if write_completed then
    match s.queued_hers with
    | [] => none
    | her :: rest => some { s with queued_hers := rest, ready_hers := s.ready_hers ++ [her] }
  else some s

/-- A packet that has arrived gets its place, and its HER waits for the data. -/
def process_packet (p : Params) (s : State) (ih : incoming_her_t) (sim_time : ℕ) :
    Option State :=
  match allocate_pkt_space p s ih.pkt_len with
  | none => none
  | some (pkt_addr, s') =>
    let her := { ih.her with her_addr := pkt_addr, nic_arrival_time := sim_time }
    some { s' with queued_hers := s'.queued_hers ++ [her] }

/-- `progress_incoming_packets`. A packet that finds no space keeps its wait cycles: the
source assigns the old value back over its decrement. -/
def progress_incoming_packets (p : Params) (s : State) (sim_time : ℕ) : State :=
  match s.incoming_hers with
  | [] => s
  | ih :: rest =>
    let s := { s with packet_wait_cycles := s.packet_wait_cycles - 1 }
    if 0 < s.packet_wait_cycles then s
    else
      match process_packet p s ih sim_time with
      | some s' => { s' with packet_wait_cycles := ih.wait_cycles, incoming_hers := rest }
      | none => s

/-- `her_progress_posedge`: sample ready for what the lines show, then drive the next HER.

The source also indexes elements 2 and 3 of the arrays of scratchpad lines, which have one
element for each of the two clusters and so end before. What these accesses do is not defined
by the language. With the usual layout the pointers to the size lines are overwritten when the
ports are assigned, so that the sizes of the scratchpads are not driven, and `user_ptr`, which
follows the HER in its record, is written to the lines `pspin_active` and `feedback_valid`,
which are outputs of the design. The model drives the fields of the HER as they are named and
leaves these accesses out; no result reads the scratchpad lines. -/
def her_progress_posedge (s : State) (i : Input) : Option State :=
  let s := { s with her_valid_o := false }
  if !i.her_ready_i then some s
  else
    match s.ready_hers with
    | [] => some s
    | her :: rest =>
      -- the assertion that no packet is at this address
      if (s.pktmap her.her_addr).isSome then none
      else
        let pktentry : pktentry_t :=
          ⟨her.nic_arrival_time, i.sim_time, her.her_size, her.user_ptr⟩
        let hers_to_send := s.hers_to_send - 1
        some { s with
          her_o := her.toher_descr_t
          her_valid_o := true
          hers_to_send := hers_to_send
          ready_hers := rest
          pktmap := Function.update s.pktmap her.her_addr (some pktentry)
          eos_o := s.eos_o || (hers_to_send == 0 && s.app_sent_eos) }

/-- `feedback_progress`: whatever the address lines show is freed, when it is a packet of
the map. The test of the valid and ready lines is commented out in the source. -/
def feedback_progress (p : Params) (s : State) (i : Input) : Option State :=
  if (s.pktmap i.feedback_her_addr_i).isSome then
    match free_pkt_space p s i.feedback_her_addr_i i.feedback_her_size_i with
    | none => none
    | some s' => some { s' with pktmap := Function.update s'.pktmap i.feedback_her_addr_i none }
  else some s

/-- The part of `posedge` before the HER is driven. -/
def progress_packets (p : Params) (s : State) (i : Input) : Option State :=
  match progress_axi_write_responses s i.write_completed with
  | none => none
  | some s' => some (progress_incoming_packets p s' i.sim_time)

/-- The state in which `feedback_progress` looks at the lines. -/
def before_feedback (p : Params) (s : State) (i : Input) : Option State :=
  (progress_packets p s i).bind (fun s' => her_progress_posedge s' i)

/-- The rising edge, once PsPIN is active. -/
def posedge (p : Params) (s : State) (i : Input) : Option State :=
  if i.pspin_active_i then (before_feedback p s i).bind (fun s' => feedback_progress p s' i)
  else some s

/-! ## What each part leaves alone

The ring and the DMA queues on the one side, the HER port on the other. -/

/-- Same HER port, same ready HERs, same packets on the way. -/
structure SamePort (s s' : State) : Prop where
  her_valid_o : s'.her_valid_o = s.her_valid_o
  her_o : s'.her_o = s.her_o
  ready_hers : s'.ready_hers = s.ready_hers
  pktmap : s'.pktmap = s.pktmap

/-- The parts of a cycle that leave the HER port alone: none. -/
theorem SamePort.refl (s : State) : SamePort s s := ⟨rfl, rfl, rfl, rfl⟩

theorem SamePort.trans {s s' s'' : State} (h : SamePort s s') (h' : SamePort s' s'') :
    SamePort s s'' :=
  ⟨h'.her_valid_o.trans h.her_valid_o, h'.her_o.trans h.her_o, h'.ready_hers.trans h.ready_hers,
    h'.pktmap.trans h.pktmap⟩

section Frame

variable {p : Params} {s s' : State} {i : Input}

/-- The application's calls touch the incoming packets and nothing else. -/
theorem app_calls_eq (s : State) (packets : List incoming_her_t) (eos : Bool) :
    app_calls s packets eos = { s with
      incoming_hers := s.incoming_hers ++ packets
      hers_to_send := s.hers_to_send + packets.length
      app_sent_eos := s.app_sent_eos || eos } := by
  have hadd : ∀ s : State, packets.foldl add_packet s = { s with
      incoming_hers := s.incoming_hers ++ packets
      hers_to_send := s.hers_to_send + packets.length } := by
    induction packets with
    | nil =>
        intro s
        rw [List.append_nil]
        rfl
    | cons ih packets hrec =>
        intro s
        rw [List.foldl_cons, hrec, List.length_cons, Nat.add_comm packets.length, ← Nat.add_assoc,
          List.append_cons]
        rfl
  unfold app_calls
  rw [hadd]
  cases eos
  · rw [Bool.or_false]
    rfl
  · rw [Bool.or_true]
    rfl

theorem app_calls_port (s : State) (packets : List incoming_her_t) (eos : Bool) :
    SamePort s (app_calls s packets eos)
      ∧ (app_calls s packets eos).queued_hers = s.queued_hers := by
  rw [app_calls_eq]
  exact ⟨⟨rfl, rfl, rfl, rfl⟩, rfl⟩

theorem advance_head_port (n : ℕ) : ∀ s, SamePort s (advance_head n s) := by
  induction n with
  | zero => exact SamePort.refl
  | succ n ih =>
      intro s
      unfold advance_head
      split
      · exact SamePort.refl s
      · rename_i inc _
        have hretire : SamePort s (retire_head s inc) := ⟨rfl, rfl, rfl, rfl⟩
        exact hretire.trans (ih _)

theorem free_pkt_space_port {addr : mem_addr_t} {size : mem_size_t}
    (h : free_pkt_space p s addr size = some s') : SamePort s s' := by
  unfold free_pkt_space at h
  simp only at h
  split_ifs at h
  obtain rfl := Option.some.inj h
  apply SamePort.trans _ (advance_head_port _ _)
  exact ⟨rfl, rfl, rfl, rfl⟩

theorem allocate_pkt_space_port {size : ℕ} {addr : mem_addr_t}
    (h : allocate_pkt_space p s size = some (addr, s')) : SamePort s s' := by
  unfold allocate_pkt_space at h
  simp only at h
  split_ifs at h <;>
  · obtain ⟨-, rfl⟩ := Prod.mk.inj (Option.some.inj h)
    exact ⟨rfl, rfl, rfl, rfl⟩

theorem progress_incoming_packets_port (p : Params) (s : State) (sim_time : ℕ) :
    SamePort s (progress_incoming_packets p s sim_time) := by
  unfold progress_incoming_packets
  split
  · exact SamePort.refl s
  · simp only
    split_ifs
    · exact ⟨rfl, rfl, rfl, rfl⟩
    · split
      · rename_i s'' hp
        unfold process_packet at hp
        split at hp
        · exact absurd hp (by simp)
        · rename_i halloc
          obtain rfl := Option.some.inj hp
          have hport := allocate_pkt_space_port halloc
          exact ⟨hport.her_valid_o, hport.her_o, hport.ready_hers, hport.pktmap⟩
      · exact ⟨rfl, rfl, rfl, rfl⟩

/-- A completed write makes the oldest queued packet ready; nothing else on the HER side. -/
theorem progress_packets_port (h : progress_packets p s i = some s') :
    s'.her_valid_o = s.her_valid_o ∧ s'.her_o = s.her_o ∧ s'.pktmap = s.pktmap
      ∧ s'.ready_hers = s.ready_hers ++ if i.write_completed then s.queued_hers.take 1 else [] := by
  unfold progress_packets progress_axi_write_responses at h
  by_cases hw : i.write_completed = true
  · rw [if_pos hw] at h ⊢
    cases hq : s.queued_hers with
    | nil =>
        rw [hq] at h
        exact absurd h (by simp)
    | cons her rest =>
        rw [hq] at h
        obtain rfl := Option.some.inj h
        have hport := progress_incoming_packets_port p
          { s with queued_hers := rest, ready_hers := s.ready_hers ++ [her] } i.sim_time
        exact ⟨hport.her_valid_o, hport.her_o, hport.pktmap, hport.ready_hers⟩
  · rw [if_neg hw] at h ⊢
    obtain rfl := Option.some.inj h
    have hport := progress_incoming_packets_port p s i.sim_time
    exact ⟨hport.her_valid_o, hport.her_o, hport.pktmap,
      hport.ready_hers.trans (List.append_nil _).symm⟩

/-- A freed packet leaves the map; the HER port stays. -/
theorem feedback_progress_port (h : feedback_progress p s i = some s') :
    s'.her_valid_o = s.her_valid_o ∧ s'.her_o = s.her_o ∧ s'.ready_hers = s.ready_hers
      ∧ s'.pktmap = Function.update s.pktmap i.feedback_her_addr_i none := by
  unfold feedback_progress at h
  split_ifs at h with hin
  · split at h
    · exact absurd h (by simp)
    · rename_i hfree
      obtain rfl := Option.some.inj h
      have hport := free_pkt_space_port hfree
      exact ⟨hport.her_valid_o, hport.her_o, hport.ready_hers, by rw [hport.pktmap]⟩
  · obtain rfl := Option.some.inj h
    refine ⟨rfl, rfl, rfl, ?_⟩
    rw [Function.update_eq_self_iff.mpr]
    rw [Option.not_isSome_iff_eq_none.mp hin]

/-- Driving the port: nothing, or the first ready HER with an entry in the map. -/
theorem her_progress_cases (h : her_progress_posedge s i = some s') :
    ((i.her_ready_i = false ∨ s.ready_hers = []) ∧ s' = { s with her_valid_o := false })
      ∨ ∃ her rest, i.her_ready_i = true ∧ s.ready_hers = her :: rest
        ∧ s.pktmap her.her_addr = none ∧ s'.her_valid_o = true ∧ s'.her_o = her.toher_descr_t
        ∧ s'.ready_hers = rest
        ∧ s'.pktmap = Function.update s.pktmap her.her_addr
          (some ⟨her.nic_arrival_time, i.sim_time, her.her_size, her.user_ptr⟩) := by
  unfold her_progress_posedge at h
  simp only at h
  by_cases hr : i.her_ready_i = true
  · rw [hr, Bool.not_true, if_neg Bool.false_ne_true] at h
    cases hq : s.ready_hers with
    | nil =>
        rw [hq] at h
        exact Or.inl ⟨Or.inr rfl, (Option.some.inj h).symm⟩
    | cons her rest =>
        rw [hq] at h
        simp only at h
        split_ifs at h with hm
        obtain rfl := Option.some.inj h
        exact Or.inr ⟨her, rest, hr, rfl, Option.not_isSome_iff_eq_none.mp hm, rfl, rfl, rfl, rfl⟩
  · rw [Bool.not_eq_true] at hr
    rw [hr, Bool.not_false, if_pos rfl] at h
    exact Or.inl ⟨Or.inl hr, (Option.some.inj h).symm⟩

end Frame

end Pspin.NicInbound
