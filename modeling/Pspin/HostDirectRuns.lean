/-
Runs of `host_direct` with a host that follows the AXI handshakes.

The host takes the beats of the three request channels when it likes. It gives a read
response only for an AR beat that it took, and a write response only for a write whose AW
beat and W beat it both took; the two channels are not ordered against each other. The
system keeps the commands that were accepted in each direction, the beats that were taken
and the responses that were given, and counts those of the host.
-/
import Mathlib.Data.List.Forall2
import Pspin.HostDirect
import Pspin.Sync

set_option autoImplicit false

namespace Pspin.HostDirect

/-! ## Serving requests in order -/

section Serves

variable {α β : Type*}

/-- What was done is about the first requests, one by one; while a request is left, the
next thing to do is about it. -/
structure Serves (R : α → β → Prop) (asked : List α) (done : List β) (valid : Bool) (next : β) :
    Prop where
  each : List.Forall₂ R (asked.take done.length) done
  valid : valid = true ↔ done.length < asked.length
  next : ∀ a, asked[done.length]? = some a → R a next

variable {R : α → β → Prop} {f : α → β} {asked : List α} {done waiting : List β} {valid : Bool}
  {next : β}

/-- What was done are the first requests. -/
theorem done_eq (hq : done ++ waiting = asked.map f) : done = (asked.take done.length).map f := by
  have htake := congrArg (List.take done.length) hq
  rwa [List.take_left, ← List.map_take] at htake

/-- What waits in front is the next one. -/
theorem head?_waiting (hq : done ++ waiting = asked.map f) :
    waiting.head? = (asked[done.length]?).map f := by
  have hget := congrArg (·[done.length]?) hq
  simpa only [List.getElem?_append_right (Nat.le_refl _), Nat.sub_self, List.getElem?_map,
    ← List.head?_eq_getElem?] using hget

/-- What waits in a queue is served in order. -/
theorem serves_of_queue (hq : done ++ waiting = asked.map f) (hR : ∀ a ∈ asked, R a (f a))
    (hvalid : valid = true ↔ waiting ≠ []) (hnext : ∀ b, waiting.head? = some b → next = b) :
    Serves R asked done valid next := by
  refine ⟨?_, ?_, ?_⟩
  · have hsame : List.Forall₂ (fun a a' => R a (f a')) (asked.take done.length)
        (asked.take done.length) :=
      List.forall₂_same.mpr fun a ha => hR a (List.mem_of_mem_take ha)
    have hmap := List.forall₂_map_right_iff.mpr hsame
    rwa [← done_eq hq] at hmap
  · have hlen := congrArg List.length hq
    rw [List.length_append, List.length_map] at hlen
    rw [hvalid, ← List.length_pos_iff]
    omega
  · intro a ha
    have hhead := head?_waiting hq
    rw [ha, Option.map_some] at hhead
    rw [hnext _ hhead]
    exact hR a (List.mem_of_getElem? ha)

/-- The `k`-th thing that was done is about the `k`-th request. -/
theorem Serves.at (h : Serves R asked done valid next) {k : ℕ} {a : α} {b : β}
    (ha : asked[k]? = some a) (hb : done[k]? = some b) : R a b := by
  obtain ⟨hk, rfl⟩ := List.getElem?_eq_some_iff.mp hb
  obtain ⟨hk', rfl⟩ := List.getElem?_eq_some_iff.mp ha
  have htake : k < (asked.take done.length).length := by
    rw [List.length_take]
    omega
  have hget := h.each.get htake hk
  simpa only [List.get_eq_getElem, List.getElem_take] using hget

/-- One more can be done only where something waits. -/
theorem length_taken_le (hq : done ++ waiting = asked.map f) {take : Bool}
    (htake : take = true → waiting ≠ []) (b : β) :
    (done ++ if take then [b] else []).length ≤ asked.length := by
  have hlen := congrArg List.length hq
  rw [List.length_append, List.length_map] at hlen
  rw [List.length_append]
  split_ifs with ht
  · have hpos := List.length_pos_iff.mpr (htake ht)
    rw [List.length_singleton]
    omega
  · rw [List.length_nil]
    omega

end Serves

/-! ## The system -/

/-- The module with everything that passed its ports. -/
structure Sys where
  hw : State
  writes : List pspin_cmd_t
  reads : List pspin_cmd_t
  aws : List ax_chan_t
  ws : List w_chan_t
  ars : List ax_chan_t
  /-- The B and R beats that were taken. -/
  bs : ℕ
  rs : ℕ
  write_resps : List pspin_cmd_id_t
  read_resps : List pspin_cmd_id_t

/-- A beat for the address of the command. -/
def Addresses (cmd : pspin_cmd_t) (a : ax_chan_t) : Prop :=
  a = ax_chan cmd.descr.host_direct_cmd.host_addr

/-- One beat with the data of the command, of which the low bytes are written. -/
structure Carries (cmd : pspin_cmd_t) (d : w_chan_t) : Prop where
  data : d.data = cmd.descr.host_direct_cmd.imm_data
  strb : ∀ k, d.strb.getLsbD k = true ↔ k < cmd.descr.host_direct_cmd.imm_data_size.toNat
  last : d.last = true

namespace Sys

variable (P : Params)

/-- After reset nothing has passed. -/
def init : Sys := ⟨reset, [], [], [], [], [], 0, 0, [], []⟩

def accepted (s : State) (i : Input) : Bool := i.cmd_req_valid_i && cmd_req_ready_o P s i

/-- A clock edge, which writes down what passes. -/
def step (s : Sys) (i : Input) : Sys where
  hw := HostDirect.step P s.hw i
  writes := s.writes ++ if accepted P s.hw i && nic_to_host i.cmd_req_i then [i.cmd_req_i] else []
  reads := s.reads ++ if accepted P s.hw i && !nic_to_host i.cmd_req_i then [i.cmd_req_i] else []
  aws := s.aws ++ if i.aw_ready && aw_valid s.hw then [aw s.hw] else []
  ws := s.ws ++ if i.w_ready && w_valid s.hw then [w s.hw] else []
  ars := s.ars ++ if i.ar_ready && ar_valid s.hw then [ar s.hw] else []
  bs := s.bs + (b_ready i && i.b_valid).toNat
  rs := s.rs + (r_ready i && i.r_valid).toNat
  write_resps := s.write_resps ++
    if cmd_resp_valid_o i && !i.r_valid then [cmd_resp_o s.hw i] else []
  read_resps := s.read_resps ++ if cmd_resp_valid_o i && i.r_valid then [cmd_resp_o s.hw i] else []

/-- Commands are for at most a beat; responses are for beats that were taken, at the
earliest in the same cycle. -/
structure Env (s : Sys) (i : Input) : Prop where
  size : accepted P s.hw i = true → nic_to_host i.cmd_req_i = true →
    i.cmd_req_i.descr.host_direct_cmd.imm_data_size.toNat ≤ 64
  b : i.b_valid = true → s.bs < (step P s i).aws.length ∧ s.bs < (step P s i).ws.length
  r : i.r_valid = true → s.rs < (step P s i).ars.length

/-- The states of every run within the port protocol. -/
abbrev Reach : Sys → Prop := Sync.Reach (· = init) (step P) (Env P)

/-! ## The invariant -/

/-- Neither a push into a full FIFO nor a pop of an empty one. -/
def NoFlow {α : Type} (D : Depth) (fifo : FifoV3.State α) (i : FifoV3.Input α) : Prop :=
  (i.push_i = true → FifoV3.full_o D.val fifo = false)
    ∧ (i.pop_i = true → FifoV3.empty_o fifo = false)

/-- Every FIFO holds what was accepted and not yet handed on, in order, and the responses answer
the first requests. -/
structure Inv (s : Sys) : Prop where
  aw_fifo : FifoV3.Inv P.AW_FIFO_DEPTH.val s.hw.i_aw_fifo
  ar_fifo : FifoV3.Inv P.AR_FIFO_DEPTH.val s.hw.i_ar_fifo
  w_fifo : FifoV3.Inv P.W_FIFO_DEPTH.val s.hw.i_w_fifo
  write_id_fifo : FifoV3.Inv P.WRITES_FIFO_DEPTH.val s.hw.i_write_id_fifo
  read_id_fifo : FifoV3.Inv P.READS_FIFO_DEPTH.val s.hw.i_read_id_fifo
  aws : s.aws ++ (FifoV3.elems P.AW_FIFO_DEPTH.val s.hw.i_aw_fifo).map ax_chan
    = s.writes.map fun cmd => ax_chan (fifo_ax_data_in cmd)
  ws : s.ws ++ (FifoV3.elems P.W_FIFO_DEPTH.val s.hw.i_w_fifo).map w_chan
    = s.writes.map fun cmd => w_chan (fifo_w_data_in cmd)
  ars : s.ars ++ (FifoV3.elems P.AR_FIFO_DEPTH.val s.hw.i_ar_fifo).map ax_chan
    = s.reads.map fun cmd => ax_chan (fifo_ax_data_in cmd)
  write_resps : s.write_resps ++ (FifoV3.elems P.WRITES_FIFO_DEPTH.val s.hw.i_write_id_fifo).map id
    = s.writes.map (·.cmd_id)
  read_resps : s.read_resps ++ (FifoV3.elems P.READS_FIFO_DEPTH.val s.hw.i_read_id_fifo).map id
    = s.reads.map (·.cmd_id)
  bs : s.write_resps.length = s.bs
  rs : s.read_resps.length = s.rs
  bs_le : s.bs ≤ s.aws.length ∧ s.bs ≤ s.ws.length
  rs_le : s.rs ≤ s.ars.length
  size : ∀ cmd ∈ s.writes, cmd.descr.host_direct_cmd.imm_data_size.toNat ≤ 64

variable {P} {s : Sys} {i : Input}

theorem inv_init : Inv P init where
  aw_fifo := FifoV3.inv_reset _ P.AW_FIFO_DEPTH.property.1 P.AW_FIFO_DEPTH.property.2
  ar_fifo := FifoV3.inv_reset _ P.AR_FIFO_DEPTH.property.1 P.AR_FIFO_DEPTH.property.2
  w_fifo := FifoV3.inv_reset _ P.W_FIFO_DEPTH.property.1 P.W_FIFO_DEPTH.property.2
  write_id_fifo := FifoV3.inv_reset _ P.WRITES_FIFO_DEPTH.property.1 P.WRITES_FIFO_DEPTH.property.2
  read_id_fifo := FifoV3.inv_reset _ P.READS_FIFO_DEPTH.property.1 P.READS_FIFO_DEPTH.property.2
  aws := rfl
  ws := rfl
  ars := rfl
  write_resps := rfl
  read_resps := rfl
  bs := rfl
  rs := rfl
  bs_le := ⟨Nat.le_refl 0, Nat.le_refl 0⟩
  rs_le := Nat.le_refl 0
  size := fun _ hmem => absurd hmem List.not_mem_nil

/-- A write is pushed when it is accepted. -/
theorem aw_push_eq : fifo_aw_push P s.hw i = (accepted P s.hw i && nic_to_host i.cmd_req_i) := by
  rw [fifo_aw_push, beq_true, accepted]

/-- A read is pushed when it is accepted. -/
theorem ar_push_eq : fifo_ar_push P s.hw i = (accepted P s.hw i && !nic_to_host i.cmd_req_i) := by
  rw [fifo_ar_push, beq_false, accepted]

/-- The writes, in the order of their pushes. -/
theorem step_writes : (step P s i).writes
    = s.writes ++ if fifo_aw_push P s.hw i then [i.cmd_req_i] else [] := by
  rw [aw_push_eq]
  rfl

/-- The reads, in the order of their pushes. -/
theorem step_reads : (step P s i).reads
    = s.reads ++ if fifo_ar_push P s.hw i then [i.cmd_req_i] else [] := by
  rw [ar_push_eq]
  rfl

theorem not_empty_iff {α β : Type} {D : ℕ} {fifo : FifoV3.State α} {g : α → β} :
    (!FifoV3.empty_o fifo) = true ↔ (FifoV3.elems D fifo).map g ≠ [] := by
  rw [Bool.not_eq_true', Bool.eq_false_iff, Ne, FifoV3.empty_o_iff, Ne, List.map_eq_nil_iff]

/-- A count of responses follows a count of beats, if a response needs a beat. -/
theorem answered_le {n beats beats' : ℕ} {b : Bool} (hle : n ≤ beats) (hgrow : beats ≤ beats')
    (hlt : b = true → n < beats') : n + b.toNat ≤ beats' := by
  cases b with
  | true => exact hlt rfl
  | false => exact hle.trans hgrow

namespace Inv

/-- No more addresses go out than writes came in. -/
theorem aws_le (h : Inv P s) : (step P s i).aws.length ≤ s.writes.length := by
  have hpop : fifo_aw_pop s.hw i = true →
      (FifoV3.elems P.AW_FIFO_DEPTH.val s.hw.i_aw_fifo).map ax_chan ≠ [] := by
    intro hp
    apply not_empty_iff.mp
    rw [aw_pop_valid hp, Bool.not_false]
  exact length_taken_le h.aws hpop (aw s.hw)

theorem ars_le (h : Inv P s) : (step P s i).ars.length ≤ s.reads.length := by
  have hpop : fifo_ar_pop s.hw i = true →
      (FifoV3.elems P.AR_FIFO_DEPTH.val s.hw.i_ar_fifo).map ax_chan ≠ [] := by
    intro hp
    apply not_empty_iff.mp
    rw [ar_pop_valid hp, Bool.not_false]
  exact length_taken_le h.ars hpop (ar s.hw)

/-! ## No over- or underflow -/

theorem aw_flow : NoFlow P.AW_FIFO_DEPTH s.hw.i_aw_fifo (aw_fifo_input P s.hw i) :=
  ⟨fun hp => (aw_push_room hp).1, aw_pop_valid⟩

theorem ar_flow : NoFlow P.AR_FIFO_DEPTH s.hw.i_ar_fifo (ar_fifo_input P s.hw i) :=
  ⟨fun hp => (ar_push_room hp).1, ar_pop_valid⟩

theorem w_flow : NoFlow P.W_FIFO_DEPTH s.hw.i_w_fifo (w_fifo_input P s.hw i) :=
  ⟨fun hp => (aw_push_room hp).2.1, w_pop_valid⟩

/-- The ids of a direction outlast its responses. -/
theorem ids_left {D : ℕ} {fifo : FifoV3.State pspin_cmd_id_t} {done : List pspin_cmd_id_t}
    {asked : List pspin_cmd_t} (hq : done ++ (FifoV3.elems D fifo).map id = asked.map (·.cmd_id))
    (hlt : done.length < asked.length) : FifoV3.empty_o fifo = false := by
  apply Bool.eq_false_of_not_eq_true
  intro he
  have hlen := congrArg List.length hq
  rw [FifoV3.empty_o_iff.mp he, List.map_nil, List.append_nil, List.length_map] at hlen
  omega

/-- The slave answers only what was sent, so the id is there. -/
theorem write_id_flow (h : Inv P s) (he : Env P s i) :
    NoFlow P.WRITES_FIFO_DEPTH s.hw.i_write_id_fifo (write_id_fifo_input P s.hw i) := by
  refine ⟨fun hp => (aw_push_room hp).2.2, fun hp => ids_left h.write_resps ?_⟩
  have hp' : fifo_write_id_pop i = true := hp
  rw [write_id_pop_eq, Bool.and_eq_true] at hp'
  have hb := (he.b hp'.2).1
  have hle := h.aws_le (i := i)
  rw [h.bs]
  omega

theorem read_id_flow (h : Inv P s) (he : Env P s i) :
    NoFlow P.READS_FIFO_DEPTH s.hw.i_read_id_fifo (read_id_fifo_input P s.hw i) := by
  refine ⟨fun hp => (ar_push_room hp).2, fun hp => ids_left h.read_resps ?_⟩
  have hp' : fifo_read_id_pop i = true := hp
  rw [read_id_pop_eq] at hp'
  have hr := he.r hp'
  have hle := h.ars_le (i := i)
  rw [h.rs]
  omega

/-! ## A clock edge -/

theorem step_write_resps : (Sys.step P s i).write_resps = s.write_resps
    ++ if fifo_write_id_pop i then [id (FifoV3.data_o s.hw.i_write_id_fifo)] else [] := by
  by_cases hr : i.r_valid = true
  · simp [Sys.step, write_id_pop_eq, hr]
  · by_cases hb : i.b_valid = true <;>
      simp [Sys.step, write_id_pop_eq, cmd_resp_valid_o, cmd_resp_o, hr, hb]

theorem step_read_resps : (Sys.step P s i).read_resps = s.read_resps
    ++ if fifo_read_id_pop i then [id (FifoV3.data_o s.hw.i_read_id_fifo)] else [] := by
  by_cases hr : i.r_valid = true
  · simp [Sys.step, read_id_pop_eq, cmd_resp_valid_o, cmd_resp_o, hr]
  · simp [Sys.step, read_id_pop_eq, hr]

/-- The addresses of the writes: sent, then waiting. -/
theorem aws_step (h : Inv P s) : (Sys.step P s i).aws
      ++ (FifoV3.elems P.AW_FIFO_DEPTH.val (Sys.step P s i).hw.i_aw_fifo).map ax_chan
    = (Sys.step P s i).writes.map fun cmd => ax_chan (fifo_ax_data_in cmd) := by
  rw [step_writes]
  exact h.aw_fifo.served_step (f := fun cmd => ax_chan (fifo_ax_data_in cmd)) (b := i.cmd_req_i)
    h.aws (aw_flow (i := i)).1 aw_flow.2 fun _ => rfl

theorem ws_step (h : Inv P s) : (Sys.step P s i).ws
      ++ (FifoV3.elems P.W_FIFO_DEPTH.val (Sys.step P s i).hw.i_w_fifo).map w_chan
    = (Sys.step P s i).writes.map fun cmd => w_chan (fifo_w_data_in cmd) := by
  rw [step_writes]
  exact h.w_fifo.served_step (f := fun cmd => w_chan (fifo_w_data_in cmd)) (b := i.cmd_req_i)
    h.ws (w_flow (i := i)).1 w_flow.2 fun _ => rfl

/-- The addresses of the reads likewise. -/
theorem ars_step (h : Inv P s) : (Sys.step P s i).ars
      ++ (FifoV3.elems P.AR_FIFO_DEPTH.val (Sys.step P s i).hw.i_ar_fifo).map ax_chan
    = (Sys.step P s i).reads.map fun cmd => ax_chan (fifo_ax_data_in cmd) := by
  rw [step_reads]
  exact h.ar_fifo.served_step (f := fun cmd => ax_chan (fifo_ax_data_in cmd)) (b := i.cmd_req_i)
    h.ars (ar_flow (i := i)).1 ar_flow.2 fun _ => rfl

/-- A B beat is taken for a write whose beats were both taken. -/
theorem bs_step (h : Inv P s) (he : Env P s i) : (Sys.step P s i).bs ≤ (Sys.step P s i).aws.length
    ∧ (Sys.step P s i).bs ≤ (Sys.step P s i).ws.length := by
  have hb : fifo_write_id_pop i = true → i.b_valid = true := by
    rw [write_id_pop_eq, Bool.and_eq_true]
    exact And.right
  constructor
  · apply answered_le h.bs_le.1 _ fun hp => (he.b (hb hp)).1
    show _ ≤ (s.aws ++ _).length
    rw [List.length_append]
    omega
  · apply answered_le h.bs_le.2 _ fun hp => (he.b (hb hp)).2
    show _ ≤ (s.ws ++ _).length
    rw [List.length_append]
    omega

/-- The slave sends a response for an address it has seen. -/
theorem rs_step (h : Inv P s) (he : Env P s i) :
    (Sys.step P s i).rs ≤ (Sys.step P s i).ars.length := by
  have hr : fifo_read_id_pop i = true → i.r_valid = true := by
    rw [read_id_pop_eq]
    exact id
  apply answered_le h.rs_le _ fun hp => he.r (hr hp)
  show _ ≤ (s.ars ++ _).length
  rw [List.length_append]
  omega

/-- The data of a write fit into a beat. -/
theorem size_step (h : Inv P s) (he : Env P s i) : ∀ cmd ∈ (Sys.step P s i).writes,
    cmd.descr.host_direct_cmd.imm_data_size.toNat ≤ 64 := by
  intro cmd hmem
  rcases List.mem_append.mp hmem with hold | hnew
  · exact h.size cmd hold
  · obtain ⟨hacc, hnew⟩ := List.mem_ite_nil_right.mp hnew
    rw [Bool.and_eq_true] at hacc
    rw [List.mem_singleton.mp hnew]
    exact he.size hacc.1 hacc.2

theorem step (h : Inv P s) (he : Env P s i) : Inv P (step P s i) where
  aw_fifo := h.aw_fifo.step _
  ar_fifo := h.ar_fifo.step _
  w_fifo := h.w_fifo.step _
  write_id_fifo := h.write_id_fifo.step _
  read_id_fifo := h.read_id_fifo.step _
  aws := h.aws_step
  ws := h.ws_step
  ars := h.ars_step
  write_resps := by
    -- the id FIFO is pushed with the command and popped with the response
    rw [step_writes, step_write_resps]
    exact h.write_id_fifo.served_step (f := (·.cmd_id)) (b := i.cmd_req_i) h.write_resps
      (h.write_id_flow he).1 (h.write_id_flow he).2 fun _ => rfl
  read_resps := by
    rw [step_reads, step_read_resps]
    exact h.read_id_fifo.served_step (f := (·.cmd_id)) (b := i.cmd_req_i) h.read_resps
      (h.read_id_flow he).1 (h.read_id_flow he).2 fun _ => rfl
  bs := by
    rw [step_write_resps, Sync.length_append_if, h.bs]
    rfl
  rs := by
    rw [step_read_resps, Sync.length_append_if, h.rs]
    rfl
  bs_le := h.bs_step he
  rs_le := h.rs_step he
  size := h.size_step he

end Inv

theorem inv_of_reach (h : Reach P s) : Inv P s :=
  h.inv (by rintro _ rfl; exact inv_init) fun _ _ hinv he => hinv.step he

/-! ## The commands and the host -/

/-- What the response port shows. -/
structure Answers (s : Sys) (i : Input) : Prop where
  read : i.r_valid = true → r_ready i = true ∧ cmd_resp_valid_o i = true
    ∧ (s.reads[s.rs]?).map (·.cmd_id) = some (cmd_resp_o s.hw i)
  write : i.b_valid = true → i.r_valid = false → b_ready i = true ∧ cmd_resp_valid_o i = true
    ∧ (s.writes[s.bs]?).map (·.cmd_id) = some (cmd_resp_o s.hw i)
  other : i.r_valid = false → i.b_valid = false → cmd_resp_valid_o i = false

/-- No FIFO over- or underflows. -/
structure Flows (P : Params) (s : State) (i : Input) : Prop where
  aw : NoFlow P.AW_FIFO_DEPTH s.i_aw_fifo (aw_fifo_input P s i)
  ar : NoFlow P.AR_FIFO_DEPTH s.i_ar_fifo (ar_fifo_input P s i)
  w : NoFlow P.W_FIFO_DEPTH s.i_w_fifo (w_fifo_input P s i)
  write_id : NoFlow P.WRITES_FIFO_DEPTH s.i_write_id_fifo (write_id_fifo_input P s i)
  read_id : NoFlow P.READS_FIFO_DEPTH s.i_read_id_fifo (read_id_fifo_input P s i)

/-- Each command gets its beats and its response, once and in order. -/
structure Direct (s : Sys) : Prop where
  aw : Serves Addresses s.writes s.aws (aw_valid s.hw) (HostDirect.aw s.hw)
  w : Serves Carries s.writes s.ws (w_valid s.hw) (HostDirect.w s.hw)
  ar : Serves Addresses s.reads s.ars (ar_valid s.hw) (HostDirect.ar s.hw)
  write_resps : s.write_resps = (s.writes.take s.bs).map (·.cmd_id)
  read_resps : s.read_resps = (s.reads.take s.rs).map (·.cmd_id)
  bs_le : s.bs ≤ s.writes.length
  rs_le : s.rs ≤ s.reads.length

/-- The output of a FIFO is about what waits longest. -/
theorem head_out {α β : Type} {D : ℕ} {fifo : FifoV3.State α} {g : α → β} (h : FifoV3.Inv D fifo)
    {b : β} (hb : ((FifoV3.elems D fifo).map g).head? = some b) : g (FifoV3.data_o fifo) = b := by
  rw [List.head?_map] at hb
  obtain ⟨x, hx, rfl⟩ := Option.map_eq_some_iff.mp hb
  rw [h.data_o_eq hx]

/-- The beat carries the immediate data of its command. -/
theorem carries {cmd : pspin_cmd_t}
    (hsize : cmd.descr.host_direct_cmd.imm_data_size.toNat ≤ 64) :
    Carries cmd (w_chan (fifo_w_data_in cmd)) where
  data := rfl
  strb := fun k => by
    rw [w_chan, strb_eq hsize, decide_eq_true_iff]
  last := rfl

namespace Inv

/-- What the invariant says of the ports. -/
theorem direct (h : Inv P s) : Direct s where
  aw := serves_of_queue h.aws (fun _ _ => rfl) not_empty_iff fun _ => head_out h.aw_fifo
  w := serves_of_queue h.ws (fun cmd hmem => carries (h.size cmd hmem)) not_empty_iff
    fun _ => head_out h.w_fifo
  ar := serves_of_queue h.ars (fun _ _ => rfl) not_empty_iff fun _ => head_out h.ar_fifo
  write_resps := by
    have hdone := done_eq h.write_resps
    rwa [h.bs] at hdone
  read_resps := by
    have hdone := done_eq h.read_resps
    rwa [h.rs] at hdone
  bs_le := by
    have hlen := congrArg List.length h.write_resps
    rw [List.length_append, List.length_map, List.length_map, h.bs] at hlen
    omega
  rs_le := by
    have hlen := congrArg List.length h.read_resps
    rw [List.length_append, List.length_map, List.length_map, h.rs] at hlen
    omega

/-- No FIFO is pushed when full or popped when empty. -/
theorem flows (h : Inv P s) (he : Env P s i) : Flows P s.hw i :=
  ⟨aw_flow, ar_flow, w_flow, h.write_id_flow he, h.read_id_flow he⟩

/-- The id that leaves is that of the next command of the direction. -/
theorem next_id {D : ℕ} {fifo : FifoV3.State pspin_cmd_id_t} {done : List pspin_cmd_id_t}
    {asked : List pspin_cmd_t} (h : FifoV3.Inv D fifo)
    (hq : done ++ (FifoV3.elems D fifo).map id = asked.map (·.cmd_id))
    (he : FifoV3.empty_o fifo = false) :
    (asked[done.length]?).map (·.cmd_id) = some (FifoV3.data_o fifo) := by
  rw [← head?_waiting hq, List.map_id, h.elems_eq_cons he, List.head?_cons]

/-- A response has the id of the oldest command of its direction that waits. -/
theorem answers (h : Inv P s) (he : Env P s i) : Answers s i where
  read := by
    intro hr
    -- the response takes the id it shows off the FIFO in this cycle
    have hpop : fifo_read_id_pop i = true := read_id_pop_eq.trans hr
    have hnext := next_id h.read_id_fifo h.read_resps ((h.read_id_flow he).2 hpop)
    rw [h.rs] at hnext
    refine ⟨hr, ?_, ?_⟩
    · rw [cmd_resp_valid_o, hr, Bool.true_or]
    · rw [hnext, cmd_resp_o, if_pos hr]
  write := by
    intro hb hr
    have hpop : fifo_write_id_pop i = true := by
      rw [write_id_pop_eq, hr, hb]
      rfl
    have hnext := next_id h.write_id_fifo h.write_resps ((h.write_id_flow he).2 hpop)
    rw [h.bs] at hnext
    refine ⟨?_, ?_, ?_⟩
    · rw [b_ready, hr, hb]
      rfl
    · rw [cmd_resp_valid_o, hb, Bool.or_true]
    · rw [hnext, cmd_resp_o, hr, if_neg Bool.false_ne_true, if_pos hb]
  other := by
    intro hr hb
    rw [cmd_resp_valid_o, hr, hb]
    rfl

end Inv

instance (P : Params) (s : Sys) (i : Input) : Decidable (Env P s i) :=
  decidable_of_iff
    ((accepted P s.hw i = true → nic_to_host i.cmd_req_i = true →
        i.cmd_req_i.descr.host_direct_cmd.imm_data_size.toNat ≤ 64)
      ∧ (i.b_valid = true → s.bs < (step P s i).aws.length ∧ s.bs < (step P s i).ws.length)
      ∧ (i.r_valid = true → s.rs < (step P s i).ars.length))
    ⟨fun h => ⟨h.1, h.2.1, h.2.2⟩, fun h => ⟨h.size, h.b, h.r⟩⟩

/-- A command for the whole line at one address. -/
def demo_cmd (to_host : Bool) : pspin_cmd_t where
  intf_id := CMD_HOSTDIRECT_ID
  cmd_id := ⟨1, 2, 3⟩
  cmd_type := .HostDirect
  descr := ⟨fun w => if w.val = 2 then (if to_host then 129 else 0) else 0xc0ffee00⟩
  generate_event := false

/-- A cycle in which the host does as the flags say. -/
def demo_cycle (valid to_host aw_ready w_ready response : Bool) : Input where
  cmd_req_valid_i := valid
  cmd_req_i := demo_cmd to_host
  aw_ready := aw_ready
  w_ready := w_ready
  ar_ready := w_ready
  b_valid := response
  r_valid := response

/-- Both commands are accepted and sent. -/
def demo_run : List Input :=
  [demo_cycle true true false false false, demo_cycle true false true false false,
    demo_cycle false false false true false]

def demo_state : Sys := Sync.run (step defaults) init demo_run

end Sys

end Pspin.HostDirect
