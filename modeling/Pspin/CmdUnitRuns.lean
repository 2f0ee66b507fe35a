/-
Commands and responses in `cmd_unit`, over whole runs.

`Sys` records the commands accepted from each cluster, the commands delivered with the
cluster they came from and the interface that took them, the responses that arrived at
each interface, the responses the arbiter took, with their interface, and what appeared on
`cmd_resp_o`. The interfaces respond in any order and at any time; of their responses it
is only assumed that there are no more than commands delivered.

Nothing is refused on the way back. A command in flight keeps its place in the FIFO of its
interface until its response is taken, and `has_space` leaves one place free, below the
value at which the usage would wrap; so there are never more than
`INTF_RESP_BUFF_SIZE - 1` responses in a buffer.
-/
import Pspin.CmdUnit
import Pspin.Sync

set_option autoImplicit false

namespace Pspin.CmdUnit

/-- A command that an interface took. -/
structure delivery_t where
  cluster : ℕ
  intf : ℕ
  cmd : pspin_cmd_t
deriving DecidableEq

/-- The unit with everything that passed its ports. -/
structure Sys where
  hw : State
  /-- By cluster. -/
  accepted : ℕ → List pspin_cmd_t
  delivered : List delivery_t
  /-- By interface. -/
  responses : ℕ → List pspin_cmd_resp_t
  /-- What the response arbiter took, with the interface. -/
  taken : List (ℕ × pspin_cmd_resp_t)
  shown : List pspin_cmd_resp_t

/-- The commands that interfaces take in this cycle. -/
def delivering (s : State) (i : Input) : List delivery_t :=
  ((List.range NUM_CMD_INTERFACES).filter fun k => intf_valid_o s k && i.intf_ready_i k).map
    fun k => ⟨cmd_arb_idx s k, k, intf_cmd_o s k⟩

/-- The responses that leave their buffers in this cycle. -/
def taking (s : State) : List (ℕ × pspin_cmd_resp_t) :=
  ((List.range NUM_CMD_INTERFACES).filter (fifo_resp_buffer_pop s)).map
    fun k => (k, FifoV3.data_o (s.i_resp_fifo k))

namespace Sys

/-- A clock edge, which writes down what passes. -/
def step (s : Sys) (i : Input) : Sys where
  hw := CmdUnit.step s.hw i
  accepted := fun j => s.accepted j
    ++ if i.cmd_valid_i j && cmd_ready_o s.hw j then [i.cmd_i j] else []
  delivered := s.delivered ++ delivering s.hw i
  responses := fun k => s.responses k
    ++ if i.intf_cmd_resp_valid_i k then [i.intf_cmd_resp_i k] else []
  taken := s.taken ++ taking s.hw
  shown := s.shown ++ if cmd_resp_valid_o s.hw then [cmd_resp_o s.hw] else []

/-- After reset nothing has passed. -/
def init : Sys := ⟨reset, fun _ => [], [], fun _ => [], [], []⟩

/-- The commands of cluster `j` that were delivered, in order. -/
def from_cluster (s : Sys) (j : ℕ) : List pspin_cmd_t :=
  (s.delivered.filter fun d => d.cluster == j).map (·.cmd)

/-- The commands delivered to interface `k`, in order. -/
def to_intf (s : Sys) (k : ℕ) : List pspin_cmd_t :=
  (s.delivered.filter fun d => d.intf == k).map (·.cmd)

/-- The responses of interface `k` that were taken, in order. -/
def taken_from (s : Sys) (k : ℕ) : List pspin_cmd_resp_t :=
  (s.taken.filter fun r => r.1 == k).map Prod.snd

/-- An interface has no more responses than commands, at any time and in any order. -/
def env (s : Sys) (i : Input) : Prop :=
  ∀ k < NUM_CMD_INTERFACES, i.intf_cmd_resp_valid_i k = true →
    (s.responses k).length < ((s.step i).to_intf k).length

instance (s : Sys) (i : Input) : Decidable (env s i) :=
  inferInstanceAs (Decidable (∀ k < NUM_CMD_INTERFACES, _ → _))

/-- The states of all runs in which interfaces answer only what they were given. -/
def Reach : Sys → Prop := Sync.Reach (· = init) step env

/-- What holds between cycles. -/
structure Conserved (s : Sys) : Prop where
  /-- Of the commands of a cluster the first were delivered, in order and unchanged; the
  others are in the register. -/
  commands : ∀ j < NUM_CLUSTERS,
    s.from_cluster j ++ SpillRegister.elems (s.hw.i_cluster_cmd_spill j) = s.accepted j
  /-- Each came from a cluster, to the interface it names. -/
  selected : ∀ d ∈ s.delivered, d.cluster < NUM_CLUSTERS ∧ d.intf < NUM_CMD_INTERFACES
    ∧ d.cmd.intf_id.val = d.intf
  order : ∀ j < NUM_CLUSTERS, ∀ k,
    ((s.delivered.filter fun d => d.cluster == j && d.intf == k).map (·.cmd)).Sublist (s.accepted j)
  /-- Of the responses of an interface the first were taken; the others are in its buffer. -/
  responses : ∀ k < NUM_CMD_INTERFACES,
    s.taken_from k ++ FifoV3.elems INTF_RESP_BUFF_SIZE (s.hw.i_resp_fifo k) = s.responses k
  intf : ∀ r ∈ s.taken, r.1 < NUM_CMD_INTERFACES
  /-- What was taken appears, in order; the last one is perhaps still in the register. -/
  shown : s.shown ++ SpillRegister.elems s.hw.i_cluster_cmd_resp_spill = s.taken.map Prod.snd

/-- What holds in a cycle. -/
structure Safe (s : State) (i : Input) : Prop where
  resp_push : ∀ k < NUM_CMD_INTERFACES, i.intf_cmd_resp_valid_i k = true →
    FifoV3.full_o INTF_RESP_BUFF_SIZE (s.i_resp_fifo k) = false
  req_push : ∀ k < NUM_CMD_INTERFACES, fifo_in_flight_req_push s i k = true →
    FifoV3.full_o INTF_RESP_BUFF_SIZE (s.i_req_fifo k) = false
  req_pop : ∀ k < NUM_CMD_INTERFACES, fifo_in_flight_req_pop s k = true →
    FifoV3.empty_o (s.i_req_fifo k) = false
  /-- An interface with room is offered a command whenever one names it. -/
  offered : ∀ k < NUM_CMD_INTERFACES, fifo_in_flight_req_has_space s k = true →
    (∃ j < NUM_CLUSTERS, cluster_cmd_valid s j = true ∧ (cluster_cmd s j).intf_id.val = k) →
    intf_valid_o s k = true
  /-- A response is taken whenever there is one, and it is shown in the next cycle. -/
  taken : (∃ k < NUM_CMD_INTERFACES, fifo_resp_buffer_valid s k = true) →
    ∃ r, taking s = [r] ∧ cmd_resp_valid_o (CmdUnit.step s i) = true
      ∧ cmd_resp_o (CmdUnit.step s i) = r.2

/-! ## One cycle at the ports -/

section Ports

variable {s : State} {i : Input}

/-- The arbiters chose among the commands and responses that are there. -/
structure Arbitrated (s : State) : Prop where
  cmd : ∀ k, RrArbTree.Held NUM_CLUSTERS (s.i_cmd_intf_arb k) (intf_mux_valid s k)
  resp : RrArbTree.Held NUM_CMD_INTERFACES s.i_cmd_resp_arb (fifo_resp_buffer_valid s)

/-- The command of a cluster is shown to the one interface that it names. -/
theorem mux_valid_iff {k j : ℕ} : intf_mux_valid s k j = true
    ↔ cluster_cmd_valid s j = true ∧ (cluster_cmd s j).intf_id.val = k := by
  rw [intf_mux_valid, Bool.and_eq_true, beq_iff_eq]

/-- The command of an interface is the head of a cluster and names the interface. -/
theorem arb_idx_spec (h : Arbitrated s) {k : ℕ} (hv : cmd_arb_valid s k = true) :
    cmd_arb_idx s k < NUM_CLUSTERS ∧ cluster_cmd_valid s (cmd_arb_idx s k) = true
      ∧ (intf_cmd_o s k).intf_id.val = k := by
  obtain ⟨hlt, hreq⟩ := RrArbTree.idx_o_spec (by decide) (h.cmd k) hv
  exact ⟨hlt, mux_valid_iff.mp hreq⟩

/-- A command goes into flight with the handshake of its interface. -/
theorem push_eq (k : ℕ) :
    fifo_in_flight_req_push s i k = (intf_valid_o s k && i.intf_ready_i k) := by
  rw [fifo_in_flight_req_push, cmd_arb_ready, intf_valid_o, Bool.and_assoc,
    Bool.and_comm (i.intf_ready_i k)]

/-- The head of cluster `j` leaves exactly when the interface it names takes it. -/
theorem leaves_iff (h : Arbitrated s) {j k : ℕ} (hj : j < NUM_CLUSTERS) :
    (intf_valid_o s k && i.intf_ready_i k) = true ∧ cmd_arb_idx s k = j
      ↔ k = (cluster_cmd s j).intf_id ∧ cluster_cmd_valid s j = true
        ∧ cluster_cmd_ready s i j = true := by
  -- a cluster is ready when the interface of its command takes from it
  have hready : cluster_cmd_ready s i j = true
      ↔ (i.intf_ready_i (cluster_cmd s j).intf_id
          && fifo_in_flight_req_has_space s (cluster_cmd s j).intf_id) = true
        ∧ j = cmd_arb_idx s (cluster_cmd s j).intf_id := by
    have hdef : cluster_cmd_ready s i j = (cmd_arb_ready s i (cluster_cmd s j).intf_id
        && j == cmd_arb_idx s (cluster_cmd s j).intf_id) := rfl
    rw [hdef, Bool.and_eq_true, beq_iff_eq, cmd_arb_ready]
  rw [hready, intf_valid_o, Bool.and_eq_true, Bool.and_eq_true, Bool.and_eq_true]
  constructor
  · rintro ⟨⟨⟨hv, hspace⟩, hr⟩, rfl⟩
    obtain ⟨-, hvalid, hid⟩ := arb_idx_spec h hv
    have hid' : ((cluster_cmd s (cmd_arb_idx s k)).intf_id : ℕ) = k := hid
    rw [hid']
    exact ⟨rfl, hvalid, ⟨hr, hspace⟩, rfl⟩
  · rintro ⟨rfl, hvalid, ⟨hr, hspace⟩, hidx⟩
    refine ⟨⟨⟨?_, hspace⟩, hr⟩, hidx.symm⟩
    exact (RrArbTree.req_o_iff (by decide) (h.cmd _)).mpr ⟨j, hj, mux_valid_iff.mpr ⟨hvalid, rfl⟩⟩

/-- What leaves cluster `j` is delivered. -/
theorem delivering_from (h : Arbitrated s) {j : ℕ} (hj : j < NUM_CLUSTERS) :
    ((delivering s i).filter fun d => d.cluster == j).map (·.cmd)
      = SpillRegister.offers (s.i_cluster_cmd_spill j) (cluster_spill_input s i j) := by
  have hoffers : SpillRegister.offers (s.i_cluster_cmd_spill j) (cluster_spill_input s i j)
      = if cluster_cmd_valid s j && cluster_cmd_ready s i j then [cluster_cmd s j] else [] := rfl
  rw [hoffers, delivering, List.filter_map, List.filter_filter, List.map_map]
  have hbit : ∀ k, ((cmd_arb_idx s k == j) && (intf_valid_o s k && i.intf_ready_i k)) = true
      ↔ k = (cluster_cmd s j).intf_id ∧ cluster_cmd_valid s j = true
        ∧ cluster_cmd_ready s i j = true := by
    intro k
    rw [Bool.and_eq_true, beq_iff_eq, and_comm, leaves_iff h hj]
  split_ifs with hgo
  · have hlt := (cluster_cmd s j).intf_id.isLt
    have hgo' := Bool.and_eq_true_iff.mp hgo
    -- a command names one interface, so at most one can take it
    have hone : (List.range NUM_CMD_INTERFACES).filter
        (fun k => (cmd_arb_idx s k == j) && (intf_valid_o s k && i.intf_ready_i k))
        = [(cluster_cmd s j).intf_id.val] :=
      Lzc.filter_range_one hlt fun k _ => (hbit k).trans ⟨fun hc => hc.1, fun hc => ⟨hc, hgo'⟩⟩
    have hidx := ((hbit _).mpr ⟨rfl, hgo'⟩)
    rw [Bool.and_eq_true, beq_iff_eq] at hidx
    refine (congrArg (List.map _) hone).trans ?_
    show [cluster_cmd s (cmd_arb_idx s (cluster_cmd s j).intf_id)] = _
    rw [hidx.1]
  · have hnone : (List.range NUM_CMD_INTERFACES).filter
        (fun k => (cmd_arb_idx s k == j) && (intf_valid_o s k && i.intf_ready_i k)) = [] := by
      rw [List.filter_eq_nil_iff]
      intro k _ hk
      exact hgo (Bool.and_eq_true_iff.mpr ((hbit k).mp hk).2)
    exact congrArg (List.map _) hnone

/-- What interface `k` takes is counted in flight. -/
theorem delivering_to {k : ℕ} (hk : k < NUM_CMD_INTERFACES) :
    ((delivering s i).filter fun d => d.intf == k).map (·.cmd)
      = if fifo_in_flight_req_push s i k then [intf_cmd_o s k] else [] := by
  rw [push_eq, delivering, List.filter_map, List.filter_filter, List.map_map]
  refine (congrArg (List.map _) (Lzc.filter_range_at _ hk)).trans ?_
  split_ifs <;> rfl

/-- One response is taken at most: the one the arbiter shows. -/
theorem taking_eq (h : Arbitrated s) : taking s = if resp_arb_valid s then
    [(RrArbTree.idx_o NUM_CMD_INTERFACES s.i_cmd_resp_arb (fifo_resp_buffer_valid s),
      resp_arb_data s)] else [] := by
  have hpop : ∀ k, fifo_resp_buffer_pop s k = true
      ↔ k = RrArbTree.idx_o NUM_CMD_INTERFACES s.i_cmd_resp_arb (fifo_resp_buffer_valid s)
        ∧ fifo_resp_buffer_valid s k = true := by
    intro k
    have hdef : fifo_resp_buffer_pop s k = ((true && k == RrArbTree.idx_o NUM_CMD_INTERFACES
      s.i_cmd_resp_arb (fifo_resp_buffer_valid s)) && fifo_resp_buffer_valid s k) := rfl
    rw [hdef, Bool.true_and, Bool.and_eq_true, beq_iff_eq]
  unfold taking
  split_ifs with hv
  · obtain ⟨hlt, hreq⟩ := RrArbTree.idx_o_spec (by decide) h.resp hv
    rw [Lzc.filter_range_one hlt, List.map_singleton]
    · rfl
    · exact fun k _ => (hpop k).trans ⟨fun hc => hc.1, fun hc => ⟨hc, hc ▸ hreq⟩⟩
  · rw [List.filter_eq_nil_iff.mpr, List.map_nil]
    intro k hk hc
    exact hv ((RrArbTree.req_o_iff (by decide) h.resp).mpr
      ⟨k, List.mem_range.mp hk, ((hpop k).mp hc).2⟩)

/-- The response of interface `k` that is taken is the head of its buffer. -/
theorem taking_from {k : ℕ} (hk : k < NUM_CMD_INTERFACES) :
    ((taking s).filter fun r => r.1 == k).map Prod.snd
      = if fifo_resp_buffer_pop s k then [FifoV3.data_o (s.i_resp_fifo k)] else [] := by
  rw [taking, List.filter_map, List.filter_filter, List.map_map]
  refine (congrArg (List.map _) (Lzc.filter_range_at _ hk)).trans ?_
  split_ifs <;> rfl

/-- A response that the arbiter shows goes into the spill register, unless that is not ready. -/
theorem taking_length (h : Arbitrated s) : (taking s).map Prod.snd
    = SpillRegister.accepts s.i_cluster_cmd_resp_spill (resp_spill_input s)
      ∨ SpillRegister.ready_o s.i_cluster_cmd_resp_spill = false := by
  by_cases hr : SpillRegister.ready_o s.i_cluster_cmd_resp_spill = true
  · apply Or.inl
    have haccepts : SpillRegister.accepts s.i_cluster_cmd_resp_spill (resp_spill_input s)
        = if resp_arb_valid s && SpillRegister.ready_o s.i_cluster_cmd_resp_spill then
          [resp_arb_data s] else [] := rfl
    rw [haccepts, hr, Bool.and_true, taking_eq h]
    split_ifs <;> rfl
  · exact Or.inr (Bool.eq_false_of_not_eq_true hr)

end Ports

/-! ## The invariant -/

/-- The arbiters hold what they show, the counters count what is in flight, and the FIFOs hold what
was accepted and not yet handed on. -/
structure Inv (s : Sys) : Prop where
  arb : Arbitrated s.hw
  req_fifo : ∀ k, FifoV3.Inv INTF_RESP_BUFF_SIZE (s.hw.i_req_fifo k)
  resp_fifo : ∀ k, FifoV3.Inv INTF_RESP_BUFF_SIZE (s.hw.i_resp_fifo k)
  spill : s.hw.i_cluster_cmd_resp_spill.b_full_q = false
  commands : ∀ j < NUM_CLUSTERS,
    s.from_cluster j ++ SpillRegister.elems (s.hw.i_cluster_cmd_spill j) = s.accepted j
  selected : ∀ d ∈ s.delivered, d.cluster < NUM_CLUSTERS ∧ d.intf < NUM_CMD_INTERFACES
    ∧ d.cmd.intf_id.val = d.intf
  /-- What is in flight was delivered, and its response was not taken. -/
  in_flight : ∀ k < NUM_CMD_INTERFACES, (s.taken_from k).length
      + (FifoV3.elems INTF_RESP_BUFF_SIZE (s.hw.i_req_fifo k)).length = (s.to_intf k).length
  room : ∀ k < NUM_CMD_INTERFACES,
    (FifoV3.elems INTF_RESP_BUFF_SIZE (s.hw.i_req_fifo k)).length < INTF_RESP_BUFF_SIZE
  responses : ∀ k < NUM_CMD_INTERFACES,
    s.taken_from k ++ FifoV3.elems INTF_RESP_BUFF_SIZE (s.hw.i_resp_fifo k) = s.responses k
  answers : ∀ k < NUM_CMD_INTERFACES, (s.responses k).length ≤ (s.to_intf k).length
  intf : ∀ r ∈ s.taken, r.1 < NUM_CMD_INTERFACES
  shown : s.shown ++ SpillRegister.elems s.hw.i_cluster_cmd_resp_spill = s.taken.map Prod.snd

namespace Inv

variable {s : Sys} {i : Input}

/-- The responses in the buffer belong to commands in flight. -/
theorem buffered_le (h : Inv s) {k : ℕ} (hk : k < NUM_CMD_INTERFACES) :
    (FifoV3.elems INTF_RESP_BUFF_SIZE (s.hw.i_resp_fifo k)).length
      ≤ (FifoV3.elems INTF_RESP_BUFF_SIZE (s.hw.i_req_fifo k)).length := by
  have hresp := congrArg List.length (h.responses k hk)
  rw [List.length_append] at hresp
  have hflight := h.in_flight k hk
  have hans := h.answers k hk
  omega

/-- A response always finds a place: there are no more responses than commands in flight, and fewer
of these than places. -/
theorem resp_not_full (h : Inv s) {k : ℕ} (hk : k < NUM_CMD_INTERFACES) :
    FifoV3.full_o INTF_RESP_BUFF_SIZE (s.hw.i_resp_fifo k) = false := by
  rw [Bool.eq_false_iff, Ne, (h.resp_fifo k).full_o_iff]
  have hle := h.buffered_le hk
  have hroom := h.room k hk
  omega

/-- The counter has a place for every command. -/
theorem req_not_full (h : Inv s) {k : ℕ} (hk : k < NUM_CMD_INTERFACES) :
    FifoV3.full_o INTF_RESP_BUFF_SIZE (s.hw.i_req_fifo k) = false := by
  rw [Bool.eq_false_iff, Ne, (h.req_fifo k).full_o_iff]
  have hroom := h.room k hk
  omega

/-- Only a response that is there is popped. -/
theorem resp_not_empty {s : State} {k : ℕ} (hp : fifo_resp_buffer_pop s k = true) :
    FifoV3.empty_o (s.i_resp_fifo k) = false := by
  rw [fifo_resp_buffer_pop, Bool.and_eq_true, fifo_resp_buffer_valid, Bool.not_eq_true'] at hp
  exact hp.2

/-- A response that is taken has its command in flight. -/
theorem req_not_empty (h : Inv s) {k : ℕ} (hk : k < NUM_CMD_INTERFACES)
    (hp : fifo_in_flight_req_pop s.hw k = true) :
    FifoV3.empty_o (s.hw.i_req_fifo k) = false := by
  have hresp : FifoV3.elems INTF_RESP_BUFF_SIZE (s.hw.i_resp_fifo k) ≠ [] := by
    have hempty := resp_not_empty hp
    exact fun hnil => Bool.eq_false_iff.mp hempty (FifoV3.empty_o_iff.mpr hnil)
  have hle := h.buffered_le hk
  have hpos := List.length_pos_iff.mpr hresp
  have hreq : FifoV3.elems INTF_RESP_BUFF_SIZE (s.hw.i_req_fifo k) ≠ [] := by
    apply List.length_pos_iff.mp
    omega
  exact Bool.eq_false_iff.mpr fun hempty => hreq (FifoV3.empty_o_iff.mp hempty)

/-- An interface with room has at least two places left. -/
theorem lt_of_space (h : Inv s) {k : ℕ} (hk : k < NUM_CMD_INTERFACES)
    (hs : fifo_in_flight_req_has_space s.hw k = true) :
    (FifoV3.elems INTF_RESP_BUFF_SIZE (s.hw.i_req_fifo k)).length < INTF_RESP_BUFF_SIZE - 1 := by
  have hroom := h.room k hk
  have husage : fifo_in_flight_req_usage s.hw k
      = (FifoV3.elems INTF_RESP_BUFF_SIZE (s.hw.i_req_fifo k)).length := by
    rw [FifoV3.length_elems] at hroom ⊢
    exact Nat.mod_eq_of_lt hroom
  rw [fifo_in_flight_req_has_space, decide_eq_true_eq, husage] at hs
  exact hs

/-! ### The FIFOs -/

/-- The counter of an interface: up by a command, down by a response. -/
theorem req_step (h : Inv s) {k : ℕ} (hk : k < NUM_CMD_INTERFACES) :
    (fifo_resp_buffer_pop s.hw k).toNat + (FifoV3.elems INTF_RESP_BUFF_SIZE
        ((CmdUnit.step s.hw i).i_req_fifo k)).length
      = (FifoV3.elems INTF_RESP_BUFF_SIZE (s.hw.i_req_fifo k)).length
        + (fifo_in_flight_req_push s.hw i k).toNat := by
  have hqueue := (h.req_fifo k).queue_step (i := req_fifo_input s.hw i k)
    (fun _ => h.req_not_full hk) (fun hp => h.req_not_empty hk hp)
  have hlen := congrArg List.length hqueue
  rw [List.length_append, List.length_append] at hlen
  have hpop : (if (req_fifo_input s.hw i k).pop_i then
      [FifoV3.data_o (s.hw.i_req_fifo k)] else []).length = (fifo_resp_buffer_pop s.hw k).toNat := by
    show (if fifo_resp_buffer_pop s.hw k then _ else _ : List Bool).length = _
    cases fifo_resp_buffer_pop s.hw k <;> rfl
  have hpush : (if (req_fifo_input s.hw i k).push_i then
      [(req_fifo_input s.hw i k).data_i] else []).length
        = (fifo_in_flight_req_push s.hw i k).toNat := by
    show (if fifo_in_flight_req_push s.hw i k then _ else _ : List Bool).length = _
    cases fifo_in_flight_req_push s.hw i k <;> rfl
  rw [hpop, hpush] at hlen
  exact hlen

/-- The response buffer of an interface. -/
theorem resp_step (h : Inv s) (i : Input) {k : ℕ} (hk : k < NUM_CMD_INTERFACES) :
    (if fifo_resp_buffer_pop s.hw k then [FifoV3.data_o (s.hw.i_resp_fifo k)] else [])
        ++ FifoV3.elems INTF_RESP_BUFF_SIZE ((CmdUnit.step s.hw i).i_resp_fifo k)
      = FifoV3.elems INTF_RESP_BUFF_SIZE (s.hw.i_resp_fifo k)
        ++ if i.intf_cmd_resp_valid_i k then [i.intf_cmd_resp_i k] else [] :=
  (h.resp_fifo k).queue_step (i := resp_fifo_input s.hw i k) (fun _ => h.resp_not_full hk)
    (fun hp => resp_not_empty hp)

/-! ### The logs -/

/-- A command that leaves a cluster is written down for it. -/
theorem step_from_cluster (s : Sys) (i : Input) (j : ℕ) : (s.step i).from_cluster j
    = s.from_cluster j ++ ((delivering s.hw i).filter fun d => d.cluster == j).map (·.cmd) := by
  show ((s.delivered ++ delivering s.hw i).filter _).map _ = _
  rw [List.filter_append, List.map_append]
  rfl

theorem step_to_intf (s : Sys) (i : Input) {k : ℕ} (hk : k < NUM_CMD_INTERFACES) :
    (s.step i).to_intf k = s.to_intf k
      ++ if fifo_in_flight_req_push s.hw i k then [intf_cmd_o s.hw k] else [] := by
  rw [← delivering_to hk]
  show ((s.delivered ++ delivering s.hw i).filter _).map _ = _
  rw [List.filter_append, List.map_append]
  rfl

/-- So is a response that leaves its buffer. -/
theorem step_taken_from (s : Sys) (i : Input) {k : ℕ} (hk : k < NUM_CMD_INTERFACES) :
    (s.step i).taken_from k = s.taken_from k
      ++ if fifo_resp_buffer_pop s.hw k then [FifoV3.data_o (s.hw.i_resp_fifo k)] else [] := by
  rw [← taking_from hk]
  show ((s.taken ++ taking s.hw).filter _).map _ = _
  rw [List.filter_append, List.map_append]
  rfl

/-- Accepted commands of a cluster: those delivered, then those in its spill register. -/
theorem commands_step (h : Inv s) {j : ℕ} (hj : j < NUM_CLUSTERS) : (s.step i).from_cluster j
      ++ SpillRegister.elems ((s.step i).hw.i_cluster_cmd_spill j) = (s.step i).accepted j := by
  have hspill := SpillRegister.elems_step (s.hw.i_cluster_cmd_spill j) (cluster_spill_input s.hw i j)
  have hacc : (s.step i).accepted j = s.accepted j
      ++ SpillRegister.accepts (s.hw.i_cluster_cmd_spill j) (cluster_spill_input s.hw i j) := rfl
  rw [step_from_cluster, delivering_from h.arb hj, hacc, ← h.commands j hj, List.append_assoc,
    List.append_assoc, ← hspill]
  rfl

/-- Commands of an interface: those whose response left the buffer, and those in flight. -/
theorem in_flight_step (h : Inv s) {k : ℕ} (hk : k < NUM_CMD_INTERFACES) :
    ((s.step i).taken_from k).length
      + (FifoV3.elems INTF_RESP_BUFF_SIZE ((s.step i).hw.i_req_fifo k)).length
      = ((s.step i).to_intf k).length := by
  have hfifo := h.req_step (i := i) hk
  have hold := h.in_flight k hk
  have hhw : (s.step i).hw = CmdUnit.step s.hw i := rfl
  rw [step_taken_from s i hk, step_to_intf s i hk, List.length_append, List.length_append,
    Sync.length_if, Sync.length_if, hhw]
  omega

/-- A command goes into flight only while there is a place left. -/
theorem room_step (h : Inv s) {k : ℕ} (hk : k < NUM_CMD_INTERFACES) :
    (FifoV3.elems INTF_RESP_BUFF_SIZE ((s.step i).hw.i_req_fifo k)).length
      < INTF_RESP_BUFF_SIZE := by
  have hfifo := h.req_step (i := i) hk
  have hold := h.room k hk
  have hhw : (s.step i).hw = CmdUnit.step s.hw i := rfl
  rw [hhw]
  cases hp : fifo_in_flight_req_push s.hw i k with
  | true =>
    -- a command goes out only with a place to spare
    rw [push_eq, intf_valid_o, Bool.and_eq_true, Bool.and_eq_true] at hp
    have hlt := h.lt_of_space hk hp.1.2
    rw [push_eq, intf_valid_o, hp.1.1, hp.1.2, hp.2] at hfifo
    have hone : (true && true && true).toNat = 1 := rfl
    rw [hone] at hfifo
    omega
  | false =>
    rw [hp] at hfifo
    have hzero : false.toNat = 0 := rfl
    rw [hzero] at hfifo
    omega

/-- Responses of an interface: those that left the buffer, then those in it. -/
theorem responses_step (h : Inv s) {k : ℕ} (hk : k < NUM_CMD_INTERFACES) :
    (s.step i).taken_from k
      ++ FifoV3.elems INTF_RESP_BUFF_SIZE ((s.step i).hw.i_resp_fifo k) = (s.step i).responses k := by
  have hresp : (s.step i).responses k = s.responses k
      ++ if i.intf_cmd_resp_valid_i k then [i.intf_cmd_resp_i k] else [] := rfl
  have hhw : (s.step i).hw = CmdUnit.step s.hw i := rfl
  rw [step_taken_from s i hk, hresp, hhw, ← h.responses k hk, List.append_assoc, List.append_assoc,
    h.resp_step i hk]

/-- There are never more responses than commands. -/
theorem answers_step (h : Inv s) (he : env s i) {k : ℕ} (hk : k < NUM_CMD_INTERFACES) :
    ((s.step i).responses k).length ≤ ((s.step i).to_intf k).length := by
  have hold := h.answers k hk
  have hresp : (s.step i).responses k = s.responses k
      ++ if i.intf_cmd_resp_valid_i k then [i.intf_cmd_resp_i k] else [] := rfl
  have hgrow : (s.to_intf k).length ≤ ((s.step i).to_intf k).length := by
    rw [step_to_intf s i hk, List.length_append]
    exact Nat.le_add_right _ _
  have hans := he k hk
  rw [hresp, Sync.length_append_if]
  cases hv : i.intf_cmd_resp_valid_i k with
  | true =>
    have hlt := hans hv
    exact hlt
  | false => exact hold.trans hgrow

/-- The spill register of the responses always takes one. -/
theorem taking_accepts (h : Inv s) : (taking s.hw).map Prod.snd
    = SpillRegister.accepts s.hw.i_cluster_cmd_resp_spill (resp_spill_input s.hw) := by
  refine (taking_length h.arb).resolve_right fun hc => ?_
  exact absurd (hc.symm.trans (SpillRegister.ready_o_of_not_b h.spill)) (by decide)

/-- Responses to the clusters: those shown, then the one in the spill register. -/
theorem shown_step (h : Inv s) : (s.step i).shown
      ++ SpillRegister.elems (s.step i).hw.i_cluster_cmd_resp_spill
    = (s.step i).taken.map Prod.snd := by
  have hspill := SpillRegister.elems_step s.hw.i_cluster_cmd_resp_spill (resp_spill_input s.hw)
  have hoffers : SpillRegister.offers s.hw.i_cluster_cmd_resp_spill (resp_spill_input s.hw)
      = if cmd_resp_valid_o s.hw then [cmd_resp_o s.hw] else [] := by
    show (if SpillRegister.valid_o s.hw.i_cluster_cmd_resp_spill && true then _ else _) = _
    rw [Bool.and_true]
    rfl
  have hshown : (s.step i).shown = s.shown
      ++ SpillRegister.offers s.hw.i_cluster_cmd_resp_spill (resp_spill_input s.hw) := by
    rw [hoffers]
    rfl
  have htaken : (s.step i).taken = s.taken ++ taking s.hw := rfl
  have hhw : (s.step i).hw.i_cluster_cmd_resp_spill
      = SpillRegister.step s.hw.i_cluster_cmd_resp_spill (resp_spill_input s.hw) := rfl
  rw [hshown, htaken, hhw, List.map_append, ← h.shown, h.taking_accepts, List.append_assoc, hspill,
    List.append_assoc]

/-- A head that is not granted stays, so an arbiter never waits for a request that is gone. -/
theorem arb_step (h : Inv s) : Arbitrated (CmdUnit.step s.hw i) where
  cmd := by
    intro k
    refine RrArbTree.held_step (by decide) (h.arb.cmd k) fun hgnt j hj hreq => ?_
    obtain ⟨hvalid, hid⟩ := mux_valid_iff.mp hreq
    have hstay : cluster_cmd_ready s.hw i j = false := by
      have hdef : cluster_cmd_ready s.hw i j = (cmd_arb_ready s.hw i (cluster_cmd s.hw j).intf_id
          && j == cmd_arb_idx s.hw (cluster_cmd s.hw j).intf_id) := rfl
      have hgnt' : cmd_arb_ready s.hw i k = false := hgnt
      rw [hdef, hid, hgnt', Bool.false_and]
    -- the register offers the same head again
    have hspill := SpillRegister.elems_step (s.hw.i_cluster_cmd_spill j)
      (cluster_spill_input s.hw i j)
    have hnone : SpillRegister.offers (s.hw.i_cluster_cmd_spill j) (cluster_spill_input s.hw i j)
        = [] := by
      show (if SpillRegister.valid_o (s.hw.i_cluster_cmd_spill j) && cluster_cmd_ready s.hw i j then
        _ else _) = _
      rw [hstay, Bool.and_false]
      rfl
    rw [hnone, List.nil_append] at hspill
    have hhead := SpillRegister.head_elems hvalid
    have hne := SpillRegister.valid_o_iff.mp hvalid
    have hvalid' : cluster_cmd_valid (CmdUnit.step s.hw i) j = true := by
      apply SpillRegister.valid_o_iff.mpr
      intro hnil
      have hempty := hspill.symm.trans hnil
      exact hne (List.append_eq_nil_iff.mp hempty).1
    have hhead' := SpillRegister.head_elems hvalid'
    have hsame : cluster_cmd (CmdUnit.step s.hw i) j = cluster_cmd s.hw j := by
      have hboth := hhead'.symm.trans ((congrArg List.head? hspill).trans
        (List.head?_append_of_ne_nil _ hne))
      exact Option.some.inj (hboth.trans hhead)
    exact mux_valid_iff.mpr ⟨hvalid', hsame ▸ hid⟩
  resp := by
    refine RrArbTree.held_step (i := resp_arb_input s.hw) (by decide) h.arb.resp fun hgnt => ?_
    exact absurd hgnt (by simp [resp_arb_input])

/-- **A cycle of the command unit.** -/
theorem step (h : Inv s) (he : env s i) : Inv (s.step i) where
  arb := h.arb_step
  req_fifo := fun k => (h.req_fifo k).step _
  resp_fifo := fun k => (h.resp_fifo k).step _
  spill := SpillRegister.b_full_step h.spill rfl
  commands := fun j hj => h.commands_step hj
  selected := by
    intro d hd
    have hlog : (s.step i).delivered = s.delivered ++ delivering s.hw i := rfl
    rw [hlog, List.mem_append] at hd
    rcases hd with hd | hd
    · exact h.selected d hd
    · obtain ⟨k, hk, rfl⟩ := List.mem_map.mp hd
      obtain ⟨hlt, hgo⟩ := List.mem_filter.mp hk
      rw [Bool.and_eq_true, intf_valid_o, Bool.and_eq_true] at hgo
      -- the arbiter of the interface picked a cluster whose command names it
      obtain ⟨hidx, -, hid⟩ := arb_idx_spec h.arb hgo.1.1
      exact ⟨hidx, List.mem_range.mp hlt, hid⟩
  in_flight := fun k hk => h.in_flight_step hk
  room := fun k hk => h.room_step hk
  responses := fun k hk => h.responses_step hk
  answers := fun k hk => h.answers_step he hk
  intf := by
    intro r hr
    have hlog : (s.step i).taken = s.taken ++ taking s.hw := rfl
    rw [hlog, List.mem_append] at hr
    rcases hr with hr | hr
    · exact h.intf r hr
    · obtain ⟨k, hk, rfl⟩ := List.mem_map.mp hr
      exact List.mem_range.mp (List.mem_filter.mp hk).1
  shown := h.shown_step

/-- What the invariant says of the logs. -/
theorem conserved (h : Inv s) : Conserved s where
  commands := h.commands
  selected := h.selected
  order := by
    intro j hj k
    rw [← h.commands j hj]
    refine List.Sublist.trans ?_ (List.sublist_append_left _ _)
    apply List.Sublist.map
    apply List.monotone_filter_right
    intro d hd
    exact (Bool.and_eq_true_iff.mp hd).1
  responses := h.responses
  intf := h.intf
  shown := h.shown

theorem safe (h : Inv s) : Safe s.hw i where
  resp_push := fun k hk _ => h.resp_not_full hk
  req_push := fun k hk _ => h.req_not_full hk
  req_pop := fun k hk hp => h.req_not_empty hk hp
  offered := by
    rintro k hk hspace ⟨j, hj, hvalid, hid⟩
    rw [intf_valid_o, hspace, Bool.and_true]
    exact (RrArbTree.req_o_iff (by decide) (h.arb.cmd k)).mpr
      ⟨j, hj, mux_valid_iff.mpr ⟨hvalid, hid⟩⟩
  taken := by
    intro hex
    have hv : resp_arb_valid s.hw = true :=
      (RrArbTree.req_o_iff (by decide) h.arb.resp).mpr hex
    have htaking := taking_eq h.arb
    rw [if_pos hv] at htaking
    have hone := h.taking_accepts
    rw [htaking, List.map_singleton] at hone
    -- the register was empty or is emptied in this cycle
    have hspill := SpillRegister.elems_step s.hw.i_cluster_cmd_resp_spill (resp_spill_input s.hw)
    have hdrain : SpillRegister.offers s.hw.i_cluster_cmd_resp_spill (resp_spill_input s.hw)
        = SpillRegister.elems s.hw.i_cluster_cmd_resp_spill :=
      SpillRegister.offers_all h.spill rfl
    rw [hdrain, ← hone, List.append_cancel_left_eq] at hspill
    have hvalid : cmd_resp_valid_o (CmdUnit.step s.hw i) = true := by
      apply SpillRegister.valid_o_iff.mpr
      exact hspill ▸ List.cons_ne_nil _ _
    have hhead := SpillRegister.head_elems hvalid
    refine ⟨_, htaking, hvalid, ?_⟩
    have hboth := hhead.symm.trans (congrArg List.head? hspill)
    exact Option.some.inj hboth

end Inv

theorem inv_init : Inv init where
  arb := ⟨fun _ => RrArbTree.held_reset, RrArbTree.held_reset⟩
  req_fifo := fun _ => FifoV3.inv_reset _ (by decide) (by decide)
  resp_fifo := fun _ => FifoV3.inv_reset _ (by decide) (by decide)
  spill := rfl
  commands := fun _ _ => rfl
  selected := fun d hd => absurd hd List.not_mem_nil
  in_flight := fun _ _ => rfl
  room := fun _ _ => (by decide : 0 < INTF_RESP_BUFF_SIZE)
  responses := fun _ _ => rfl
  answers := fun _ _ => le_refl _
  intf := fun r hr => absurd hr List.not_mem_nil
  shown := rfl

/-! ## Whole runs -/

/-- **Nothing lost, nothing twice.** In every reachable state the commands accepted from a
cluster are those delivered, each to the interface it names, followed by those in the
register; and the responses of an interface are those taken, followed by those in its
buffer, and every one taken appears on `cmd_resp_o`. In no cycle is a FIFO pushed while
full or the count of commands in flight popped while empty. -/
theorem commands_conserved {s : Sys} (h : Reach s) :
    Conserved s ∧ ∀ i, env s i → Safe s.hw i := by
  have hinv : Inv s := by
    refine Sync.Reach.inv (P := Inv) ?_ (fun _ _ hi he => hi.step he) h
    rintro _ rfl
    exact inv_init
  exact ⟨hinv.conserved, fun _ _ => hinv.safe⟩

/-! Both clusters send a command to interface 1; the interface answers them in the other
order. -/

/-- A command to send a packet, by a core. -/
def demo_cmd (core_id : BitVec 3) : pspin_cmd_t :=
  { zero_cmd with intf_id := CMD_NIC_OUTBOUND_ID, cmd_id := ⟨0, core_id, 0⟩ }

/-- A cycle with or without commands, and with or without a response. -/
def demo_cycle (cmds : Bool) (resp : Option (BitVec 3)) : Input where
  cmd_valid_i := fun _ => cmds
  cmd_i := fun j => demo_cmd (BitVec.ofNat 3 (j + 1))
  intf_ready_i := fun _ => true
  intf_cmd_resp_valid_i := fun k => resp.isSome && k == 1
  intf_cmd_resp_i := fun _ => ⟨⟨0, resp.getD 0, 0⟩, 0⟩

/-- Both clusters give a command, and both are answered, in the other order. -/
def demo_cycles : List Input :=
  [demo_cycle true none, demo_cycle false none, demo_cycle false none, demo_cycle false (some 2),
    demo_cycle false (some 1), demo_cycle false none, demo_cycle false none]

theorem commands_conserved_demo :
    Conserved (Sync.run step init demo_cycles)
      ∧ Safe (Sync.run step init demo_cycles).hw (demo_cycle false none)
      ∧ (Sync.run step init demo_cycles).delivered.map (fun d => (d.cluster, d.intf, d.cmd.cmd_id))
        = [(0, 1, ⟨0, 1, 0⟩), (1, 1, ⟨0, 2, 0⟩)]
      ∧ (Sync.run step init demo_cycles).shown.map (·.cmd_id) = [⟨0, 2, 0⟩, ⟨0, 1, 0⟩] := by
  have hstart : Reach init := .reset rfl
  have hreach : Reach (Sync.run step init demo_cycles) := hstart.run (by decide +kernel)
  obtain ⟨hstate, hcycle⟩ := commands_conserved hreach
  exact ⟨hstate, hcycle _ (by decide +kernel), by decide +kernel, by decide +kernel⟩

end Sys

end Pspin.CmdUnit
