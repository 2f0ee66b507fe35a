/-
`scheduler`: tasks from the message queues to the clusters.

A task goes to its home cluster when that one is ready and not full, and else to the
least loaded of the clusters that are ready. It is accepted when that cluster is not full.
Where the output register of the cluster has no place, which happens when no cluster is
ready, the task is kept in `WaitTransfer` until it has one. Each cluster has a counter of
its tasks, up for a task handed to its output register and down for a feedback.

The choice of the least loaded cluster is made for four clusters; the missing ones read as
zero and not ready. An index of a cluster has `CLUSTER_ID_W` bits.
-/
import Mathlib.Algebra.Order.Ring.Nat
import Pspin.Config
import Pspin.Counter
import Pspin.RrArbTree
import Pspin.SpillRegister

set_option autoImplicit false

namespace Pspin.Scheduler

/-- Tasks that a cluster can hold. -/
def MAX_OCC : ℕ := NUM_HERS_PER_CLUSTER

/-- Bits of an occupation counter. -/
def OCC_W : ℕ := Nat.clog 2 NUM_HERS_PER_CLUSTER + 1

/-- Bits of a cluster's number. -/
def CLUSTER_ID_W : ℕ := Nat.clog 2 NUM_CLUSTERS

/-- Whether an accepted task still waits for its output register. -/
inductive state_t
  | ServePacket | WaitTransfer
deriving DecidableEq, Repr

/-- Clusters are numbered from 0, and what is kept for each of them is a function of the
number, read below `NUM_CLUSTERS` only. -/
structure State where
  state_q : state_t
  cluster_id_q : ℕ
  task_q : handler_task_t
  cluster_occup_q : ℕ → ℕ
  i_cluster_task_spill : ℕ → SpillRegister.State handler_task_t
  i_cluster_feedback_spill : ℕ → SpillRegister.State feedback_descr_t
  i_rr_arb_tree : RrArbTree.State

/-- The input ports in one cycle. -/
structure Input where
  task_valid_i : Bool
  task_descr_i : handler_task_t
  cluster_task_ready_i : ℕ → Bool
  cluster_feedback_valid_i : ℕ → Bool
  cluster_feedback_i : ℕ → feedback_descr_t
  pktgen_feedback_ready_i : Bool

def zero_task : handler_task_t := ⟨0, 0, 0, 0, 0, 0, 0, 0, 0, false, fun _ => 0, fun _ => 0⟩

/-- After reset no cluster holds a task. -/
def reset : State where
  state_q := .ServePacket
  cluster_id_q := 0
  task_q := zero_task
  cluster_occup_q := fun _ => 0
  i_cluster_task_spill := fun _ => SpillRegister.reset zero_task
  i_cluster_feedback_spill := fun _ => SpillRegister.reset ⟨0, 0, 0, false⟩
  i_rr_arb_tree := RrArbTree.reset

/-- The least of four values; a value that is not enabled counts as the largest. -/
def argmin4 (VALUE_WIDTH : ℕ) (values_i : ℕ → ℕ) (enabled_i : ℕ → Bool) : ℕ :=
  let values k := if enabled_i k then values_i k else 2 ^ VALUE_WIDTH - 1
  -- two levels of comparators, and of equal values the one with the lower index
  let min_l0 := if values 0 ≤ values 1 then 0 else 1
  let min_l1 := if values 2 ≤ values 3 then 2 else 3
  if values min_l0 ≤ values min_l1 then min_l0 else min_l1

/-! ## The ports of the output and feedback registers -/

/-- The output register of cluster `k` takes a task. -/
def cluster_task_ready_id (s : State) (k : ℕ) : Bool :=
  SpillRegister.ready_o (s.i_cluster_task_spill k)

def cluster_task_valid_o (s : State) (k : ℕ) : Bool :=
  SpillRegister.valid_o (s.i_cluster_task_spill k)

def cluster_task_descr_o (s : State) (k : ℕ) : handler_task_t :=
  SpillRegister.data_o (s.i_cluster_task_spill k)

/-- The feedback register of cluster `k` takes a feedback. -/
def cluster_feedback_ready_o (s : State) (k : ℕ) : Bool :=
  SpillRegister.ready_o (s.i_cluster_feedback_spill k)

def cluster_feedback_valid_iq (s : State) (k : ℕ) : Bool :=
  SpillRegister.valid_o (s.i_cluster_feedback_spill k)

/-! ## Selection -/

/-- The home cluster is in the last bits of the msgid. -/
def home_cluster_id (i : Input) : ℕ := i.task_descr_i.msgid.toNat % 2 ^ CLUSTER_ID_W

/-- The cluster with the fewest tasks among those whose register is ready. Where none is, the
comparators still show one. -/
def c_occup_min (s : State) : ℕ :=
  argmin4 OCC_W (fun k => if k < NUM_CLUSTERS then s.cluster_occup_q k else 0)
    (fun k => decide (k < NUM_CLUSTERS) && cluster_task_ready_id s k) % 2 ^ CLUSTER_ID_W

/-- Even that cluster is full. -/
def no_cluster_avail (s : State) : Bool := decide (MAX_OCC ≤ s.cluster_occup_q (c_occup_min s))

/-- The home cluster has a place. It is taken as well where no cluster has one. -/
def can_use_home_cluster (s : State) (i : Input) : Bool :=
  -- with no cluster available the choice is of no use: no task is accepted
  no_cluster_avail s || (decide (s.cluster_occup_q (home_cluster_id i) < MAX_OCC)
    && cluster_task_ready_id s (home_cluster_id i))

/-- The home cluster where it has a place, and the least loaded one otherwise. -/
def sel_cluster_id (s : State) (i : Input) : ℕ :=
  if can_use_home_cluster s i then home_cluster_id i else c_occup_min s

/-- The choice is made when the task is accepted, and kept. -/
def cluster_id_d (s : State) (i : Input) : ℕ :=
  if s.state_q == .ServePacket then sel_cluster_id s i else s.cluster_id_q

/-! ## State transitions -/

/-- A task is accepted in `ServePacket` only, and only if some cluster has a place. -/
def task_ready_o (s : State) (i : Input) : Bool :=
  match s.state_q with
  | .ServePacket => i.task_valid_i && !no_cluster_avail s
  | .WaitTransfer => false

/-- A task is handed to its cluster's register. -/
def serving_cluster (s : State) (i : Input) : Bool :=
  match s.state_q with
  | .ServePacket => i.task_valid_i && !no_cluster_avail s
  | .WaitTransfer => true

def state_d (s : State) (i : Input) : state_t :=
  match s.state_q with
  | .ServePacket =>
    if i.task_valid_i && !no_cluster_avail s then
      -- the task is accepted, and stays here when its output register has no place
      (if cluster_task_ready_id s (cluster_id_d s i) then .ServePacket else .WaitTransfer)
    else .ServePacket
  | .WaitTransfer =>
    if cluster_task_ready_id s s.cluster_id_q then .ServePacket else .WaitTransfer

/-- The task that was accepted. -/
def task_d (s : State) (i : Input) : handler_task_t :=
  if i.task_valid_i && task_ready_o s i then i.task_descr_i else s.task_q

/-- The task is put on all outputs, and one of them is valid. -/
def cluster_task_descr_od (s : State) (i : Input) : handler_task_t :=
  if s.state_q == .ServePacket then i.task_descr_i else s.task_q

/-- Only the register of the chosen cluster is offered the task. -/
def cluster_task_valid_od (s : State) (i : Input) (k : ℕ) : Bool :=
  cluster_id_d s i == k && serving_cluster s i

/-! ## Feedback -/

/-- The arbiter of the feedbacks sees the feedback registers. -/
def feedback_arb_input (s : State) (i : Input) : RrArbTree.Input where
  req_i := cluster_feedback_valid_iq s
  gnt_i := i.pktgen_feedback_ready_i

/-- The arbiter grants the feedback of cluster `k`. -/
def cluster_feedback_ready_oq (s : State) (i : Input) (k : ℕ) : Bool :=
  RrArbTree.gnt_o NUM_CLUSTERS s.i_rr_arb_tree (feedback_arb_input s i) k

def pktgen_feedback_valid_o (s : State) : Bool :=
  RrArbTree.req_o NUM_CLUSTERS s.i_rr_arb_tree (cluster_feedback_valid_iq s)

def pktgen_feedback_o (s : State) : feedback_descr_t :=
  SpillRegister.data_o (s.i_cluster_feedback_spill
    (RrArbTree.idx_o NUM_CLUSTERS s.i_rr_arb_tree (cluster_feedback_valid_iq s)))

/-! ## Occupation -/

/-- Tasks that cluster `k` holds: up by a task that its register takes, down by a feedback that
leaves. -/
def cluster_occup_d (s : State) (i : Input) (k : ℕ) : ℕ :=
  match cluster_task_valid_od s i k && cluster_task_ready_id s k,
    cluster_feedback_valid_iq s k && cluster_feedback_ready_oq s i k with
  | true, false => Counter.inc OCC_W (s.cluster_occup_q k)
  | false, true => Counter.dec OCC_W (s.cluster_occup_q k)
  -- a task that comes and one that is done cancel out
  | _, _ => s.cluster_occup_q k

/-! ## A clock edge -/

/-- The ports of the output register of cluster `k`. -/
def task_spill_input (s : State) (i : Input) (k : ℕ) : SpillRegister.Input handler_task_t where
  valid_i := cluster_task_valid_od s i k
  data_i := cluster_task_descr_od s i
  ready_i := i.cluster_task_ready_i k

/-- The ports of its feedback register. -/
def feedback_spill_input (s : State) (i : Input) (k : ℕ) :
    SpillRegister.Input feedback_descr_t where
  valid_i := i.cluster_feedback_valid_i k
  data_i := i.cluster_feedback_i k
  ready_i := cluster_feedback_ready_oq s i k

def step (s : State) (i : Input) : State where
  state_q := state_d s i
  cluster_id_q := cluster_id_d s i
  task_q := task_d s i
  cluster_occup_q := cluster_occup_d s i
  i_cluster_task_spill := fun k =>
    SpillRegister.step (s.i_cluster_task_spill k) (task_spill_input s i k)
  i_cluster_feedback_spill := fun k =>
    SpillRegister.step (s.i_cluster_feedback_spill k) (feedback_spill_input s i k)
  i_rr_arb_tree := RrArbTree.step NUM_CLUSTERS s.i_rr_arb_tree (feedback_arb_input s i)

/-! ## The choice of a cluster -/

variable {s : State} {i : Input}

/-- The home cluster is one of the clusters. -/
theorem home_cluster_id_lt (i : Input) : home_cluster_id i < NUM_CLUSTERS :=
  Nat.mod_lt _ (Nat.two_pow_pos _)

theorem c_occup_min_lt (s : State) : c_occup_min s < NUM_CLUSTERS :=
  Nat.mod_lt _ (Nat.two_pow_pos _)

theorem sel_cluster_id_lt (s : State) (i : Input) : sel_cluster_id s i < NUM_CLUSTERS := by
  unfold sel_cluster_id
  split_ifs
  · exact home_cluster_id_lt i
  · exact c_occup_min_lt s

/-- A task that is accepted goes to a cluster that is not full. -/
theorem occup_of_sel (h : no_cluster_avail s = false) :
    s.cluster_occup_q (sel_cluster_id s i) < MAX_OCC := by
  have hmin : s.cluster_occup_q (c_occup_min s) < MAX_OCC := by
    rw [no_cluster_avail, decide_eq_false_iff_not] at h
    omega
  unfold sel_cluster_id
  by_cases hhome : can_use_home_cluster s i = true
  · rw [if_pos hhome]
    rw [can_use_home_cluster, h, Bool.false_or, Bool.and_eq_true, decide_eq_true_eq] at hhome
    exact hhome.1
  · rw [if_neg hhome]
    exact hmin

end Pspin.Scheduler
