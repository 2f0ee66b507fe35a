/-
Delivery of tasks by `scheduler`, over whole runs.

`Sys` records the tasks accepted and the tasks handed to an output register, with the
cluster, both in order; and for each cluster the tasks that left its register, the
feedbacks that came in and the feedbacks that were passed on. A handed task is the oldest
one that is not handed yet, so nothing is lost, doubled or swapped, and the counter of a
cluster is what was handed to it less the feedbacks passed on.

A counter cannot pass its bound: a task is accepted for a cluster that is not full, and
while it waits for a place nothing else is handed out, so the counter of its cluster only
goes down.
-/
import Mathlib.Data.List.Count
import Pspin.Scheduler
import Pspin.Sync

set_option autoImplicit false

namespace Pspin.Scheduler

structure Sys where
  hw : State
  accepted : List handler_task_t
  /-- Tasks, with the cluster whose output register took them. -/
  handed : List (ℕ × handler_task_t)
  /-- For each cluster: the tasks that left the register, and the feedbacks that came in
  and were passed on. -/
  delivered : ℕ → List handler_task_t
  entered : ℕ → ℕ
  fed_back : ℕ → ℕ

/-- The output registers that take a task in this cycle, with the task. -/
def handing (s : State) (i : Input) : List (ℕ × handler_task_t) :=
  ((List.range NUM_CLUSTERS).filter fun k =>
    cluster_task_valid_od s i k && cluster_task_ready_id s k).map
    fun k => (k, cluster_task_descr_od s i)

/-- The task accepted in this cycle. -/
def accepting (s : State) (i : Input) : List handler_task_t :=
  if i.task_valid_i && task_ready_o s i then [i.task_descr_i] else []

/-- A feedback of cluster `k` comes in. -/
def entering (s : State) (i : Input) (k : ℕ) : Bool :=
  i.cluster_feedback_valid_i k && cluster_feedback_ready_o s k

/-- A feedback of cluster `k` is passed on. -/
def passing (s : State) (i : Input) (k : ℕ) : Bool :=
  cluster_feedback_valid_iq s k && cluster_feedback_ready_oq s i k

namespace Sys

def step (s : Sys) (i : Input) : Sys where
  hw := Scheduler.step s.hw i
  accepted := s.accepted ++ accepting s.hw i
  handed := s.handed ++ handing s.hw i
  delivered := fun k => s.delivered k
    ++ SpillRegister.offers (s.hw.i_cluster_task_spill k) (task_spill_input s.hw i k)
  entered := fun k => s.entered k + (entering s.hw i k).toNat
  fed_back := fun k => s.fed_back k + (passing s.hw i k).toNat

def init : Sys := ⟨reset, [], [], fun _ => [], fun _ => 0, fun _ => 0⟩

/-- The tasks handed to cluster `k`, in order. -/
def to_cluster (s : Sys) (k : ℕ) : List handler_task_t :=
  (s.handed.filter fun p => p.1 == k).map Prod.snd

/-- A feedback of a cluster is for a task that was handed to it, one for each task. -/
def env (s : Sys) (i : Input) : Prop :=
  ∀ k < NUM_CLUSTERS, entering s.hw i k = true → s.entered k < (s.to_cluster k).length

instance (s : Sys) (i : Input) : Decidable (env s i) :=
  inferInstanceAs (Decidable (∀ k < NUM_CLUSTERS, _ → _))

def Reach : Sys → Prop := Sync.Reach (· = init) step env

/-- The accepted task that waits for its output register. -/
def waiting (s : State) : List handler_task_t :=
  if s.state_q == .WaitTransfer then [s.task_q] else []

/-- What holds between cycles. -/
structure Delivered (s : Sys) : Prop where
  /-- Accepted tasks are handed out in the order they came, each once and to one cluster;
  the last one is perhaps still waiting. -/
  once : s.handed.map Prod.snd ++ waiting s.hw = s.accepted
  cluster : ∀ p ∈ s.handed, p.1 < NUM_CLUSTERS
  order : ∀ k, (s.to_cluster k).Sublist s.accepted
  /-- A cluster gets the tasks handed to it, in this order. -/
  arrive : ∀ k, s.delivered k
    ++ SpillRegister.elems (s.hw.i_cluster_task_spill k) = s.to_cluster k
  occup : ∀ k < NUM_CLUSTERS, s.hw.cluster_occup_q k + s.fed_back k = (s.to_cluster k).length
  bound : ∀ k < NUM_CLUSTERS, s.hw.cluster_occup_q k ≤ NUM_HERS_PER_CLUSTER

/-- What holds in a cycle. -/
structure Handover (s : State) (i : Input) : Prop where
  /-- An accepted task is handed to the chosen cluster, or waits for it. -/
  accept : accepting s i ≠ [] → handing s i = [(cluster_id_d s i, i.task_descr_i)]
    ∨ (handing s i = [] ∧ waiting (Scheduler.step s i) = [i.task_descr_i]
      ∧ (Scheduler.step s i).cluster_id_q = cluster_id_d s i)
  /-- A task that waits is handed over in the first cycle in which its cluster is ready. -/
  wait : s.state_q = .WaitTransfer → accepting s i = []
    ∧ (cluster_task_ready_id s s.cluster_id_q = true → handing s i = [(s.cluster_id_q, s.task_q)])
    ∧ (cluster_task_ready_id s s.cluster_id_q = false → handing s i = []
      ∧ waiting (Scheduler.step s i) = [s.task_q]
      ∧ (Scheduler.step s i).cluster_id_q = s.cluster_id_q)

/-! ## One cycle at the ports -/

section Ports

variable {s : State} {i : Input}

theorem cluster_id_d_lt (hid : s.cluster_id_q < NUM_CLUSTERS) :
    cluster_id_d s i < NUM_CLUSTERS := by
  unfold cluster_id_d
  split_ifs
  · exact sel_cluster_id_lt s i
  · exact hid

/-- A task is handed to the chosen cluster only. -/
theorem handing_eq (hid : s.cluster_id_q < NUM_CLUSTERS) : handing s i
    = if serving_cluster s i && cluster_task_ready_id s (cluster_id_d s i) then
      [(cluster_id_d s i, cluster_task_descr_od s i)] else [] := by
  unfold handing
  split_ifs with hgo
  · rw [Bool.and_eq_true] at hgo
    rw [Lzc.filter_range_one (cluster_id_d_lt hid), List.map_singleton]
    intro k _
    rw [cluster_task_valid_od, hgo.1, Bool.and_true, Bool.and_eq_true, beq_iff_eq]
    constructor
    · exact fun h => h.1.symm
    · rintro rfl
      exact ⟨rfl, hgo.2⟩
  · rw [List.filter_eq_nil_iff.mpr, List.map_nil]
    intro k _ hk
    rw [cluster_task_valid_od, Bool.and_eq_true, Bool.and_eq_true, beq_iff_eq] at hk
    obtain ⟨⟨rfl, hserve⟩, hready⟩ := hk
    exact hgo (Bool.and_eq_true_iff.mpr ⟨hserve, hready⟩)

/-- The three things that can happen to a task in a cycle. -/
inductive Move (s : State) (i : Input) : Prop
  | idle (state : s.state_q = .ServePacket) (accept : accepting s i = []) (hand : handing s i = [])
      (next : (Scheduler.step s i).state_q = .ServePacket)
  | through (state : s.state_q = .ServePacket) (avail : no_cluster_avail s = false)
      (accept : accepting s i = [i.task_descr_i])
      (hand : handing s i = [(cluster_id_d s i, i.task_descr_i)])
      (next : (Scheduler.step s i).state_q = .ServePacket)
  | stop (state : s.state_q = .ServePacket) (avail : no_cluster_avail s = false)
      (accept : accepting s i = [i.task_descr_i]) (hand : handing s i = [])
      (next : (Scheduler.step s i).state_q = .WaitTransfer)
      (task : (Scheduler.step s i).task_q = i.task_descr_i)
  | release (state : s.state_q = .WaitTransfer) (accept : accepting s i = [])
      (ready : cluster_task_ready_id s s.cluster_id_q = true)
      (hand : handing s i = [(s.cluster_id_q, s.task_q)])
      (next : (Scheduler.step s i).state_q = .ServePacket)
  | keep (state : s.state_q = .WaitTransfer) (accept : accepting s i = [])
      (ready : cluster_task_ready_id s s.cluster_id_q = false) (hand : handing s i = [])
      (next : (Scheduler.step s i).state_q = .WaitTransfer)
      (task : (Scheduler.step s i).task_q = s.task_q)

theorem move_serve (hid : s.cluster_id_q < NUM_CLUSTERS) (hq : s.state_q = .ServePacket) :
    Move s i := by
  have hhand := handing_eq (i := i) hid
  have hstate : (Scheduler.step s i).state_q = state_d s i := rfl
  have htask : (Scheduler.step s i).task_q = task_d s i := rfl
  have hdescr : cluster_task_descr_od s i = i.task_descr_i := by
    rw [cluster_task_descr_od, hq]
    rfl
  by_cases hgo : (i.task_valid_i && !no_cluster_avail s) = true
  · -- a task is accepted, and moves on if its cluster is ready
    have hready : task_ready_o s i = true := by
      rw [task_ready_o, hq]
      exact hgo
    have hserve : serving_cluster s i = true := by
      rw [serving_cluster, hq]
      exact hgo
    rw [Bool.and_eq_true, Bool.not_eq_true'] at hgo
    have haccept : accepting s i = [i.task_descr_i] := by
      rw [accepting, hready, hgo.1]
      rfl
    rw [state_d, hq, hgo.1, hgo.2] at hstate
    rw [hserve, Bool.true_and, hdescr] at hhand
    by_cases hplace : cluster_task_ready_id s (cluster_id_d s i) = true
    · rw [hplace] at hstate
      rw [if_pos hplace] at hhand
      exact .through hq hgo.2 haccept hhand hstate
    · rw [Bool.eq_false_of_not_eq_true hplace] at hstate
      rw [if_neg hplace] at hhand
      refine .stop hq hgo.2 haccept hhand hstate ?_
      rw [htask, task_d, hready, hgo.1]
      rfl
  · have hready : task_ready_o s i = false := by
      rw [task_ready_o, hq]
      exact Bool.eq_false_of_not_eq_true hgo
    have hserve : serving_cluster s i = false := by
      rw [serving_cluster, hq]
      exact Bool.eq_false_of_not_eq_true hgo
    rw [state_d, hq] at hstate
    rw [hserve] at hhand
    refine .idle hq ?_ hhand (hstate.trans (if_neg hgo))
    rw [accepting, hready, Bool.and_false]
    rfl

theorem move_wait (hid : s.cluster_id_q < NUM_CLUSTERS) (hq : s.state_q = .WaitTransfer) :
    Move s i := by
  have hhand := handing_eq (i := i) hid
  have hstate : (Scheduler.step s i).state_q = state_d s i := rfl
  have htask : (Scheduler.step s i).task_q = task_d s i := rfl
  have hready : task_ready_o s i = false := by rw [task_ready_o, hq]
  have hserve : serving_cluster s i = true := by rw [serving_cluster, hq]
  have hdest : cluster_id_d s i = s.cluster_id_q := by
    rw [cluster_id_d, hq]
    rfl
  have hdescr : cluster_task_descr_od s i = s.task_q := by
    rw [cluster_task_descr_od, hq]
    rfl
  -- nothing is accepted while a task waits for its transfer
  have haccept : accepting s i = [] := by
    rw [accepting, hready, Bool.and_false]
    rfl
  rw [state_d, hq] at hstate
  rw [hserve, Bool.true_and, hdest, hdescr] at hhand
  -- the cluster has room, or the task stays
  by_cases hplace : cluster_task_ready_id s s.cluster_id_q = true
  · exact .release hq haccept hplace (hhand.trans (if_pos hplace)) (hstate.trans (if_pos hplace))
  · refine .keep hq haccept (Bool.eq_false_of_not_eq_true hplace) (hhand.trans (if_neg hplace))
      (hstate.trans (if_neg hplace)) ?_
    rw [htask, task_d, hready, Bool.and_false]
    rfl

theorem move (s : State) (i : Input) (hid : s.cluster_id_q < NUM_CLUSTERS) : Move s i := by
  cases hq : s.state_q with
  | ServePacket => exact move_serve hid hq
  | WaitTransfer => exact move_wait hid hq

/-- A task that is handed out goes to a cluster that is not full. -/
theorem not_full_of_handed (htarget : s.state_q = .WaitTransfer →
      s.cluster_occup_q s.cluster_id_q < MAX_OCC) {k : ℕ}
    (hk : cluster_task_valid_od s i k = true) : s.cluster_occup_q k < MAX_OCC := by
  rw [cluster_task_valid_od, Bool.and_eq_true, beq_iff_eq] at hk
  obtain ⟨rfl, hserve⟩ := hk
  cases hq : s.state_q with
  | ServePacket =>
    rw [serving_cluster, hq, Bool.and_eq_true, Bool.not_eq_true'] at hserve
    have hdest : cluster_id_d s i = sel_cluster_id s i := by
      rw [cluster_id_d, hq]
      rfl
    rw [hdest]
    exact occup_of_sel hserve.2
  | WaitTransfer =>
    have hdest : cluster_id_d s i = s.cluster_id_q := by
      rw [cluster_id_d, hq]
      rfl
    rw [hdest]
    exact htarget hq

/-- The register of cluster `k` takes what is handed to cluster `k`. -/
theorem handing_to (hid : s.cluster_id_q < NUM_CLUSTERS) (k : ℕ) :
    ((handing s i).filter fun p => p.1 == k).map Prod.snd
      = SpillRegister.accepts (s.i_cluster_task_spill k) (task_spill_input s i k) := by
  have haccepts : SpillRegister.accepts (s.i_cluster_task_spill k) (task_spill_input s i k)
      = if cluster_task_valid_od s i k && cluster_task_ready_id s k then
        [cluster_task_descr_od s i] else [] := rfl
  rw [haccepts, handing_eq hid, cluster_task_valid_od]
  -- there is one destination in a cycle, so the other clusters get nothing
  by_cases hk : cluster_id_d s i = k
  · rw [hk, BEq.rfl, Bool.true_and]
    split_ifs
    · rw [List.filter_cons_of_pos (by exact BEq.rfl)]
      rfl
    · rfl
  · have hne : (cluster_id_d s i == k) = false := beq_eq_false_iff_ne.mpr hk
    rw [hne, Bool.false_and, Bool.false_and, if_neg Bool.false_ne_true]
    split_ifs
    · rw [List.filter_cons_of_neg (by simp [hk])]
      rfl
    · rfl

/-- The feedback register of cluster `k` in a cycle, counted. -/
theorem feedback_count (k : ℕ) : (passing s i k).toNat
      + (SpillRegister.elems ((Scheduler.step s i).i_cluster_feedback_spill k)).length
    = (SpillRegister.elems (s.i_cluster_feedback_spill k)).length + (entering s i k).toNat := by
  have hlen := congrArg List.length (SpillRegister.elems_step (s.i_cluster_feedback_spill k)
    (feedback_spill_input s i k))
  have hoffers : (SpillRegister.offers (s.i_cluster_feedback_spill k)
      (feedback_spill_input s i k)).length = (passing s i k).toNat := by
    have hdef : SpillRegister.offers (s.i_cluster_feedback_spill k) (feedback_spill_input s i k)
        = if passing s i k then [SpillRegister.data_o (s.i_cluster_feedback_spill k)] else [] := rfl
    rw [hdef]
    cases passing s i k <;> rfl
  have haccepts : (SpillRegister.accepts (s.i_cluster_feedback_spill k)
      (feedback_spill_input s i k)).length = (entering s i k).toNat := by
    have hdef : SpillRegister.accepts (s.i_cluster_feedback_spill k) (feedback_spill_input s i k)
        = if entering s i k then [i.cluster_feedback_i k] else [] := rfl
    rw [hdef]
    cases entering s i k <;> rfl
  rw [List.length_append, List.length_append, hoffers, haccepts] at hlen
  exact hlen

end Ports

/-! ## The invariant -/

structure Inv (s : Sys) : Prop where
  id_lt : s.hw.cluster_id_q < NUM_CLUSTERS
  once : s.handed.map Prod.snd ++ waiting s.hw = s.accepted
  cluster : ∀ p ∈ s.handed, p.1 < NUM_CLUSTERS
  arrive : ∀ k, s.delivered k
    ++ SpillRegister.elems (s.hw.i_cluster_task_spill k) = s.to_cluster k
  /-- The cluster a task waits for is not full. -/
  target : s.hw.state_q = .WaitTransfer → s.hw.cluster_occup_q s.hw.cluster_id_q < MAX_OCC
  occup : ∀ k < NUM_CLUSTERS, s.hw.cluster_occup_q k + s.fed_back k = (s.to_cluster k).length
  bound : ∀ k < NUM_CLUSTERS, s.hw.cluster_occup_q k ≤ MAX_OCC
  entered : ∀ k, s.fed_back k
    + (SpillRegister.elems (s.hw.i_cluster_feedback_spill k)).length = s.entered k
  answers : ∀ k < NUM_CLUSTERS, s.entered k ≤ (s.to_cluster k).length

namespace Inv

variable {s : Sys} {i : Input}

theorem step_to_cluster (h : Inv s) (i : Input) (k : ℕ) : (s.step i).to_cluster k = s.to_cluster k
    ++ SpillRegister.accepts (s.hw.i_cluster_task_spill k) (task_spill_input s.hw i k) := by
  rw [← handing_to h.id_lt]
  show ((s.handed ++ handing s.hw i).filter _).map Prod.snd = _
  rw [List.filter_append, List.map_append]
  rfl

theorem length_step_to_cluster (h : Inv s) (i : Input) (k : ℕ) :
    ((s.step i).to_cluster k).length = (s.to_cluster k).length
      + (cluster_task_valid_od s.hw i k && cluster_task_ready_id s.hw k).toNat := by
  have hdef : SpillRegister.accepts (s.hw.i_cluster_task_spill k) (task_spill_input s.hw i k)
      = if cluster_task_valid_od s.hw i k && cluster_task_ready_id s.hw k then
        [cluster_task_descr_od s.hw i] else [] := rfl
  rw [h.step_to_cluster, List.length_append, hdef]
  cases cluster_task_valid_od s.hw i k && cluster_task_ready_id s.hw k <;> rfl

theorem once_step (h : Inv s) :
    (s.step i).handed.map Prod.snd ++ waiting (s.step i).hw = (s.step i).accepted := by
  have hhanded : (s.step i).handed.map Prod.snd
      = s.handed.map Prod.snd ++ (handing s.hw i).map Prod.snd := List.map_append
  have hacc : (s.step i).accepted = s.accepted ++ accepting s.hw i := rfl
  have hhw : (s.step i).hw = Scheduler.step s.hw i := rfl
  rw [hhanded, hacc, hhw, ← h.once, List.append_assoc, List.append_assoc]
  congr 1
  -- what is handed out is what waited, or else what came in
  rcases move s.hw i h.id_lt with ⟨hq, ha, hh, hn⟩ | ⟨hq, -, ha, hh, hn⟩ | ⟨hq, -, ha, hh, hn, ht⟩
    | ⟨hq, ha, -, hh, hn⟩ | ⟨hq, ha, -, hh, hn, ht⟩
  · rw [waiting, waiting, hn, hq, ha, hh]
    rfl
  · rw [waiting, waiting, hn, hq, ha, hh]
    rfl
  · rw [waiting, waiting, hn, hq, ha, hh, ht]
    rfl
  · rw [waiting, waiting, hn, hq, ha, hh]
    rfl
  · rw [waiting, waiting, hn, hq, ha, hh, ht]
    rfl

/-- A feedback that is passed on finds its counter above zero. -/
theorem occup_pos (h : Inv s) {k : ℕ} (hk : k < NUM_CLUSTERS) (hp : passing s.hw i k = true) :
    0 < s.hw.cluster_occup_q k := by
  rw [passing, Bool.and_eq_true] at hp
  have hne := List.length_pos_iff.mpr (SpillRegister.valid_o_iff.mp hp.1)
  have hoccup := h.occup k hk
  have hentered := h.entered k
  have hanswers := h.answers k hk
  omega

/-- **The counters.** Up for a task handed out, down for a feedback passed on, and no
change for both. -/
theorem occup_step (h : Inv s) {k : ℕ} (hk : k < NUM_CLUSTERS) :
    cluster_occup_d s.hw i k + (passing s.hw i k).toNat = s.hw.cluster_occup_q k
      + (cluster_task_valid_od s.hw i k && cluster_task_ready_id s.hw k).toNat := by
  have hwidth : MAX_OCC + 1 < 2 ^ OCC_W := by decide
  have hbound := h.bound k hk
  have hpassing : (cluster_feedback_valid_iq s.hw k && cluster_feedback_ready_oq s.hw i k)
      = passing s.hw i k := rfl
  rw [cluster_occup_d, hpassing]
  -- a task in and a feedback out in one cycle leave the count as it is
  cases hhand : cluster_task_valid_od s.hw i k && cluster_task_ready_id s.hw k with
  | true =>
    cases hpass : passing s.hw i k with
    | true => rfl
    | false =>
      show Counter.inc OCC_W (s.hw.cluster_occup_q k) + 0 = s.hw.cluster_occup_q k + 1
      rw [Counter.inc_eq (by omega)]
  | false =>
    cases hpass : passing s.hw i k with
    | true =>
      have hpos := h.occup_pos hk hpass
      show Counter.dec OCC_W (s.hw.cluster_occup_q k) + 1 = s.hw.cluster_occup_q k + 0
      rw [Counter.dec_eq hpos (by omega)]
      omega
    | false => rfl

/-- A counter does not grow unless a task is handed out. -/
theorem bound_step (h : Inv s) {k : ℕ} (hk : k < NUM_CLUSTERS) :
    cluster_occup_d s.hw i k ≤ MAX_OCC := by
  have hoccup := h.occup_step (i := i) hk
  have hbound := h.bound k hk
  by_cases hv : cluster_task_valid_od s.hw i k = true
  · have hlt := not_full_of_handed h.target hv
    have hone := Bool.toNat_le (cluster_task_valid_od s.hw i k && cluster_task_ready_id s.hw k)
    omega
  · rw [Bool.eq_false_of_not_eq_true hv, Bool.false_and, Bool.toNat_false] at hoccup
    omega

/-- A task that starts to wait, or goes on waiting, is not counted yet. -/
theorem target_step (h : Inv s) (hn : (s.step i).hw.state_q = .WaitTransfer) :
    (s.step i).hw.cluster_occup_q (s.step i).hw.cluster_id_q < MAX_OCC := by
  have hocc : (s.step i).hw.cluster_occup_q = cluster_occup_d s.hw i := rfl
  have hdest : (s.step i).hw.cluster_id_q = cluster_id_d s.hw i := rfl
  have hlt := cluster_id_d_lt (i := i) h.id_lt
  have hstate : (s.step i).hw.state_q = (Scheduler.step s.hw i).state_q := rfl
  rw [hocc, hdest]
  -- the task is offered in this cycle, and the register of its cluster does not take it
  have hoff : cluster_task_valid_od s.hw i (cluster_id_d s.hw i) = true
      ∧ handing s.hw i = [] := by
    rcases move s.hw i h.id_lt with ⟨-, -, -, hc⟩ | ⟨-, -, -, -, hc⟩ | ⟨hq, hav, ha, hh, -, -⟩
      | ⟨-, -, -, -, hc⟩ | ⟨hq, -, -, hh, -, -⟩
    · exact absurd (hn.symm.trans (hstate.trans hc)) (by decide)
    · exact absurd (hn.symm.trans (hstate.trans hc)) (by decide)
    · refine ⟨?_, hh⟩
      have hv : i.task_valid_i = true := by
        by_contra hno
        rw [accepting, Bool.eq_false_of_not_eq_true hno, Bool.false_and] at ha
        exact absurd ha (by simp)
      rw [cluster_task_valid_od, BEq.rfl, serving_cluster, hq, hv, hav]
      rfl
    · exact absurd (hn.symm.trans (hstate.trans hc)) (by decide)
    · refine ⟨?_, hh⟩
      rw [cluster_task_valid_od, BEq.rfl, serving_cluster, hq]
      rfl
  have hready : cluster_task_ready_id s.hw (cluster_id_d s.hw i) = false := by
    by_contra hno
    have hserve := (Bool.and_eq_true_iff.mp hoff.1).2
    rw [handing_eq h.id_lt, hserve, Bool.eq_true_of_not_eq_false hno] at hoff
    exact absurd hoff.2 (by simp)
  have hoccup := h.occup_step (i := i) hlt
  rw [hready, Bool.and_false, Bool.toNat_false] at hoccup
  have hbefore := not_full_of_handed h.target hoff.1
  omega

/-- **A cycle of the scheduler.** -/
theorem step (h : Inv s) (he : env s i) : Inv (s.step i) where
  id_lt := cluster_id_d_lt h.id_lt
  once := h.once_step
  cluster := by
    intro p hp
    have hhanded : (s.step i).handed = s.handed ++ handing s.hw i := rfl
    rw [hhanded, List.mem_append] at hp
    rcases hp with hp | hp
    · exact h.cluster p hp
    · -- the task handed over now goes to the cluster just chosen
      rw [handing_eq h.id_lt] at hp
      obtain ⟨-, hp⟩ := List.mem_ite_nil_right.mp hp
      rw [List.mem_singleton.mp hp]
      exact cluster_id_d_lt h.id_lt
  arrive := by
    intro k
    have hspill := SpillRegister.elems_step (s.hw.i_cluster_task_spill k)
      (task_spill_input s.hw i k)
    rw [h.step_to_cluster, ← h.arrive k, List.append_assoc, ← hspill, ← List.append_assoc]
    rfl
  target := h.target_step
  occup := by
    intro k hk
    have hoccup := h.occup_step (i := i) hk
    have hbefore := h.occup k hk
    have hfed : (s.step i).fed_back k = s.fed_back k + (passing s.hw i k).toNat := rfl
    have hq : (s.step i).hw.cluster_occup_q k = cluster_occup_d s.hw i k := rfl
    rw [h.length_step_to_cluster, hfed, hq]
    omega
  bound := fun k hk => h.bound_step hk
  entered := by
    intro k
    have hcount := feedback_count (s := s.hw) (i := i) k
    have hbefore := h.entered k
    have hfed : (s.step i).fed_back k = s.fed_back k + (passing s.hw i k).toNat := rfl
    have hent : (s.step i).entered k = s.entered k + (entering s.hw i k).toNat := rfl
    have hhw : (s.step i).hw = Scheduler.step s.hw i := rfl
    rw [hfed, hent, hhw]
    omega
  answers := by
    intro k hk
    have hent : (s.step i).entered k = s.entered k + (entering s.hw i k).toNat := rfl
    have hbefore := h.answers k hk
    have hans := he k hk
    rw [h.length_step_to_cluster, hent]
    -- a feedback enters only where the cluster still owes one
    cases hc : entering s.hw i k with
    | true =>
      have hlt := hans hc
      have hone : true.toNat = 1 := rfl
      omega
    | false =>
      have hzero : false.toNat = 0 := rfl
      omega

theorem delivered (h : Inv s) : Delivered s where
  once := h.once
  cluster := h.cluster
  order := by
    intro k
    rw [← h.once]
    exact (List.filter_sublist.map Prod.snd).trans (List.sublist_append_left _ _)
  arrive := h.arrive
  occup := h.occup
  bound := h.bound

theorem handover (h : Inv s) : Handover s.hw i where
  accept := by
    intro hne
    have hid : (Scheduler.step s.hw i).cluster_id_q = cluster_id_d s.hw i := rfl
    -- an accepted task goes straight through or stops in the register
    rcases move s.hw i h.id_lt with ⟨-, ha, -, -⟩ | ⟨-, -, -, hh, -⟩ | ⟨-, -, -, hh, hn, ht⟩
      | ⟨-, ha, -, -, -⟩ | ⟨-, ha, -, -, -, -⟩
    · exact absurd ha hne
    · exact Or.inl hh
    · refine Or.inr ⟨hh, ?_, hid⟩
      rw [waiting, hn, ht]
      rfl
    · exact absurd ha hne
    · exact absurd ha hne
  wait := by
    intro hw
    rcases move s.hw i h.id_lt with ⟨hq, -, -, -⟩ | ⟨hq, -, -, -, -⟩ | ⟨hq, -, -, -, -, -⟩
      | ⟨-, ha, hr, hh, -⟩ | ⟨-, ha, hr, hh, hn, ht⟩
    · exact absurd (hw.symm.trans hq) (by decide)
    · exact absurd (hw.symm.trans hq) (by decide)
    · exact absurd (hw.symm.trans hq) (by decide)
    · exact ⟨ha, fun _ => hh, fun hc => absurd (hr.symm.trans hc) (by decide)⟩
    · refine ⟨ha, fun hc => absurd (hc.symm.trans hr) (by decide), fun _ => ⟨hh, ?_, ?_⟩⟩
      · rw [waiting, hn, ht]
        rfl
      · show cluster_id_d s.hw i = s.hw.cluster_id_q
        rw [cluster_id_d, hw]
        rfl

end Inv

theorem inv_init : Inv init where
  id_lt := by decide
  once := rfl
  cluster := fun p hp => absurd hp List.not_mem_nil
  arrive := fun _ => rfl
  target := fun hc => absurd hc (by decide)
  occup := fun _ _ => rfl
  bound := fun _ _ => Nat.zero_le _
  entered := fun _ => rfl
  answers := fun _ _ => le_refl _

/-! ## Whole runs -/

/-- **Exactly-once delivery and the occupation bound.** In every reachable state the tasks
handed out, and the one that waits, are the accepted ones in order, each of them handed to
one cluster; and the counter of a cluster is the number of tasks handed to it less the
feedbacks passed on, at most `NUM_HERS_PER_CLUSTER`. In every cycle an accepted task is
handed over or waits, and one that waits goes as soon as its cluster is ready. -/
theorem delivered_once {s : Sys} (h : Reach s) : Delivered s ∧ ∀ i, Handover s.hw i := by
  have hinv : Inv s := by
    refine Sync.Reach.inv (P := Inv) ?_ (fun _ _ hi he => hi.step he) h
    rintro _ rfl
    exact inv_init
  exact ⟨hinv.delivered, fun i => hinv.handover⟩

/-! Five tasks of cluster 1, with no cluster ready: two for each output register, the fifth
waits. A feedback comes in for a task handed over before. -/

def demo_cycle (task_valid_i ready feedback : Bool) (handler_fun : mem_addr_t) : Input where
  task_valid_i := task_valid_i
  task_descr_i := { zero_task with msgid := 1, handler_fun := handler_fun }
  cluster_task_ready_i := fun _ => ready
  cluster_feedback_valid_i := fun k => feedback && k == 1
  cluster_feedback_i := fun _ => ⟨0, 0, 1, false⟩
  pktgen_feedback_ready_i := true

def demo_cycles : List Input :=
  [demo_cycle true false false 1, demo_cycle true false false 2, demo_cycle true false false 3,
    demo_cycle true false false 4, demo_cycle true false true 5, demo_cycle false false false 0,
    demo_cycle false true false 0]

theorem delivered_once_demo :
    Delivered (Sync.run step init demo_cycles)
      ∧ (Sync.run step init demo_cycles).handed.map (fun p => (p.1, p.2.handler_fun))
        = [(1, 1), (1, 2), (0, 3), (0, 4)]
      ∧ (waiting (Sync.run step init demo_cycles).hw).map (·.handler_fun) = [5]
      ∧ (Sync.run step init demo_cycles).hw.cluster_occup_q 1 = 1 := by
  have hstart : Reach init := .reset rfl
  have hreach : Reach (Sync.run step init demo_cycles) := hstart.run (by decide +kernel)
  exact ⟨(delivered_once hreach).1, by decide +kernel, by decide +kernel, by decide +kernel⟩

end Sys

end Pspin.Scheduler
