/-
The HER handshake between `NICInbound` and `mpq_engine`.

The engine's ready depends on the msgid on the lines. The model samples it after an
edge, for the HER it drove before, and then drives the next one, which the engine
takes at the following edge if the queue of *that* msgid has room. Fullness only changes
at edges, so both look at the same fullness, of two different queues.

`Sys` runs the model against any sequence of fullness vectors. The lists record the
HERs that became ready, those the model removed, and those the engine accepted.
`handshake_iff` says in which runs the last two agree; `her_dropped` is a cycle in which
they do not.
-/
import Pspin.MpqEngine
import Pspin.NicInbound
import Pspin.Sync

set_option autoImplicit false

namespace Pspin.NicInbound

open MpqEngine (mpq_idx mpq_idx_t)

/-- A cycle: what the application adds, the AXI answer, the feedback lines and, after the
edge, the queues that are full. -/
structure CycleInput where
  packets : List incoming_her_t
  eos : Bool
  pspin_active_i : Bool
  mpq_full_o : mpq_idx_t → Bool
  feedback_her_addr_i : mem_addr_t
  feedback_her_size_i : mem_size_t
  write_completed : Bool
  sim_time : ℕ

/-- The engine's ready, as it answers the msgid on the lines. -/
def her_ready (full : mpq_idx_t → Bool) (her : her_descr_t) : Bool := !full (mpq_idx her.msgid)

/-- The ports after the edge. -/
def ports (s : State) (i : CycleInput) : Input where
  pspin_active_i := i.pspin_active_i
  her_ready_i := her_ready i.mpq_full_o s.her_o
  feedback_her_addr_i := i.feedback_her_addr_i
  feedback_her_size_i := i.feedback_her_size_i
  write_completed := i.write_completed
  sim_time := i.sim_time

structure Sys where
  nic : State
  arrived : List her_descr_t
  removed : List her_descr_t
  accepted : List her_descr_t

namespace Sys

/-- The ready HERs when `her_progress_posedge` looks at them. -/
def ready_hers (p : Params) (s : Sys) (i : CycleInput) : List her_descr_t :=
  match progress_packets p (app_calls s.nic i.packets i.eos) (ports s.nic i) with
  | some s' => s'.ready_hers.map (·.toher_descr_t)
  | none => []

/-- The HER removed in this cycle. -/
def sent (p : Params) (s : Sys) (i : CycleInput) : List her_descr_t :=
  if i.pspin_active_i && her_ready i.mpq_full_o s.nic.her_o then (ready_hers p s i).take 1 else []

/-- The HER that became ready in this cycle. -/
def completed (s : Sys) (i : CycleInput) : List her_descr_t :=
  if i.pspin_active_i && i.write_completed then
    (s.nic.queued_hers.take 1).map (·.toher_descr_t) else []

/-- A cycle. At the next edge the engine takes the HER on the lines, if it is valid and
its queue has room. -/
def step (p : Params) (s : Sys) (i : CycleInput) : Sys :=
  let nic := (posedge p (app_calls s.nic i.packets i.eos) (ports s.nic i)).getD s.nic
  { nic := nic
    arrived := s.arrived ++ completed s i
    removed := s.removed ++ sent p s i
    accepted := s.accepted ++
      if nic.her_valid_o && her_ready i.mpq_full_o nic.her_o then [nic.her_o] else [] }

def init (s : Sys) : Prop := ∃ her_o, s = ⟨reset her_o, [], [], []⟩

/-- No assertion fails, and PsPIN stays active once a HER has been driven. -/
def env (p : Params) (s : Sys) (i : CycleInput) : Prop :=
  (posedge p (app_calls s.nic i.packets i.eos) (ports s.nic i)).isSome = true
    ∧ (s.nic.her_valid_o = true → i.pspin_active_i = true)

/-- The cycle does not remove a HER whose queue is full: when the queue on the lines has
room, so has the queue of the first ready HER. -/
def Good (p : Params) (s : Sys) (i : CycleInput) : Prop :=
  i.pspin_active_i = true → her_ready i.mpq_full_o s.nic.her_o = true →
    ∀ her ∈ (ready_hers p s i).head?, her_ready i.mpq_full_o her = true

instance (p : Params) (s : Sys) (i : CycleInput) : Decidable (env p s i) :=
  inferInstanceAs (Decidable (_ ∧ _))

instance (p : Params) (s : Sys) (i : CycleInput) : Decidable (Good p s i) :=
  inferInstanceAs (Decidable (_ → _ → _))

/-- Every HER removed so far was accepted once, in order. -/
def Delivered (s : Sys) : Prop := s.accepted = s.removed

/-! ## One cycle -/

variable {p : Params} {s : Sys} {i : CycleInput} {is : List CycleInput}

/-- **A cycle at the port.** Either no HER is removed and the lines are not valid, or the
first ready HER is removed and driven. -/
theorem step_port (he : env p s i) :
    (sent p s i = [] ∧ (step p s i).nic.her_valid_o = false
        ∧ (step p s i).nic.ready_hers.map (·.toher_descr_t)
          = s.nic.ready_hers.map (·.toher_descr_t) ++ completed s i)
      ∨ ∃ her, sent p s i = [her] ∧ (ready_hers p s i).head? = some her
        ∧ i.pspin_active_i = true ∧ her_ready i.mpq_full_o s.nic.her_o = true
        ∧ (step p s i).nic.her_valid_o = true ∧ (step p s i).nic.her_o = her
        ∧ her :: (step p s i).nic.ready_hers.map (·.toher_descr_t)
          = s.nic.ready_hers.map (·.toher_descr_t) ++ completed s i := by
  obtain ⟨hsome, hvalid⟩ := he
  obtain ⟨happ, hqueued⟩ := app_calls_port s.nic i.packets i.eos
  obtain ⟨nic', hnic⟩ := Option.isSome_iff_exists.mp hsome
  have hstep : (step p s i).nic = nic' := by
    unfold step
    rw [hnic]
    rfl
  rw [hstep]
  by_cases hact : i.pspin_active_i = true
  · -- the three parts of the edge, one after the other
    unfold posedge ports at hnic
    rw [if_pos hact] at hnic
    obtain ⟨nic₂, hbefore, hfeedback⟩ := Option.bind_eq_some_iff.mp hnic
    obtain ⟨nic₁, hpackets, hher⟩ := Option.bind_eq_some_iff.mp hbefore
    obtain ⟨-, -, -, hready₁⟩ := progress_packets_port hpackets
    obtain ⟨hvalid₃, hher₃, hready₃, -⟩ := feedback_progress_port hfeedback
    rw [hqueued, happ.ready_hers] at hready₁
    have hrh : ready_hers p s i = nic₁.ready_hers.map (·.toher_descr_t) := by
      unfold ready_hers ports
      rw [hpackets]
    have harrived : ready_hers p s i = s.nic.ready_hers.map (·.toher_descr_t) ++ completed s i := by
      rw [hrh, hready₁, List.map_append, completed, hact, Bool.true_and, apply_ite (List.map _)]
      rfl
    rw [hvalid₃, hher₃, hready₃, ← harrived, sent, hact, Bool.true_and]
    rcases her_progress_cases hher with ⟨hno, rfl⟩ | ⟨her, rest, hr, hq, -, hv, ho, hrest, -⟩
    · refine Or.inl ⟨?_, rfl, hrh.symm⟩
      rcases hno with hno | hno
      · rw [if_neg (Bool.not_eq_true _ ▸ hno)]
      · rw [hrh, hno]
        exact ite_self _
    · refine Or.inr ⟨her.toher_descr_t, ?_, ?_, rfl, hr, hv, ho, ?_⟩
      · rw [if_pos hr, hrh, hq]
        rfl
      · rw [hrh, hq]
        rfl
      · rw [hrh, hq, hrest]
        rfl
  · -- PsPIN is not active: the edge does nothing
    have hoff : i.pspin_active_i = false := Bool.not_eq_true _ ▸ hact
    unfold posedge ports at hnic
    rw [if_neg hact] at hnic
    obtain rfl := Option.some.inj hnic
    refine Or.inl ⟨?_, ?_, ?_⟩
    · rw [sent, hoff, Bool.false_and, if_neg Bool.false_ne_true]
    · rw [happ.her_valid_o]
      by_contra hv
      exact hact (hvalid (Bool.eq_true_of_not_eq_false hv))
    · rw [happ.ready_hers, completed, hoff, Bool.false_and, if_neg Bool.false_ne_true,
        List.append_nil]

/-- The HERs that became ready are those removed and those still waiting, in order. -/
def Queued (s : Sys) : Prop :=
  s.arrived = s.removed ++ s.nic.ready_hers.map (·.toher_descr_t)

theorem Queued.step (hq : Queued s) (he : env p s i) : Queued (step p s i) := by
  unfold Queued at hq ⊢
  have harr : (Sys.step p s i).arrived = s.arrived ++ completed s i := rfl
  have hrem : (Sys.step p s i).removed = s.removed ++ sent p s i := rfl
  rw [harr, hrem, hq, List.append_assoc]
  rcases step_port he with ⟨hsent, -, hready⟩ | ⟨her, hsent, -, -, -, -, -, hready⟩
  · rw [hsent, hready, List.append_nil]
  · rw [hsent, ← hready, List.append_assoc, List.singleton_append]

/-- What is removed is accepted in a good cycle, and only then. -/
theorem Delivered.step_iff (he : env p s i) (hd : Delivered s) :
    Delivered (step p s i) ↔ Good p s i := by
  unfold Delivered at hd ⊢
  have hrem : (step p s i).removed = s.removed ++ sent p s i := rfl
  have hacc : (step p s i).accepted = s.accepted
      ++ if (step p s i).nic.her_valid_o && her_ready i.mpq_full_o (step p s i).nic.her_o
          then [(step p s i).nic.her_o] else [] := rfl
  rw [hrem, hacc, hd]
  rcases step_port he with ⟨hsent, hvalid, -⟩ | ⟨her, hsent, hhead, hact, hr, hvalid, hher, -⟩
  · rw [hsent, hvalid, Bool.false_and, if_neg Bool.false_ne_true]
    refine ⟨fun _ hact hr her hhead => ?_, fun _ => rfl⟩
    -- a ready HER would have been removed
    unfold sent at hsent
    rw [hact, hr, Bool.and_self, if_pos rfl] at hsent
    cases hq : ready_hers p s i with
    | nil => exact absurd (hq ▸ hhead) (by simp)
    | cons her' rest => exact absurd (hq ▸ hsent) (by simp)
  · rw [hsent, hvalid, hher, Bool.true_and, List.append_cancel_left_eq]
    constructor
    · intro heq _ _ her' hhead'
      obtain rfl := Option.some.inj (hhead.symm.trans hhead')
      by_contra hfull
      rw [if_neg hfull] at heq
      exact absurd heq (by simp)
    · intro hgood
      rw [if_pos (hgood hact hr her hhead)]

/-- Even where a HER is lost, none is accepted twice or out of turn. -/
theorem accepted_sublist_step (he : env p s i) (hl : s.accepted.Sublist s.removed) :
    (step p s i).accepted.Sublist (step p s i).removed := by
  have hrem : (step p s i).removed = s.removed ++ sent p s i := rfl
  have hacc : (step p s i).accepted = s.accepted
      ++ if (step p s i).nic.her_valid_o && her_ready i.mpq_full_o (step p s i).nic.her_o
          then [(step p s i).nic.her_o] else [] := rfl
  rw [hrem, hacc]
  apply hl.append
  rcases step_port he with ⟨hsent, hvalid, -⟩ | ⟨her, hsent, -, -, -, -, hher, -⟩
  · rw [hsent, hvalid, Bool.false_and, if_neg Bool.false_ne_true]
  · rw [hsent, hher]
    split_ifs
    · exact List.Sublist.refl _
    · exact List.nil_sublist _

/-! ## Whole runs -/

/-- **The handshake.** In every run, all HERs removed are accepted, once and in the order
in which they became ready, if and only if in no cycle a HER is removed while its own
queue is full. In no run is a HER accepted twice or out of order. -/
theorem handshake_iff (h : init s) (ha : Sync.Allowed (step p) (env p) s is) :
    (Sync.Always (step p) (fun s => Delivered s ∧ Queued s) s is
        ↔ Sync.Allowed (step p) (Good p) s is)
      ∧ Sync.Always (step p) (fun s => s.accepted.Sublist s.removed) s is := by
  obtain ⟨her_o, rfl⟩ := h
  constructor
  · refine Sync.always_iff (I := Queued) (fun s i hq he _ => hq.step he) ?_ rfl ⟨rfl, rfl⟩ ha
    intro s i hq he hd
    rw [← hd.1.step_iff he]
    exact ⟨fun h' => h'.1, fun h' => ⟨h', hq.step he⟩⟩
  · exact Sync.Always.of_inv (P := fun s : Sys => s.accepted.Sublist s.removed)
      (fun s i hl he => accepted_sublist_step he hl) (List.Sublist.refl _) ha

/-! A packet for queue 1 becomes ready while that queue is full and the lines still show
a HER of queue 0. -/

def demo_params : Params := ⟨0x1c000000, 0x100000⟩

def demo_meta : mpq_meta_t where
  handler_mem_addr := 0
  handler_mem_size := 0
  host_mem_addr := 0
  host_mem_size := 0
  hh_addr := 0
  hh_size := 0
  ph_addr := 0x20
  ph_size := 4
  th_addr := 0
  th_size := 0
  scratchpad_addr := fun _ => 0
  scratchpad_size := fun _ => 0

def demo_start : Sys := ⟨reset ⟨0, true, 0, 64, 64, demo_meta⟩, [], [], []⟩

def demo_packet : incoming_her_t where
  her := { (⟨1, true, 0, 64, 64, demo_meta⟩ : her_descr_t) with user_ptr := 0, nic_arrival_time := 0 }
  pkt_len := 64
  wait_cycles := 0

/-- The packet arrives, its write completes, and one more cycle; `full` in the middle one. -/
def demo_cycles (full : mpq_idx_t → Bool) : List CycleInput :=
  [⟨[demo_packet], false, true, fun _ => false, 0, 0, false, 0⟩,
    ⟨[], false, true, full, 0, 0, true, 1⟩,
    ⟨[], false, true, fun _ => false, 0, 0, false, 2⟩]

theorem handshake_iff_demo :
    Sync.Always (step demo_params) (fun s => Delivered s ∧ Queued s) demo_start
      (demo_cycles fun k => k == 0) :=
  (handshake_iff ⟨_, rfl⟩ (by decide +kernel)).1.mpr (by decide +kernel)

/-- The HER of queue 1 is removed and never accepted. -/
theorem her_dropped :
    ¬ ∀ p s is, init s → Sync.Allowed (step p) (env p) s is →
      Sync.Always (step p) (fun s => Delivered s ∧ Queued s) s is := by
  intro hall
  have hrun := hall demo_params demo_start (demo_cycles fun k => k == 1) ⟨_, rfl⟩
    (by decide +kernel)
  have hlost := hrun.2.2.2.1
  revert hlost
  unfold Delivered
  decide +kernel

end Sys

end Pspin.NicInbound
