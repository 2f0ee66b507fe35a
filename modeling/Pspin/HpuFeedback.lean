/-
The feedback of a task waits for the commands of the task.

`can_send_feedback` looks at all ids of the core, not at those of one task. It works
because no command of a later task gets an id while a feedback is held: the load of the
next handler is stopped in `Disabled`, and goes on in the first cycle in which the
feedback is gone.
-/
import Pspin.HpuRuns

set_option autoImplicit false

namespace Pspin.HpuDriver.Sys

variable (cluster_id_i : BitVec 6) (C_CORE_ID : ℕ)

def Reach : Sys → Prop :=
  Sync.Reach (· = init) (step cluster_id_i C_CORE_ID) (Env cluster_id_i C_CORE_ID)

/-- An id is given to a command: assigned, or handed over by a response. -/
def allots (s : Sys) (i : Input) : Bool :=
  CmdFrontend.assign_id s.hw.i_cmd_frontend (s.cmd_in cluster_id_i C_CORE_ID i)
    || (s.hw.i_cmd_frontend.state_q == .WaitingID && cmd_resp_valid cluster_id_i C_CORE_ID i)

/-- What a cycle does for the task whose feedback is held, and for the load that waits. -/
structure Ordered (s : Sys) (i : Input) : Prop where
  /-- What is offered is the feedback of a task that has no command left. -/
  offered : hpu_feedback_valid_o s.hw i = true → ∃ n t, s.held = [n] ∧ s.tasks[n]? = some t
    ∧ hpu_feedback_o s.hw = TaskFrontend.feedback_of t
    ∧ (∀ c ∈ s.book.unanswered, c.tag.issuer ≠ some n) ∧ s.issuer ≠ some n
  /-- While a feedback is held no command of a task gets an id or is pushed. -/
  blocked : s.held ≠ [] → s.issuer ≠ none →
    s.allots cluster_id_i C_CORE_ID i = false ∧ s.pushes cluster_id_i C_CORE_ID i = false
  /-- The commands a held feedback waits for are not of a later task. -/
  earlier : ∀ n ∈ s.held, ∀ c ∈ s.book.unanswered, ∀ m, c.tag.issuer = some m → m ≤ n
  /-- A blocked load waits while the feedback is there. -/
  waits : s.hw.i_cmd_frontend.state_q = .Disabled → s.held ≠ [] →
    s.pushes cluster_id_i C_CORE_ID i = false ∧ gnt cluster_id_i C_CORE_ID s.hw i = false
      ∧ (step cluster_id_i C_CORE_ID s i).hw.i_cmd_frontend.state_q = .Disabled
  /-- It is pushed and granted in the first cycle without. -/
  resumes : s.hw.i_cmd_frontend.state_q = .Disabled → s.held = [] →
    s.pushes cluster_id_i C_CORE_ID i = true ∧ gnt cluster_id_i C_CORE_ID s.hw i = true
      ∧ (step cluster_id_i C_CORE_ID s i).hw.i_cmd_frontend.state_q = .Ready
  /-- A command is pushed when its load is granted, and only then. -/
  once : s.pushes cluster_id_i C_CORE_ID i = true
    ↔ s.issues cluster_id_i C_CORE_ID i = true ∧ gnt cluster_id_i C_CORE_ID s.hw i = true

variable {cluster_id_i} {C_CORE_ID} {s : Sys} {i : Input}

/-! ## One cycle -/

namespace Inv

/-- An id is given exactly when a command is pushed. -/
theorem allots_eq (h : Inv s) (he : Env cluster_id_i C_CORE_ID s i) :
    s.allots cluster_id_i C_CORE_ID i = s.pushes cluster_id_i C_CORE_ID i := by
  unfold allots pushes
  rcases h.ids.issue (h.blocked.held he) he.answers with
    ⟨hpush, hassign, hhand, -⟩ | ⟨hpush, hassign, -, -, -, -, -⟩ | ⟨hpush, hassign, hq, hr, -, -⟩
  · rw [hpush, hassign, Bool.false_or, Bool.eq_false_iff, Ne, Bool.and_eq_true, beq_iff_eq]
    exact hhand
  · rw [hpush, hassign, Bool.true_or]
  · have hresp : cmd_resp_valid cluster_id_i C_CORE_ID i = true := hr
    rw [hpush, hassign, hq, hresp]
    rfl

/-- A task whose feedback is held has no command left when the feedback is offered. -/
theorem offered (h : Inv s) (hv : hpu_feedback_valid_o s.hw i = true) :
    ∃ n t, s.held = [n] ∧ s.tasks[n]? = some t
      ∧ hpu_feedback_o s.hw = TaskFrontend.feedback_of t
      ∧ (∀ c ∈ s.book.unanswered, c.tag.issuer ≠ some n) ∧ s.issuer ≠ some n := by
  have hne : s.held ≠ [] := by
    have hvalid : (_ && !TaskFrontend.feedback_buff_empty s.hw.i_task_frontend) = true := hv
    rw [Bool.and_eq_true, Bool.not_eq_true', Bool.eq_false_iff, Ne, h.feedbacks.empty_iff] at hvalid
    exact hvalid.2
  have hlen := h.feedbacks.length_le
  have hpos := List.length_pos_iff.mpr hne
  obtain ⟨n, hn⟩ := List.length_eq_one_iff.mp (show s.held.length = 1 by omega)
  obtain ⟨hlt, hbusy⟩ := h.feedbacks.held_lt n (by rw [hn]; exact List.mem_singleton_self n)
  have hget : s.tasks[n]? = some s.tasks[n] := List.getElem?_eq_getElem hlt
  refine ⟨n, s.tasks[n], hn, hget, ?_, ?_, ?_⟩
  · have helems := h.feedbacks.elems
    rw [hn, List.map_singleton, hget, Option.map_some] at helems
    obtain ⟨fb, hfb, hsome⟩ := List.map_eq_singleton_iff.mp helems
    apply h.feedbacks.fifo.data_o_eq
    rw [hfb, Option.some.inj hsome, List.head?_cons]
  · rw [h.answered_of_valid hv]
    exact fun c hc => absurd hc List.not_mem_nil
  · -- a task that has a load up is still running
    intro hissuer
    obtain ⟨hrun, hlast⟩ := h.blocked.issuer_runs h.feedbacks hissuer
    have hcur := hbusy (Or.inl hrun)
    unfold current at hcur
    omega

theorem waits (h : Inv s) (he : Env cluster_id_i C_CORE_ID s i)
    (hq : s.hw.i_cmd_frontend.state_q = .Disabled) (hheld : s.held ≠ []) :
    s.pushes cluster_id_i C_CORE_ID i = false ∧ gnt cluster_id_i C_CORE_ID s.hw i = false
      ∧ (Sys.step cluster_id_i C_CORE_ID s i).hw.i_cmd_frontend.state_q = .Disabled := by
  have hdis : (s.cmd_in cluster_id_i C_CORE_ID i).disabled_i = true :=
    h.feedbacks.disabled_iff.mpr hheld
  have hd : CmdFrontend.state_d s.hw.i_cmd_frontend (s.cmd_in cluster_id_i C_CORE_ID i)
      = .Disabled := by
    rw [CmdFrontend.state_d, CmdFrontend.transition, hq, hdis]
    rfl
  have hissue : s.issues cluster_id_i C_CORE_ID i = true :=
    (h.blocked.held he).issue (Or.inl hq)
  obtain ⟨hpush, hgnt⟩ := CmdFrontend.not_push_of (hd.trans_ne (by decide))
  exact ⟨hpush, (gnt_cmd (type_of_issue hissue)).trans hgnt, hd⟩

theorem ordered (h : Inv s) (he : Env cluster_id_i C_CORE_ID s i) :
    Ordered cluster_id_i C_CORE_ID s i where
  offered := h.offered
  blocked := by
    intro hheld hissuer
    have hpush : s.pushes cluster_id_i C_CORE_ID i = false := by
      by_contra hp
      exact hheld (h.held_of_push he (Bool.eq_true_of_not_eq_false hp) hissuer)
    exact ⟨(h.allots_eq he).trans hpush, hpush⟩
  earlier := fun n hn c hc m hm => (h.apart.issuers c hc m hm).2 n hn
  waits := h.waits he
  resumes := by
    intro hq hheld
    obtain ⟨hpush, hd⟩ := h.resumes he hq hheld
    exact ⟨hpush, ((h.push_iff he).mp hpush).2, hd⟩
  once := h.push_iff he

end Inv

/-! ## Whole runs -/

/-- **A task's feedback waits for the task's commands.** In every run, in every cycle:
what is offered is the feedback of a task whose commands are all answered; while it is
held no command of the next handler gets an id or is pushed, so it waits for no command of
a later task; and the load that was stopped is pushed, once, in the first cycle after. -/
theorem feedback_waits (h : Reach cluster_id_i C_CORE_ID s)
    (he : Env cluster_id_i C_CORE_ID s i) : Ordered cluster_id_i C_CORE_ID s i := by
  have hinv : Inv s := by
    refine Sync.Reach.inv (P := Inv) ?_ (fun _ _ hi he => hi.step he) h
    rintro _ rfl
    exact inv_init
  exact hinv.ordered he

/-! A task issues a command and ends. The next one issues too, and is stopped until the
command of the first is answered and the feedback has left. -/

def demo_cycles : List Input :=
  demo_boot ++ [demo_cycle issue_load false none, demo_cycle doorbell false none,
    demo_cycle handler_load true none, demo_cycle handler_load false none,
    demo_cycle issue_load false none, demo_cycle issue_load false (some 0)]

/-- The cycle in which the feedback leaves, and the next one. -/
def demo_state : Sys := Sync.run (step 0 0) init demo_cycles

theorem feedback_waits_demo :
    (∃ n t, demo_state.held = [n] ∧ demo_state.tasks[n]? = some t
        ∧ hpu_feedback_o demo_state.hw = TaskFrontend.feedback_of t
        ∧ (∀ c ∈ demo_state.book.unanswered, c.tag.issuer ≠ some n)
        ∧ demo_state.issuer ≠ some n)
      ∧ (step 0 0 demo_state (demo_cycle issue_load false none)).pushes 0 0
          (demo_cycle issue_load false none) = true := by
  have hstart : Reach 0 0 init := .reset rfl
  have hreach : Reach 0 0 demo_state := hstart.run (by decide +kernel)
  have henv : Env 0 0 demo_state (demo_cycle issue_load false none) := by decide +kernel
  have hnext := hreach.clock henv
  constructor
  · exact (feedback_waits hreach henv).offered (by decide +kernel)
  · exact ((feedback_waits hnext (i := demo_cycle issue_load false none)
      (by decide +kernel)).resumes (by decide +kernel) (by decide +kernel)).1

end Pspin.HpuDriver.Sys
