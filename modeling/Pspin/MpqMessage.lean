/-
What a message calls for.

A message is the list of its handler execution requests, the last one marked `eom`.
`plan` is the order in which its packets meet their handlers: the header handler on
the first packet, the payload handler on every packet, the completion handler on the
EOM packet, with the first and the last only where the message has them. The feedback
that returns a packet's memory is triggered by the last task that carries the packet.

This is the purpose of the message queues, not their code: nothing here knows about
states, counters or cells. `MpqQueue` shows that a queue works a plan off in order.
-/
import Mathlib.Data.List.Basic
import Mathlib.Data.List.GetD
import Mathlib.Data.List.Range
import Mathlib.Tactic.Common
import Pspin.Config

set_option autoImplicit false

namespace Pspin

/-- One task of a message: the handler, and the position of the packet it runs on. -/
structure plan_t where
  kind : mpq_state_t
  pkt : ℕ
deriving DecidableEq

/-- A task as the queue sends it: what selected it, and the descriptor. -/
structure sent_t where
  kind : mpq_state_t
  task : handler_task_t
deriving DecidableEq

namespace Message

/-- The EOM has arrived. -/
def closed (m : List her_descr_t) : Bool := m.getLast?.any (·.eom)

/-- The metadata in force for a message is that of its first HER. -/
def has_header (m : List her_descr_t) : Bool := m.head?.any (·.mpq_meta.hh_addr != 0)

def has_completion (m : List her_descr_t) : Bool := m.head?.any (·.mpq_meta.th_addr != 0)

def header_part (m : List her_descr_t) : List plan_t := if has_header m then [⟨.Header, 0⟩] else []

/-- The payload handlers of the first `n` packets. -/
def payload_part (n : ℕ) : List plan_t := (List.range n).map (⟨.Payload, ·⟩)

def completion_part (m : List her_descr_t) : List plan_t :=
  if closed m && has_completion m then [⟨.Completion, m.length - 1⟩] else []

/-- The tasks a message calls for, as far as its HERs are there. -/
def plan (m : List her_descr_t) : List plan_t :=
  header_part m ++ payload_part m.length ++ completion_part m

/-- The tasks that carry packet `k`. -/
def carriers (m : List her_descr_t) (k : ℕ) : List plan_t := (plan m).filter (·.pkt == k)

/-- The handler a task runs: address and size. -/
def handler_of : mpq_state_t → mpq_meta_t → mem_addr_t × mem_size_t
  | .Header, m => (m.hh_addr, m.hh_size)
  | .Payload, m => (m.ph_addr, m.ph_size)
  | .Completion, m => (m.th_addr, m.th_size)
  | _, _ => (0, 0)

/-- The descriptor of a task: handlers and memories from the first HER of the message,
the packet from its own HER. -/
def handler_task (i : Fin NUM_MPQ) (first : mpq_meta_t) (pkt_addr : mem_addr_t)
    (pkt_size : mem_size_t) (kind : mpq_state_t) (trigger : Bool) : handler_task_t where
  msgid := BitVec.ofNat C_MSGID_WIDTH i
  handler_fun := (handler_of kind first).1
  handler_fun_size := (handler_of kind first).2
  handler_mem_addr := first.handler_mem_addr
  handler_mem_size := first.handler_mem_size
  host_mem_addr := first.host_mem_addr
  host_mem_size := first.host_mem_size
  pkt_addr := pkt_addr
  pkt_size := pkt_size
  trigger_feedback := trigger
  scratchpad_addr := first.scratchpad_addr
  scratchpad_size := first.scratchpad_size

/-- The task that queue `i` owes for the entry `e` of a message that starts with `h0`. -/
def task_of (i : Fin NUM_MPQ) (h0 : her_descr_t) (m : List her_descr_t) (e : plan_t) : sent_t :=
  let h := m.getD e.pkt h0
  ⟨e.kind, handler_task i h0.mpq_meta h.her_addr h.xfer_size e.kind
    ((carriers m e.pkt).getLast? == some e)⟩

/-- The tasks for a part `l` of the plan of message `m` on queue `i`. -/
def tasks_for (i : Fin NUM_MPQ) (m : List her_descr_t) (l : List plan_t) : List sent_t :=
  match m with
  | [] => []
  | h0 :: _ => l.map (task_of i h0 m)

/-- The tasks of a message on queue `i`, in order. -/
def tasks (i : Fin NUM_MPQ) (m : List her_descr_t) : List sent_t := tasks_for i m (plan m)

/-! ## The parts of a plan -/

section Parts

variable {m : List her_descr_t}

theorem closed_concat (m : List her_descr_t) (h : her_descr_t) : closed (m ++ [h]) = h.eom := by
  simp [closed]

theorem has_header_append (hm : m ≠ []) (l : List her_descr_t) :
    has_header (m ++ l) = has_header m := by
  rw [has_header, List.head?_append_of_ne_nil _ hm, has_header]

theorem has_completion_append (hm : m ≠ []) (l : List her_descr_t) :
    has_completion (m ++ l) = has_completion m := by
  rw [has_completion, List.head?_append_of_ne_nil _ hm, has_completion]

theorem header_part_append (hm : m ≠ []) (l : List her_descr_t) :
    header_part (m ++ l) = header_part m := by
  rw [header_part, has_header_append hm, header_part]

theorem payload_part_succ (n : ℕ) : payload_part (n + 1) = payload_part n ++ [⟨.Payload, n⟩] := by
  rw [payload_part, List.range_succ, List.map_append, payload_part, List.map_singleton]

@[simp] theorem payload_part_zero : payload_part 0 = [] := rfl

@[simp] theorem length_payload_part (n : ℕ) : (payload_part n).length = n := by
  rw [payload_part, List.length_map, List.length_range]

theorem payload_part_mono {n k : ℕ} (h : n ≤ k) : payload_part n <+: payload_part k := by
  induction h with
  | refl => exact List.prefix_refl _
  | step _ ih =>
      rw [payload_part_succ]
      exact ih.trans (List.prefix_append _ _)

/-- An open message owes no completion yet. -/
theorem plan_open (hm : closed m = false) : plan m = header_part m ++ payload_part m.length := by
  rw [plan, completion_part, hm, Bool.false_and, if_neg Bool.false_ne_true, List.append_nil]

theorem plan_no_completion (hm : has_completion m = false) :
    plan m = header_part m ++ payload_part m.length := by
  rw [plan, completion_part, hm, Bool.and_false, if_neg Bool.false_ne_true, List.append_nil]

theorem plan_completion (hc : closed m = true) (hm : has_completion m = true) :
    plan m = header_part m ++ payload_part m.length ++ [⟨.Completion, m.length - 1⟩] := by
  rw [plan, completion_part, hc, hm, Bool.and_self, if_pos rfl]

/-! ## Carriers -/

theorem filter_payload_part {n k : ℕ} (hk : k < n) :
    (payload_part n).filter (·.pkt == k) = [⟨.Payload, k⟩] := by
  induction n with
  | zero => exact absurd hk (Nat.not_lt_zero k)
  | succ n ih =>
      rw [payload_part_succ, List.filter_append]
      rcases Nat.lt_succ_iff_lt_or_eq.mp hk with hlt | rfl
      · have hne : (n == k) = false := by simpa using Nat.ne_of_gt hlt
        rw [ih hlt, List.filter_singleton]
        simp [hne]
      · have hnil : (payload_part k).filter (·.pkt == k) = [] := by
          rw [List.filter_eq_nil_iff]
          intro e he
          obtain ⟨j, hj, rfl⟩ := List.mem_map.mp he
          simpa using (List.mem_range.mp hj).ne
        rw [hnil, List.nil_append, List.filter_singleton]
        simp

/-- The carriers of a packet: the header on the first one, the payload, and the
completion on the EOM packet. -/
theorem carriers_eq {k : ℕ} (hk : k < m.length) :
    carriers m k = (if k = 0 then header_part m else []) ++ [⟨.Payload, k⟩]
      ++ (if k + 1 = m.length then completion_part m else []) := by
  have hhead : (header_part m).filter (·.pkt == k) = if k = 0 then header_part m else [] := by
    unfold header_part
    by_cases hh : has_header m = true
    · rw [if_pos hh, List.filter_singleton]
      -- the header handler runs on the first packet, the completion on the last
      by_cases hz : k = 0
      · subst hz
        rfl
      · have hne : (0 == k) = false := by simpa using Ne.symm hz
        simp [hz, hne]
    · rw [if_neg hh]
      simp
  have hcompl : (completion_part m).filter (·.pkt == k)
      = if k + 1 = m.length then completion_part m else [] := by
    unfold completion_part
    by_cases hc : (closed m && has_completion m) = true
    · rw [if_pos hc, List.filter_singleton]
      by_cases hl : k + 1 = m.length
      · have heq : (m.length - 1 == k) = true := by simpa using (by omega : m.length - 1 = k)
        simp [hl, heq]
      · have hne : (m.length - 1 == k) = false := by simpa using (by omega : m.length - 1 ≠ k)
        simp [hl, hne]
    · rw [if_neg hc]
      simp
  rw [carriers, plan, List.filter_append, List.filter_append, filter_payload_part hk, hhead, hcompl]

/-- The header task never triggers: the payload of its packet is still to come. -/
theorem header_not_last (hm : m ≠ []) :
    ((carriers m 0).getLast? == some ⟨.Header, 0⟩) = false := by
  have hlen : 0 < m.length := List.length_pos_of_ne_nil hm
  rw [carriers_eq hlen, completion_part]
  split_ifs <;> simp

/-- A payload task triggers unless a completion follows on its packet. -/
theorem payload_last {k : ℕ} (hk : k < m.length) :
    ((carriers m k).getLast? == some ⟨.Payload, k⟩)
      = !(decide (k + 1 = m.length) && closed m && has_completion m) := by
  rw [carriers_eq hk, completion_part]
  by_cases hl : k + 1 = m.length
  · cases hc : closed m <;> cases ht : has_completion m <;> simp [hl]
  · simp [hl]

/-- The completion task always triggers. -/
theorem completion_last (hm : m ≠ []) (hc : closed m = true) (ht : has_completion m = true) :
    ((carriers m (m.length - 1)).getLast? == some ⟨.Completion, m.length - 1⟩) = true := by
  have hlen : 0 < m.length := List.length_pos_of_ne_nil hm
  have hlast : m.length - 1 + 1 = m.length := Nat.sub_add_cancel hlen
  rw [carriers_eq (by omega), if_pos hlast, completion_part, hc, ht]
  simp

/-- Of the tasks that carry a packet only the last one triggers the feedback. -/
theorem trigger_last {k : ℕ} (hk : k < m.length) (i : Fin NUM_MPQ) (h0 : her_descr_t) :
    ∃ l e, carriers m k = l ++ [e] ∧ (task_of i h0 m e).task.trigger_feedback = true
      ∧ ∀ e' ∈ l, (task_of i h0 m e').task.trigger_feedback = false := by
  have hne : m ≠ [] := List.ne_nil_of_length_pos (by omega)
  have hhead : ∀ e' ∈ (if k = 0 then header_part m else []),
      (task_of i h0 m e').task.trigger_feedback = false := by
    intro e' he'
    unfold header_part at he'
    split_ifs at he'
    · obtain rfl := List.mem_singleton.mp he'
      exact header_not_last hne
    all_goals exact absurd he' List.not_mem_nil
  have hpay : (task_of i h0 m ⟨.Payload, k⟩).task.trigger_feedback
      = !(decide (k + 1 = m.length) && closed m && has_completion m) := payload_last hk
  rw [carriers_eq hk]
  -- the last packet has a completion handler after its payload handler, the others none
  by_cases hc : k + 1 = m.length ∧ closed m = true ∧ has_completion m = true
  · obtain ⟨hl, hcl, hco⟩ := hc
    have hk' : m.length - 1 = k := by omega
    refine ⟨(if k = 0 then header_part m else []) ++ [⟨.Payload, k⟩], ⟨.Completion, k⟩, ?_, ?_, ?_⟩
    · rw [if_pos hl, completion_part, hcl, hco, Bool.and_self, if_pos rfl, hk']
    · have := completion_last hne hcl hco
      rw [hk'] at this
      exact this
    · intro e' he'
      rcases List.mem_append.mp he' with he' | he'
      · exact hhead e' he'
      · obtain rfl := List.mem_singleton.mp he'
        rw [hpay, hcl, hco]
        simpa using hl
  · have hnone : (if k + 1 = m.length then completion_part m else []) = [] := by
      unfold completion_part
      split_ifs with h1 h2
      · rw [Bool.and_eq_true] at h2
        exact absurd ⟨h1, h2⟩ hc
      · rfl
      · rfl
    rw [hnone, List.append_nil]
    refine ⟨_, _, rfl, ?_, hhead⟩
    rw [hpay, Bool.not_eq_true', ← Bool.not_eq_true, Bool.and_eq_true, Bool.and_eq_true,
      decide_eq_true_eq, and_assoc]
    exact hc

end Parts

/-! ## A message grows -/

section Grow

variable {i : Fin NUM_MPQ} {h0 h : her_descr_t} {m : List her_descr_t}

/-- The tasks owed for the packets at hand do not change when the next HER of an open
message arrives. -/
theorem task_of_concat (hm : m ≠ []) (ho : closed m = false) {e : plan_t}
    (he : e ∈ header_part m ++ payload_part m.length) :
    task_of i h0 (m ++ [h]) e = task_of i h0 m e := by
  have hlen : 0 < m.length := List.length_pos_of_ne_nil hm
  have hne : m ++ [h] ≠ [] := List.append_ne_nil_of_left_ne_nil hm _
  rcases List.mem_append.mp he with hh | hp
  · obtain rfl : e = ⟨.Header, 0⟩ := by
      unfold header_part at hh
      split_ifs at hh
      · simpa using hh
      · simp at hh
    unfold task_of
    rw [header_not_last hne, header_not_last hm, List.getD_append _ _ _ _ hlen]
  · obtain ⟨k, hk, rfl⟩ := List.mem_map.mp hp
    rw [List.mem_range] at hk
    have hk' : k < (m ++ [h]).length := by rw [List.length_append]; omega
    -- a packet of an open message was not the last before, nor is it now
    have hnl : ¬ k + 1 = (m ++ [h]).length := by
      rw [List.length_append, List.length_singleton]; omega
    unfold task_of
    rw [payload_last hk', payload_last hk, List.getD_append _ _ _ _ hk, ho, decide_eq_false hnl]
    simp

/-- So what a queue has sent for the message stays what it owed. -/
theorem tasks_for_concat (hm : m ≠ []) (ho : closed m = false) {l : List plan_t}
    (hl : l ⊆ header_part m ++ payload_part m.length) :
    tasks_for i (m ++ [h]) l = tasks_for i m l := by
  obtain ⟨h0, hs, rfl⟩ := List.exists_cons_of_ne_nil hm
  exact List.map_congr_left fun _ he => task_of_concat hm ho (hl he)

theorem tasks_for_append (m : List her_descr_t) (l l' : List plan_t) :
    tasks_for i m (l ++ l') = tasks_for i m l ++ tasks_for i m l' := by
  cases m with
  | nil => rfl
  | cons h0 hs => exact List.map_append

theorem length_tasks_for (hm : m ≠ []) (l : List plan_t) :
    (tasks_for i m l).length = l.length := by
  obtain ⟨h0, hs, rfl⟩ := List.exists_cons_of_ne_nil hm
  exact List.length_map _

end Grow

end Message

end Pspin
