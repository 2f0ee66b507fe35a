/-
Message isolation at the HER interface of `mpq_engine`.

The queue of a HER is picked by the low bits of its msgid, and the engine takes a HER
whenever that queue's FIFO has room. It does not look at the rest of the msgid, nor at
whether the queue still serves another message. With one message at a time on a queue
nothing gets mixed (`message_isolation`), also on the output, where a task waits in the
pipeline for the scheduler (`pipe_reach`). Without, the HERs of two messages become one
(`foreign_her_merged`).
-/
import Pspin.MpqContract

set_option autoImplicit false

namespace Pspin.MpqEngine

open Message

namespace Sys

variable {s : Sys} {i : SysInput}

/-! ## The output pipeline -/

/-- The tasks handed over and the one on the output are the tasks sent. -/
def Pipe (s : Sys) : Prop :=
  ∀ k, s.delivered k ++ pending s.hw k = (s.log k).sent.map (·.task)

/-- A queue's number as a message id is that queue's. -/
theorem mpq_idx_ofNat (k : mpq_idx_t) : mpq_idx (BitVec.ofNat C_MSGID_WIDTH k) = k := by
  revert k
  decide

/-- A grant puts its task on the output. -/
theorem pending_sent (hs : task_sent s.hw i.toInput = true) (k : mpq_idx_t) :
    pending (s.step i).hw k
      = if tasksent_mpq_idx s.hw = k then [new_task (MpqEngine.step s.hw i.toInput)] else [] := by
  have hready : (s.step i).hw.state_q = .Ready := by
    show state_d s.hw i.toInput = .Ready
    -- a grant is given in `Idle`, or where the task before leaves
    rw [task_sent, Bool.and_eq_true] at hs
    unfold arb_ready at hs
    unfold state_d
    cases hst : s.hw.state_q <;> simp_all
  have hsel : (s.step i).hw.selected_mpq_q = tasksent_mpq_idx s.hw := by
    show (if task_sent s.hw i.toInput then _ else _) = _
    rw [if_pos hs]
  have hmsg : mpq_idx (new_task (MpqEngine.step s.hw i.toInput)).msgid
      = tasksent_mpq_idx s.hw := by
    show mpq_idx (BitVec.ofNat _ (s.step i).hw.selected_mpq_q) = _
    rw [hsel, mpq_idx_ofNat]
  unfold pending task_valid_o task_o
  rw [hready]
  simp [hmsg, Sys.step]

/-- Without a grant the output empties when the scheduler takes the task, and else stays. -/
theorem pending_not_sent (hs : task_sent s.hw i.toInput = false) (k : mpq_idx_t) :
    (if i.task_ready_i then pending s.hw k else []) ++ pending (s.step i).hw k
      = pending s.hw k := by
  have hstate : (s.step i).hw.state_q = state_d s.hw i.toInput := rfl
  have htask : (s.step i).hw.task_q = task_o s.hw := rfl
  unfold task_sent arb_ready at hs
  -- without a grant the port shows the task it showed, until it is taken
  cases hst : s.hw.state_q with
  | Idle =>
      rw [hst] at hs
      have hd : state_d s.hw i.toInput = .Idle := by
        simp_all [state_d]
      unfold pending task_valid_o
      simp [hstate, hd, hst]
  | Ready | Stalled =>
    rw [hst] at hs
    by_cases hr : i.task_ready_i = true
    · have hd : state_d s.hw i.toInput = .Idle := by
        simp_all [state_d]
      have hnil : pending (s.step i).hw k = [] := by
        unfold pending task_valid_o
        simp [hstate, hd]
      rw [if_pos hr, hnil, List.append_nil]
    · have hd : state_d s.hw i.toInput = .Stalled := by
        simp_all [state_d]
      rw [if_neg hr, List.nil_append]
      unfold pending task_valid_o
      simp [hstate, hd, hst, task_o, htask]

theorem pipe_step (h : Pipe s) : Pipe (s.step i) := by
  intro k
  show (s.delivered k ++ if i.task_ready_i then pending s.hw k else [])
    ++ pending (s.step i).hw k = ((s.step i).log k).sent.map (·.task)
  rw [log_step_sent]
  by_cases hs : task_sent s.hw i.toInput = true
  · -- the engine grants only when the output is free or taken
    have hout : (if i.task_ready_i then pending s.hw k else []) = pending s.hw k := by
      by_cases hr : i.task_ready_i = true
      · rw [if_pos hr]
      · rw [if_neg hr]
        have hidle : s.hw.state_q = .Idle := by
          unfold task_sent arb_ready at hs
          cases hst : s.hw.state_q <;> simp_all
        simp [pending, task_valid_o, hidle]
    rw [hout, h k, pending_sent hs]
    by_cases hk : tasksent_mpq_idx s.hw = k
    · rw [if_pos hk, if_pos (granted_iff.mpr ⟨hs, hk⟩), List.map_append]
      rfl
    · rw [if_neg hk, if_neg (fun hc => hk (granted_iff.mp hc).2), List.append_nil]
  · have hg : ¬ granted s.hw i.toInput k = true := fun hc => hs (granted_iff.mp hc).1
    rw [if_neg hg, List.append_assoc, pending_not_sent (by simpa using hs), h k]

theorem pipe_reach {env : Sys → SysInput → Prop} (h : Sync.Reach init step env s) : Pipe s := by
  refine h.inv ?_ (fun s i hp _ => pipe_step hp)
  rintro s ⟨pkts, metas, rfl⟩ k
  rfl

/-! ## One message at a time -/

/-- An accepted HER finds its queue free, or continues the open message of the queue,
with the same msgid. -/
def OneMessage (s : Sys) (i : SysInput) : Prop :=
  her_new s.hw i.toInput = true →
    (s.hw.mpq_q (newher_mpq_idx i.toInput)).state = .Free
      ∨ (closed (s.log (newher_mpq_idx i.toInput)).cur = false
        ∧ (s.log (newher_mpq_idx i.toInput)).cur.head?.map (·.msgid) = some i.her_i.msgid)

/-- What the ports are promised, messages with different ids apart. -/
def IsolatedEnv (s : Sys) (i : SysInput) : Prop := FeedbackEnv s i ∧ OneMessage s i

instance (s : Sys) (i : SysInput) : Decidable (OneMessage s i) :=
  inferInstanceAs (Decidable (_ → _))

instance (s : Sys) (i : SysInput) : Decidable (IsolatedEnv s i) :=
  inferInstanceAs (Decidable (_ ∧ _))

/-- That is more than the other claims of the engine ask for. -/
theorem env_of_isolated (h : IsolatedEnv s i) : Env s i := by
  refine ⟨h.1, fun hnew => ?_⟩
  rcases h.2 hnew with hf | ⟨ho, hid⟩
  · exact Or.inl hf
  · refine Or.inr ⟨fun hnil => ?_, ho⟩
    rw [show (s.log (newher_mpq_idx i.toInput)).cur = [] from hnil] at hid
    exact absurd hid (by simp)

/-- All HERs of a message carry one msgid, and it names the queue. -/
def OneMsgid (k : mpq_idx_t) (m : List her_descr_t) : Prop :=
  ∃ id, mpq_idx id = k ∧ ∀ h ∈ m, h.msgid = id

/-- No HER has been merged into a message of another msgid. -/
def Unmixed (s : Sys) : Prop :=
  ∀ k m, m ∈ (s.log k).past ∨ m = (s.log k).cur → OneMsgid k m

/-- A message has one id with its first packet. -/
theorem one_msgid_singleton {k : mpq_idx_t} {h : her_descr_t} (hk : mpq_idx h.msgid = k) :
    OneMsgid k [h] :=
  ⟨h.msgid, hk, fun _ hx => by rw [List.mem_singleton.mp hx]⟩

theorem one_msgid_nil (k : mpq_idx_t) : OneMsgid k [] :=
  ⟨_, mpq_idx_ofNat k, fun _ hx => absurd hx List.not_mem_nil⟩

/-- A log gets a HER of its own open message, or of a new one. -/
theorem one_msgid_her {k : mpq_idx_t} {l : Log} {h : her_descr_t} (hk : mpq_idx h.msgid = k)
    (hu : ∀ m, m ∈ l.past ∨ m = l.cur → OneMsgid k m)
    (hh : closed l.cur = true ∨ l.cur = [] ∨ l.cur.head?.map (·.msgid) = some h.msgid) :
    ∀ m, m ∈ (l.her h).past ∨ m = (l.her h).cur → OneMsgid k m := by
  intro m hm
  by_cases hc : closed l.cur = true
  · rw [Log.her, if_pos hc] at hm
    rcases hm with hm | rfl
    · rcases List.mem_append.mp hm with hm | hm
      · exact hu m (Or.inl hm)
      · exact hu m (Or.inr (List.mem_singleton.mp hm))
    · exact one_msgid_singleton hk
  · rw [Log.her, if_neg hc] at hm
    rcases hm with hm | rfl
    · exact hu m (Or.inl hm)
    · -- an open message goes on with the id of its first packet
      rcases hh.resolve_left hc with hnil | hid
      · rw [hnil]
        exact one_msgid_singleton hk
      · obtain ⟨id, hidx, hall⟩ := hu _ (Or.inr rfl)
        obtain ⟨h0, hh0, hid0⟩ := Option.map_eq_some_iff.mp hid
        have hid' : id = h.msgid := (hall h0 (List.mem_of_head? hh0)).symm.trans hid0
        refine ⟨id, hidx, fun x hx => ?_⟩
        rcases List.mem_append.mp hx with hx | hx
        · exact hall x hx
        · rw [List.mem_singleton.mp hx, hid']

/-- No cycle brings a foreign packet into a message: that is where a second message of the queue
has to wait for the first. -/
theorem unmixed_step (h : Inv s) (hu : Unmixed s) (he : IsolatedEnv s i) :
    Unmixed (s.step i) := by
  intro k
  show ∀ m, m ∈ (log_step s.hw i k (s.log k)).past ∨ m = (log_step s.hw i k (s.log k)).cur →
    OneMsgid k m
  have hsame : ∀ l : Log, l.past = (s.log k).past → l.cur = (s.log k).cur →
      ∀ m, m ∈ l.past ∨ m = l.cur → OneMsgid k m := by
    intro l hp hc m hm
    rw [hp, hc] at hm
    exact hu k m hm
  -- only a HER changes the messages of the log
  by_cases hg : got_her s.hw i.toInput k = true
  · obtain ⟨hnew, hidx⟩ := got_her_iff.mp hg
    have hone := he.2 hnew
    rw [hidx] at hone
    have hcur : closed (s.log k).cur = true ∨ (s.log k).cur = []
        ∨ (s.log k).cur.head?.map (·.msgid) = some i.her_i.msgid := by
      rcases hone with hf | ⟨-, hid⟩
      · rcases ((h.queue k).free_iff.mp hf).closed with hc | hc
        · exact Or.inr (Or.inl hc)
        · exact Or.inl hc
      · exact Or.inr (Or.inr hid)
    unfold log_step
    simp only [hg, if_true]
    refine one_msgid_her hidx (hsame _ ?_ ?_) ?_
    · split_ifs <;> rfl
    · split_ifs <;> rfl
    · split_ifs <;> exact hcur
  · unfold log_step
    simp only [hg, Bool.false_eq_true, if_false]
    refine hsame _ ?_ ?_
    · split_ifs <;> rfl
    · split_ifs <;> rfl

theorem unmixed_reach (h : Sync.Reach init step IsolatedEnv s) : Unmixed s := by
  refine h.inv_of (P := Inv) (fun s h => inv_reach (h.mono fun _ _ => env_of_isolated)) ?_
    (fun s i hinv hu he => unmixed_step hinv hu he)
  rintro s ⟨pkts, metas, rfl⟩ k m hm
  rcases hm with hm | rfl
  · exact absurd hm List.not_mem_nil
  · exact one_msgid_nil k

end Sys

/-! ## The contract -/

variable {s : Sys}

/-- The tasks of a plan carry the index of their queue for a msgid. -/
theorem tasks_msgid {k : mpq_idx_t} {m : List her_descr_t} {l : List plan_t} {t : sent_t}
    (ht : t ∈ tasks_for k m l) : t.task.msgid = BitVec.ofNat _ k := by
  cases m with
  | nil => exact absurd ht List.not_mem_nil
  | cons h0 hs =>
      obtain ⟨e, -, rfl⟩ := List.mem_map.mp ht
      rfl

/-- **Messages do not mix.** With one message at a time on a queue: every message on
queue `k` consists of HERs of one msgid, with `k` as its low bits; the tasks handed over
and the one on the output are the front of what the messages call for, each message its
own tasks with its own metadata; they carry `k` as msgid. And once no queue asks for a
grant, every task is answered and every message is closed, all queues are free and their
FIFOs empty, and nothing owed is missing. -/
theorem message_isolation (h : Sync.Reach Sys.init Sys.step Sys.IsolatedEnv s) :
    (∀ k m, m ∈ (s.log k).past ∨ m = (s.log k).cur →
        ∃ id, mpq_idx id = k ∧ ∀ h ∈ m, h.msgid = id)
      ∧ (∀ k, s.delivered k ++ pending s.hw k <+: ((s.log k).owed k).map (·.task))
      ∧ (∀ k, ∀ t ∈ s.delivered k ++ pending s.hw k, t.msgid = BitVec.ofNat _ k)
      ∧ ((∀ k, mpq_valid (s.hw.mpq_q k) = false ∧ (s.log k).AllAnswered
            ∧ ((s.log k).cur = [] ∨ closed (s.log k).cur = true)) →
          ∀ k, (s.hw.mpq_q k).state = .Free
            ∧ FifoEngine.fifo_elems s.hw.i_fifo_engine k = []
            ∧ s.delivered k ++ pending s.hw k = ((s.log k).owed k).map (·.task)) := by
  have hinv := Sys.inv_reach (h.mono fun _ _ => Sys.env_of_isolated)
  have hpipe := Sys.pipe_reach h
  refine ⟨Sys.unmixed_reach h, fun k => ?_, fun k t ht => ?_, fun hdone k => ?_⟩
  · rw [hpipe k]
    exact (hinv.queue k).sent_front.map _
  · rw [hpipe k] at ht
    obtain ⟨u, hu, rfl⟩ := List.mem_map.mp ht
    have hmem := (hinv.queue k).sent_front.subset hu
    rcases List.mem_append.mp hmem with hm | hm
    · obtain ⟨m, -, hm⟩ := List.mem_flatMap.mp hm
      exact tasks_msgid hm
    · exact tasks_msgid hm
  · obtain ⟨hval, hall, hcl⟩ := hdone k
    have hq := hinv.queue k
    have hsent : (s.log k).sent = (s.log k).owed k := by
      -- a queue with tasks to send either asks for a grant or waits for an answer
      by_contra hne
      rcases hq.not_stuck hne with hv | ⟨n, hn⟩
      · exact absurd (hval.symm.trans hv) Bool.false_ne_true
      · obtain ⟨hlt, hna⟩ := Finset.mem_sdiff.mp hn
        exact hna (hall n (Finset.mem_range.mp hlt))
    have hfree := hq.free_iff.mpr ⟨hcl, hsent, hall⟩
    refine ⟨hfree, hq.free_fifo hfree, ?_⟩
    rw [hpipe k, hsent]

/-! Three messages. Those of msgids 3 and 5 come in at the same time, on queues 3 and 5, and
the HER of the second is between the two of the first. The payload handlers of the first
are answered in the other order. Behind it, the message of msgid 19 uses queue 3 too. -/

/-- A payload handler only. -/
def plain_meta : mpq_meta_t := { demo_meta with hh_addr := 0, ph_addr := 0x40, th_addr := 0 }

/-- The first packet of message 3. -/
def first_her : her_descr_t := ⟨3, false, 0x1000, 64, 64, demo_meta⟩

def second_her : her_descr_t := ⟨3, true, 0x1040, 64, 64, plain_meta⟩

/-- Message 5, on another queue. -/
def other_her : her_descr_t := ⟨5, true, 0x2000, 64, 64, plain_meta⟩

/-- A message that shares the queue of message 3 and comes after it. -/
def later_her : her_descr_t := ⟨19, true, 0x3000, 64, 64, plain_meta⟩

/-- Their packets come in by turns, and each message is carried out. -/
def message_cycles : List SysInput :=
  [her_cycle first_her, her_cycle other_her, her_cycle second_her, idle_cycle,
    feedback_cycle ⟨0x1000, 64, 3, false⟩ 0, idle_cycle, idle_cycle,
    feedback_cycle ⟨0x2000, 64, 5, true⟩ 0, feedback_cycle ⟨0x1040, 64, 3, false⟩ 2,
    feedback_cycle ⟨0x1000, 64, 3, true⟩ 1, idle_cycle,
    feedback_cycle ⟨0x1040, 64, 3, true⟩ 3, her_cycle later_her, idle_cycle, idle_cycle]

theorem message_isolation_demo :
    (Sync.run Sys.step demo_start message_cycles).delivered 3
        = [handler_task 3 demo_meta 0x1000 64 .Header false,
          handler_task 3 demo_meta 0x1000 64 .Payload true,
          handler_task 3 demo_meta 0x1040 64 .Payload false,
          handler_task 3 demo_meta 0x1040 64 .Completion true,
          handler_task 3 plain_meta 0x3000 64 .Payload true]
      ∧ (Sync.run Sys.step demo_start message_cycles).delivered 5
        = [handler_task 5 plain_meta 0x2000 64 .Payload true]
      ∧ ((Sync.run Sys.step demo_start message_cycles).log 3).past = [[first_her, second_her]]
      ∧ (∃ id, mpq_idx id = 3 ∧ ∀ h ∈ [first_her, second_her], h.msgid = id)
      ∧ ∃ id, mpq_idx id = 3
        ∧ ∀ h ∈ ((Sync.run Sys.step demo_start message_cycles).log 3).cur, h.msgid = id := by
  have hreach : Sync.Reach Sys.init Sys.step Sys.IsolatedEnv
      (Sync.run Sys.step demo_start message_cycles) :=
    (Sync.Reach.reset ⟨_, _, rfl⟩).run (by decide +kernel)
  have hpast : ((Sync.run Sys.step demo_start message_cycles).log 3).past
      = [[first_her, second_her]] := by decide +kernel
  have hmsgid := (message_isolation hreach).1
  exact ⟨by decide +kernel, by decide +kernel, hpast,
    hmsgid 3 _ (Or.inl (by rw [hpast]; exact List.mem_singleton_self _)),
    hmsgid 3 _ (Or.inr rfl)⟩

/-! ## Without the protocol -/

/-- A HER of a message still open, and one of another message whose msgid has the same
low bits. -/
def her_a : her_descr_t := ⟨0, false, 0x1000, 64, 64, { demo_meta with hh_addr := 0, th_addr := 0 }⟩

/-- A message on the same queue as the open one. -/
def her_b : her_descr_t := ⟨16, true, 0x2000, 64, 64, { demo_meta with ph_addr := 0x40 }⟩

/-- It comes before the open message has ended. -/
def foreign_cycles : List SysInput := [her_cycle her_a, her_cycle her_b, idle_cycle]

/-- The HERs a queue has accepted. -/
def accepted (l : Log) : List her_descr_t := l.past.flatten ++ l.cur

/-- The task that carries the packet of a HER has the msgid of the HER, and the handler
some HER of that msgid named. -/
def Isolated (s : Sys) : Prop :=
  ∀ k, ∀ h ∈ accepted (s.log k), ∀ t ∈ (s.log k).sent, t.task.pkt_addr = h.her_addr →
    t.task.msgid = h.msgid ∧ ∃ h' ∈ accepted (s.log k), h'.msgid = h.msgid
      ∧ t.task.handler_fun = (handler_of t.kind h'.mpq_meta).1

/-- Two messages share queue 0: the packet of the second runs the payload handler of the
first, under its msgid. The packets of the run have distinct addresses. -/
theorem foreign_her_merged :
    ¬ ∀ s, Sync.Reach Sys.init Sys.step Sys.FeedbackEnv s →
      (∀ k, ((accepted (s.log k)).map (·.her_addr)).Nodup) → Isolated s := by
  intro hall
  have hreach : Sync.Reach Sys.init Sys.step Sys.FeedbackEnv
      (Sync.run Sys.step demo_start foreign_cycles) :=
    (Sync.Reach.reset ⟨_, _, rfl⟩).run (by decide +kernel)
  have hacc : accepted ((Sync.run Sys.step demo_start foreign_cycles).log 0) = [her_a, her_b] := by
    decide +kernel
  have hsent : (⟨.Payload, handler_task 0 her_a.mpq_meta 0x2000 64 .Payload true⟩ : sent_t)
      ∈ ((Sync.run Sys.step demo_start foreign_cycles).log 0).sent := by
    decide +kernel
  have hiso := hall _ hreach (by decide +kernel) 0 her_b (by rw [hacc]; simp) _ hsent rfl
  exact absurd hiso.1 (by decide)

end Pspin.MpqEngine
