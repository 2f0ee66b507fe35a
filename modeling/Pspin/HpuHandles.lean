/-
The handle a core gets for a command.

A granted load of the issue register returns `rdata_q`, which was written when the load
was raised; the id of the command is chosen when it is pushed. The two agree when the load
is granted at once. When it had to wait, the handle is the lowest id that was not in use
at the start (the last id, if all were), and the command has the id of a response, or the
first id. `handles_agree_iff` says in which runs they agree, and `wrong_handle` is a run in
which they do not.

A handle that agrees is good for waiting: a store of the handle to the wait register is
granted when the command is answered.
-/
import Pspin.HpuRuns

set_option autoImplicit false

namespace Pspin.HpuDriver.Sys

variable (cluster_id_i : BitVec 6) (C_CORE_ID : ℕ)

/-- The last id, which the front-end shows when all are in use. -/
def last_id : local_cmd_id_t := Fin.last (NUM_HPU_CMDS - 1)

/-- The value returned for each granted load is the id of the command it pushed. -/
def Agree (s : Sys) : Prop := s.returned = s.pushed.map CmdFrontend.id_word

/-- `spin_cmd_wait`: a store of a handle to the wait register. -/
def spin_cmd_wait (i : Input) (handle : BitVec 32) : Prop :=
  i.req = true ∧ wait_access i.access = true ∧ i.access.wdata = handle

/-- A granted wait on the handle of a command comes after the response to that command. -/
def Waited (s : Sys) (i : Input) : Prop :=
  ∀ n handle, s.returned[n]? = some handle → spin_cmd_wait i handle →
    gnt cluster_id_i C_CORE_ID s.hw i = true →
    ∀ c ∈ (step cluster_id_i C_CORE_ID s i).book.unanswered, c.tag.num ≠ n

/-- The id a load gets after a stall is the lowest that was not in use when the load was
raised: a load that waits for an id gets the last one, and for a load that waits for a
feedback the first id was not in use. -/
structure Good (s : Sys) (i : Input) : Prop where
  waiting : s.hw.i_cmd_frontend.state_q = .WaitingID →
    cmd_resp_valid cluster_id_i C_CORE_ID i = true → i.cmd_resp_id_i.local_cmd_id = last_id
  disabled : s.hw.i_cmd_frontend.state_q = .Disabled → s.held = [] → s.ids_at_load 0 = false

instance (s : Sys) (i : Input) : Decidable (Good cluster_id_i C_CORE_ID s i) :=
  decidable_of_iff ((s.hw.i_cmd_frontend.state_q = .WaitingID →
      cmd_resp_valid cluster_id_i C_CORE_ID i = true → i.cmd_resp_id_i.local_cmd_id = last_id)
      ∧ (s.hw.i_cmd_frontend.state_q = .Disabled → s.held = [] → s.ids_at_load 0 = false))
    ⟨fun h => ⟨h.1, h.2⟩, fun h => ⟨h.waiting, h.disabled⟩⟩

instance (s : Sys) : Decidable (Agree s) := inferInstanceAs (Decidable (_ = _))

/-- What the read data register holds for a load that waits. -/
structure Handles (s : Sys) : Prop extends Inv s where
  /-- In `Ready` no access to the command front-end waits. -/
  fresh : s.hw.i_cmd_frontend.state_q = .Ready → ∀ a ∈ s.stalled, a.add.extractLsb' 7 2 ≠ 1
  waiting : s.hw.i_cmd_frontend.state_q = .WaitingID →
    s.hw.i_cmd_frontend.rdata_q = CmdFrontend.id_word last_id
  disabled : s.hw.i_cmd_frontend.state_q = .Disabled →
    s.hw.i_cmd_frontend.rdata_q = CmdFrontend.id_word (CmdFrontend.lowest_unused s.ids_at_load)
  /-- The number of an unanswered command finds its id. -/
  nums : ∀ c ∈ s.book.unanswered, s.pushed[c.tag.num]? = some c.id

variable {cluster_id_i} {C_CORE_ID} {s : Sys} {i : Input} {is : List Input}

/-! ## Handles -/

theorem id_word_injective : ∀ k k' : local_cmd_id_t,
    CmdFrontend.id_word k = CmdFrontend.id_word k' → k = k' := by decide

/-- What is returned for an access to the command front-end. -/
theorem r_rdata_step (h : add_type_d i = 1) : r_rdata (HpuDriver.step cluster_id_i C_CORE_ID s.hw i)
    = CmdFrontend.rdata_d s.hw.i_cmd_frontend (s.cmd_in cluster_id_i C_CORE_ID i) := by
  have hq : (HpuDriver.step cluster_id_i C_CORE_ID s.hw i).add_type_q = 1 := h
  rw [r_rdata, hq]
  rfl

theorem step_rdata : (step cluster_id_i C_CORE_ID s i).hw.i_cmd_frontend.rdata_q
    = CmdFrontend.rdata_d s.hw.i_cmd_frontend (s.cmd_in cluster_id_i C_CORE_ID i) := rfl

/-- An issue writes the lowest id not in use. -/
theorem rdata_of_issue (hq : s.hw.i_cmd_frontend.state_q = .Ready)
    (hissue : s.issues cluster_id_i C_CORE_ID i = true) :
    CmdFrontend.rdata_d s.hw.i_cmd_frontend (s.cmd_in cluster_id_i C_CORE_ID i)
      = CmdFrontend.id_word (CmdFrontend.cmd_idx s.hw.i_cmd_frontend) := by
  have hissue' : CmdFrontend.cmd_issued (s.cmd_in cluster_id_i C_CORE_ID i) = true := hissue
  have htest : CmdFrontend.test_issued (s.cmd_in cluster_id_i C_CORE_ID i) = false := by
    rw [CmdFrontend.cmd_issued, Bool.and_eq_true, Bool.and_eq_true, beq_iff_eq] at hissue'
    rw [CmdFrontend.test_issued, hissue'.1.2]
    show (_ && false && _) = false
    rw [Bool.and_false, Bool.false_and]
  rw [CmdFrontend.rdata_d, hq, htest, hissue']
  rfl

/-- A load that waits keeps the read data. -/
theorem rdata_of_blocked
    (hq : s.hw.i_cmd_frontend.state_q = .Disabled ∨ s.hw.i_cmd_frontend.state_q = .WaitingID) :
    CmdFrontend.rdata_d s.hw.i_cmd_frontend (s.cmd_in cluster_id_i C_CORE_ID i)
      = s.hw.i_cmd_frontend.rdata_q := by
  rcases hq with hq | hq <;> rw [CmdFrontend.rdata_d, hq]

namespace Handles

/-- In `Ready` a load of the issue register was not up before. -/
theorem not_stalled (h : Handles s) (he : Env cluster_id_i C_CORE_ID s i)
    (hq : s.hw.i_cmd_frontend.state_q = .Ready)
    (hissue : s.issues cluster_id_i C_CORE_ID i = true) : s.stalled = none := by
  by_contra hne
  obtain ⟨a, ha⟩ := Option.ne_none_iff_exists'.mp hne
  have hacc := (he.hold a ha).2
  apply h.fresh hq a ha
  rw [← hacc]
  exact type_of_issue hissue

/-- Where a load waits for a feedback, the register shows the lowest id of when it was
raised. -/
theorem step_disabled (h : Handles s) (he : Env cluster_id_i C_CORE_ID s i)
    (hd : CmdFrontend.state_d s.hw.i_cmd_frontend (s.cmd_in cluster_id_i C_CORE_ID i) = .Disabled) :
    (Sys.step cluster_id_i C_CORE_ID s i).hw.i_cmd_frontend.rdata_q
      = CmdFrontend.id_word (CmdFrontend.lowest_unused
          (Sys.step cluster_id_i C_CORE_ID s i).ids_at_load) := by
  have hids : (Sys.step cluster_id_i C_CORE_ID s i).ids_at_load = s.ids_when_raised := rfl
  rw [step_rdata, hids]
  rcases (CmdFrontend.cause_of hd).1 with ⟨hq, hissue⟩ | hq
  · rw [rdata_of_issue hq hissue, ids_when_raised, h.not_stalled he hq hissue]
    rfl
  · obtain ⟨a, ha, -⟩ := h.blocked.issue (Or.inl hq)
    rw [rdata_of_blocked (Or.inl hq), h.disabled hq, ids_when_raised, ha]
    rfl

/-- Where a load waits for an id, it shows the last one. -/
theorem step_waiting (h : Handles s)
    (hd : CmdFrontend.state_d s.hw.i_cmd_frontend (s.cmd_in cluster_id_i C_CORE_ID i) = .WaitingID) :
    (Sys.step cluster_id_i C_CORE_ID s i).hw.i_cmd_frontend.rdata_q
      = CmdFrontend.id_word last_id := by
  rw [step_rdata]
  rcases CmdFrontend.cause_of hd with ⟨hq, -⟩ | ⟨⟨hq, hissue⟩ | hq, hen, hnone⟩
  · rw [rdata_of_blocked (Or.inr hq), h.waiting hq]
  · have hidx : CmdFrontend.cmd_idx s.hw.i_cmd_frontend = last_id :=
      CmdFrontend.lowest_unused_of_none (CmdFrontend.no_free_iff.mp hnone)
    rw [rdata_of_issue hq hissue, hidx]
  · -- a load that waited for a feedback finds all ids free
    have hfree := h.all_free hq (h.feedbacks.held_of_enabled hen) 0
    rw [CmdFrontend.no_free_iff.mp hnone] at hfree
    exact absurd hfree (by decide)

theorem step_fresh
    (hd : CmdFrontend.state_d s.hw.i_cmd_frontend (s.cmd_in cluster_id_i C_CORE_ID i) = .Ready) :
    ∀ a ∈ (Sys.step cluster_id_i C_CORE_ID s i).stalled, a.add.extractLsb' 7 2 ≠ 1 := by
  intro a ha htype
  rw [step_stalled] at ha
  split_ifs at ha with hst
  · obtain rfl := Option.some.inj ha
    rw [Bool.and_eq_true, Bool.not_eq_true', gnt_cmd htype, CmdFrontend.gnt_o, hd] at hst
    have hreq : (s.cmd_in cluster_id_i C_CORE_ID i).req_i = true := by
      show (i.req && add_type_d i == 1) = true
      rw [hst.1, add_type_d, htype]
      rfl
    rw [hreq] at hst
    exact absurd hst.2 (by decide)
  · exact absurd ha (by simp)

theorem step_nums (h : Handles s) : ∀ c ∈ (Sys.step cluster_id_i C_CORE_ID s i).book.unanswered,
    (Sys.step cluster_id_i C_CORE_ID s i).pushed[c.tag.num]? = some c.id := by
  intro c hc
  rw [step_pushed]
  rcases mem_step_unanswered hc with hc | ⟨hp, rfl⟩
  · have hid := h.nums c ((CmdFrontend.rest_sublist _ _).subset hc)
    obtain ⟨hlt, -⟩ := List.getElem?_eq_some_iff.mp hid
    rw [List.getElem?_append_left hlt, hid]
  · rw [if_pos hp]
    exact List.getElem?_concat_length

theorem step (h : Handles s) (he : Env cluster_id_i C_CORE_ID s i) :
    Handles (Sys.step cluster_id_i C_CORE_ID s i) where
  toInv := h.toInv.step he
  fresh := step_fresh
  waiting := h.step_waiting
  disabled := h.step_disabled he
  nums := h.step_nums

/-! ## Agreement -/

/-- A cycle that grants no load is good. -/
theorem good_of_not_push (h : Handles s) (he : Env cluster_id_i C_CORE_ID s i)
    (hp : s.pushes cluster_id_i C_CORE_ID i = false)
    (hhand : ¬ (s.hw.i_cmd_frontend.state_q = .WaitingID
      ∧ cmd_resp_valid cluster_id_i C_CORE_ID i = true)) : Good cluster_id_i C_CORE_ID s i where
  waiting := fun hq hr => absurd ⟨hq, hr⟩ hhand
  disabled := by
    intro hq hheld
    have hpush := (h.toInv.resumes he hq hheld).1
    exact absurd (hpush.symm.trans hp) (by decide)

/-- **When a granted load returns the id of its command.** -/
theorem handle_iff (h : Handles s) (he : Env cluster_id_i C_CORE_ID s i)
    (hp : s.pushes cluster_id_i C_CORE_ID i = true) :
    CmdFrontend.rdata_d s.hw.i_cmd_frontend (s.cmd_in cluster_id_i C_CORE_ID i)
        = CmdFrontend.id_word
          (CmdFrontend.local_cmd_id_d s.hw.i_cmd_frontend (s.cmd_in cluster_id_i C_CORE_ID i))
      ↔ Good cluster_id_i C_CORE_ID s i := by
  rcases h.ids.issue (h.blocked.held he) he.answers with
    ⟨hpush, -, -, -⟩ | ⟨-, hassign, hq | hq, hen, -, hissue, -⟩ | ⟨-, -, hq, hr, -, -⟩
  · exact absurd (hp.symm.trans hpush) (by decide)
  · -- granted at once
    have hid : CmdFrontend.local_cmd_id_d s.hw.i_cmd_frontend (s.cmd_in cluster_id_i C_CORE_ID i)
        = CmdFrontend.cmd_idx s.hw.i_cmd_frontend := by
      rw [CmdFrontend.local_cmd_id_d, hq, hassign]
      rfl
    rw [rdata_of_issue hq hissue, hid]
    refine ⟨fun _ => ⟨fun hc => ?_, fun hc => ?_⟩, fun _ => rfl⟩
    · exact absurd (hq.symm.trans hc) (by decide)
    · exact absurd (hq.symm.trans hc) (by decide)
  · -- granted after a feedback has left: the command has the first id
    have hheld := h.feedbacks.held_of_enabled hen
    have hidx : CmdFrontend.cmd_idx s.hw.i_cmd_frontend = 0 :=
      CmdFrontend.lowest_unused_eq_zero_iff.mpr (h.all_free hq hheld 0)
    have hid : CmdFrontend.local_cmd_id_d s.hw.i_cmd_frontend (s.cmd_in cluster_id_i C_CORE_ID i)
        = 0 := by
      rw [CmdFrontend.local_cmd_id_d, hq, hassign, ← hidx]
      rfl
    rw [rdata_of_blocked (Or.inl hq), h.disabled hq, hid]
    constructor
    · intro heq
      refine ⟨fun hc => absurd (hq.symm.trans hc) (by decide), fun _ _ => ?_⟩
      exact CmdFrontend.lowest_unused_eq_zero_iff.mp (id_word_injective _ _ heq)
    · intro hgood
      rw [CmdFrontend.lowest_unused_eq_zero_iff.mpr (hgood.disabled hq hheld)]
  · -- granted by a response: the command has its id
    have hid : CmdFrontend.local_cmd_id_d s.hw.i_cmd_frontend (s.cmd_in cluster_id_i C_CORE_ID i)
        = i.cmd_resp_id_i.local_cmd_id := by
      rw [CmdFrontend.local_cmd_id_d, hq, hr]
      rfl
    rw [rdata_of_blocked (Or.inr hq), h.waiting hq, hid]
    constructor
    · intro heq
      refine ⟨fun _ _ => (id_word_injective _ _ heq).symm, fun hc => ?_⟩
      exact absurd (hq.symm.trans hc) (by decide)
    · intro hgood
      rw [hgood.waiting hq hr]

/-- **One cycle.** The handles still agree exactly when the cycle is good. -/
theorem agree_step_iff (h : Handles s) (he : Env cluster_id_i C_CORE_ID s i) (hs : Agree s) :
    Agree (Sys.step cluster_id_i C_CORE_ID s i) ↔ Good cluster_id_i C_CORE_ID s i := by
  have hret : (Sys.step cluster_id_i C_CORE_ID s i).returned = s.returned
      ++ if s.issues cluster_id_i C_CORE_ID i && gnt cluster_id_i C_CORE_ID s.hw i then
        [r_rdata (HpuDriver.step cluster_id_i C_CORE_ID s.hw i)] else [] := rfl
  unfold Agree
  rw [hret, step_pushed, List.map_append, ← hs, List.append_cancel_left_eq]
  by_cases hp : s.pushes cluster_id_i C_CORE_ID i = true
  · have hgrant := (h.toInv.push_iff he).mp hp
    rw [← h.handle_iff he hp, if_pos hp, if_pos (Bool.and_eq_true_iff.mpr hgrant),
      r_rdata_step (type_of_issue hgrant.1), List.map_singleton, List.singleton_inj]
  · have hno : ¬ (s.issues cluster_id_i C_CORE_ID i && gnt cluster_id_i C_CORE_ID s.hw i) = true := by
      rw [Bool.and_eq_true]
      exact fun hc => hp ((h.toInv.push_iff he).mpr hc)
    have hpush := Bool.eq_false_of_not_eq_true hp
    -- an identifier that is handed over would be pushed in the same cycle
    have hhand : ¬ (s.hw.i_cmd_frontend.state_q = .WaitingID
        ∧ cmd_resp_valid cluster_id_i C_CORE_ID i = true) := by
      rcases h.ids.issue (h.blocked.held he) he.answers with
        ⟨-, -, hhand, -⟩ | ⟨hpush', -, -, -, -, -, -⟩ | ⟨hpush', -, -, -, -, -⟩
      · exact hhand
      · exact absurd (hpush'.symm.trans hpush) (by decide)
      · exact absurd (hpush'.symm.trans hpush) (by decide)
    rw [if_neg hp, if_neg hno]
    exact ⟨fun _ => h.good_of_not_push he hpush hhand, fun _ => rfl⟩

/-- The low bits of a handle are the id. -/
theorem id_of_word : ∀ k : local_cmd_id_t, (CmdFrontend.id_word k).toNat % NUM_HPU_CMDS = k := by
  decide

/-- **Waiting on a handle that agrees.** -/
theorem waited (h : Handles s) (he : Env cluster_id_i C_CORE_ID s i) (hs : Agree s) :
    Waited cluster_id_i C_CORE_ID s i := by
  intro n handle hret ⟨hreq, hacc, hdata⟩ hgnt c hc hnum
  have hwait : CmdFrontend.wait_issued (s.cmd_in cluster_id_i C_CORE_ID i) = true := by
    rw [wait_issued_eq, hreq, hacc]
    rfl
  -- the handle is the id of command `n`
  rw [hs, List.getElem?_map, Option.map_eq_some_iff] at hret
  obtain ⟨k, hk, hword⟩ := hret
  have hidx : CmdFrontend.wt_cmd_idx (s.cmd_in cluster_id_i C_CORE_ID i) = k := by
    apply Fin.ext
    rw [← id_of_word k, hword, ← hdata]
    rfl
  -- a wait pushes nothing, so what is unanswered after the cycle was so before
  have hpush : s.pushes cluster_id_i C_CORE_ID i = false :=
    CmdFrontend.not_push_of_not_issued (CmdFrontend.wait_not_issue hwait)
  have hold : c ∈ s.book.rest (s.cmd_in cluster_id_i C_CORE_ID i) :=
    (mem_step_unanswered hc).resolve_right fun hnew => absurd (hnew.1.symm.trans hpush) (by decide)
  have hid := h.nums c ((CmdFrontend.rest_sublist _ _).subset hold)
  rw [hnum, hk] at hid
  have hd : CmdFrontend.state_d s.hw.i_cmd_frontend (s.cmd_in cluster_id_i C_CORE_ID i)
      = .Ready := by
    rw [gnt_cmd (type_of_wait hacc), CmdFrontend.gnt_o, Bool.and_eq_true, beq_iff_eq] at hgnt
    exact hgnt.2
  refine h.ids.wait_granted (h.blocked.held he) he.answers hwait (fun hq => ?_) hd c hold ?_
  · obtain ⟨a, ha, -, hwt⟩ := h.blocked.wait hq
    apply Fin.ext
    rw [← hwt, ← (he.hold a ha).2]
    rfl
  · rw [hidx]
    exact (Option.some.inj hid).symm

end Handles

theorem handles_init : Handles init where
  toInv := inv_init
  fresh := fun _ a ha => absurd ha (by simp [init])
  waiting := fun hc => absurd hc (by decide)
  disabled := fun hc => absurd hc (by decide)
  nums := fun c hc => absurd hc List.not_mem_nil

/-! ## Whole runs -/

/-- **Handle agreement.** In a run, every granted load returns the id of the command it
pushed, and every wait on a handle comes after the response to that command, if and only
if every load that had to wait gets the lowest id that was not in use when it was raised. -/
theorem handles_agree_iff
    (ha : Sync.Allowed (step cluster_id_i C_CORE_ID) (Env cluster_id_i C_CORE_ID) init is) :
    (Sync.Always (step cluster_id_i C_CORE_ID) Agree init is
        ∧ Sync.Allowed (step cluster_id_i C_CORE_ID) (Waited cluster_id_i C_CORE_ID) init is)
      ↔ Sync.Allowed (step cluster_id_i C_CORE_ID) (Good cluster_id_i C_CORE_ID) init is := by
  have hiff := Sync.always_iff (I := Handles) (fun s i hi he _ => hi.step he)
    (fun s i hi he hs => hi.agree_step_iff he hs) handles_init rfl ha
  rw [← hiff]
  constructor
  · exact fun h => h.1
  · intro hal
    refine ⟨hal, ?_⟩
    exact hal.allowed (I := Handles) (fun s i hi he => hi.step he)
      (fun s i hi hs he => hi.waited he hs) handles_init ha

/-! Four commands are in flight when a fifth load is raised, and the first response is for
the command with id 0. The load returns 3, the id of another command. -/

def demo_issues (resp : local_cmd_id_t) : List Input :=
  demo_boot ++ [demo_cycle issue_load false none, demo_cycle issue_load false none,
    demo_cycle issue_load false none, demo_cycle issue_load false none,
    demo_cycle issue_load false none, demo_cycle issue_load false (some resp)]

theorem handles_agree_iff_demo :
    Sync.Always (step 0 0) Agree init (demo_issues 3)
      ∧ Sync.Allowed (step 0 0) (Waited 0 0) init (demo_issues 3) :=
  (handles_agree_iff (by decide +kernel)).mpr (by decide +kernel)

theorem wrong_handle :
    ¬ ∀ cluster_id_i C_CORE_ID is,
      Sync.Allowed (step cluster_id_i C_CORE_ID) (Env cluster_id_i C_CORE_ID) init is →
        Sync.Always (step cluster_id_i C_CORE_ID) Agree init is
          ∧ Sync.Allowed (step cluster_id_i C_CORE_ID) (Waited cluster_id_i C_CORE_ID) init is := by
  intro hall
  have hlast := (hall 0 0 (demo_issues 0) (by decide +kernel)).1.last
  revert hlast
  decide +kernel

end Pspin.HpuDriver.Sys
