/-
The ids of `cmd_frontend`.

A `Book` records the commands that were pushed and are not answered: those still in the
buffer, and those that left it. A response may only name one that left. The invariant says
that no two of them share an id, and that the bits of `free_cmd_ids_q` are their ids.

What a cycle does to the ids is one of three things (`Issue`): nothing, assign the lowest
id not in use, or hand the id of a response to the load that waits for one.
-/
import Mathlib.Data.Fintype.Card
import Mathlib.Data.List.Nodup
import Pspin.CmdFrontend

set_option autoImplicit false

namespace Pspin.CmdFrontend

/-- A command that was pushed: its id, and what the caller wants to remember of it. -/
structure Ticket (α : Type*) where
  id : local_cmd_id_t
  tag : α

/-- The commands without answer, as the frontend's ids should have them. -/
structure Book (α : Type*) where
  /-- Commands that left the buffer and are not answered. -/
  out : List (Ticket α)
  buffered : List (Ticket α)

section Step

variable {α : Type*} (s : State) (i : Input)

/-- The oldest command leaves the buffer. -/
def popped : Bool := i.cmd_ready_i && cmd_valid_o s

/-- All commands without answer, the oldest first. -/
def Book.unanswered (b : Book α) : List (Ticket α) := b.out ++ b.buffered

def Book.ids (b : Book α) : List local_cmd_id_t := b.unanswered.map (·.id)

/-- What is left after the response of this cycle. -/
def Book.kept (b : Book α) : List (Ticket α) :=
  if i.cmd_resp_valid_i then b.out.filter fun t => t.id != i.cmd_resp_id_i.local_cmd_id else b.out

/-- A clock edge: a command that is answered leaves, one that is pushed joins. -/
def Book.step (b : Book α) (tag : α) : Book α where
  out := b.kept i ++ if popped s i then b.buffered.take 1 else []
  buffered := (if popped s i then b.buffered.tail else b.buffered)
    ++ if cmd_buff_push s i then [⟨local_cmd_id_d s i, tag⟩] else []

/-- A response names a command that left the buffer and is not answered. -/
def Book.Answers (b : Book α) : Prop :=
  i.cmd_resp_valid_i = true → i.cmd_resp_id_i.local_cmd_id ∈ b.out.map (·.id)

instance (b : Book α) : Decidable (b.Answers i) := inferInstanceAs (Decidable (_ → _))

/-- The core holds an access that is not granted. -/
structure Held : Prop where
  issue : s.state_q = .Disabled ∨ s.state_q = .WaitingID → cmd_issued i = true
  wait : s.state_q = .Waiting → wait_issued i = true

end Step

variable {α : Type*} {s : State} {i : Input} {b : Book α} {tag : α}

/-! ## Ids not in use -/

/-- The bits are inverted for the search. -/
theorem unused_ids_eq (ids : local_cmd_id_t → Bool) (k : local_cmd_id_t) :
    unused_ids ids k = !ids k := dif_pos k.isLt

theorem none_unused_iff (ids : local_cmd_id_t → Bool) :
    Lzc.empty_o NUM_HPU_CMDS (unused_ids ids) = true ↔ ∀ k, ids k = true := by
  rw [Lzc.empty_o_iff]
  constructor
  · intro h k
    have hk := h k k.isLt
    rw [unused_ids_eq, Bool.not_eq_false'] at hk
    exact hk
  · intro h k hk
    have hb := unused_ids_eq ids ⟨k, hk⟩
    rw [h, Bool.not_true] at hb
    exact hb

theorem no_free_iff : no_free_cmd_ids s = true ↔ ∀ k, s.free_cmd_ids_q k = true :=
  none_unused_iff s.free_cmd_ids_q

theorem lowest_unused_spec {ids : local_cmd_id_t → Bool}
    (h : Lzc.empty_o NUM_HPU_CMDS (unused_ids ids) = false) : ids (lowest_unused ids) = false := by
  obtain ⟨-, hbit, -⟩ := Lzc.cnt_o_spec h
  have hb : unused_ids ids (lowest_unused ids) = true := hbit
  rw [unused_ids_eq, Bool.not_eq_true'] at hb
  exact hb

/-- With no id left the front-end shows the last one. -/
theorem lowest_unused_of_none {ids : local_cmd_id_t → Bool} (h : ∀ k, ids k = true) :
    lowest_unused ids = Fin.last (NUM_HPU_CMDS - 1) := by
  apply Fin.ext
  show Lzc.cnt_o NUM_HPU_CMDS (unused_ids ids) = _
  rw [Lzc.cnt_o, (none_unused_iff ids).mpr h]
  rfl

/-- The first id comes first. -/
theorem lowest_unused_eq_zero_iff {ids : local_cmd_id_t → Bool} :
    lowest_unused ids = 0 ↔ ids 0 = false := by
  -- with no identifier left the counter shows the last input, which is not 0
  by_cases he : Lzc.empty_o NUM_HPU_CMDS (unused_ids ids) = true
  · have hall := (none_unused_iff ids).mp he
    rw [lowest_unused_of_none hall, hall]
    decide
  · have he' := Bool.eq_false_of_not_eq_true he
    constructor
    · intro h0
      have hbit := lowest_unused_spec he'
      rw [h0] at hbit
      exact hbit
    · intro h0
      obtain ⟨-, -, hlow⟩ := Lzc.cnt_o_spec he'
      by_contra hne
      have hpos : 0 < Lzc.cnt_o NUM_HPU_CMDS (unused_ids ids) :=
        Nat.pos_of_ne_zero fun hc => hne (Fin.ext hc)
      have hbit := unused_ids_eq ids 0
      rw [h0] at hbit
      exact absurd ((hlow 0 hpos).symm.trans hbit) (by decide)

theorem no_pending_iff : no_pending_cmd_o s = true ↔ ∀ k, s.free_cmd_ids_q k = false := by
  simp [no_pending_cmd_o]

/-! ## Transitions -/

/-- A load of the issue register is up. -/
def Wants (s : State) (i : Input) : Prop :=
  (s.state_q = .Ready ∧ cmd_issued i = true) ∨ s.state_q = .Disabled

/-- Why the front-end goes to a state. -/
def Cause (s : State) (i : Input) : state_t → Prop
  | .Ready => True
  | .Disabled => Wants s i ∧ i.disabled_i = true
  | .WaitingID => (s.state_q = .WaitingID ∧ i.cmd_resp_valid_i = false)
    ∨ (Wants s i ∧ i.disabled_i = false ∧ no_free_cmd_ids s = true)
  | .WaitingBuffer => cmd_buff_full s = true
    ∧ (no_free_cmd_ids s = false ∨ i.cmd_resp_valid_i = true ∨ s.state_q = .WaitingBuffer)
  | .Waiting => wait_issued i = true ∨ s.state_q = .Waiting

/-- Why the frontend goes on to assign an id, or does not. -/
theorem cause_of_assign (hw : Wants s i) (hen : i.disabled_i = false)
    (hd : state_d s i = (assign s).1) : Cause s i (state_d s i) := by
  rw [hd]
  unfold assign
  split_ifs with hf hfull
  · exact Or.inr ⟨hw, hen, hf⟩
  · exact ⟨hfull, Or.inl (Bool.eq_false_of_not_eq_true hf)⟩
  · trivial

/-- What keeps a command of the state `Ready` waiting. -/
theorem cause_ready (hq : s.state_q = .Ready) : Cause s i (state_d s i) := by
  have hd : state_d s i = (if wait_issued i && !wt_cmd_finished s i then
      (.Waiting, (if cmd_issued i then (if i.disabled_i then (.Disabled, false) else assign s)
        else (.Ready, false)).2)
      else if cmd_issued i then (if i.disabled_i then (.Disabled, false) else assign s)
        else (.Ready, false) : state_t × Bool).1 := by
    rw [state_d, transition, hq]
  by_cases hwait : (wait_issued i && !wt_cmd_finished s i) = true
  · rw [if_pos hwait] at hd
    rw [hd]
    exact Or.inl (Bool.and_eq_true_iff.mp hwait).1
  · rw [if_neg hwait] at hd
    split_ifs at hd with hissue hdis
    · rw [hd]
      exact ⟨Or.inl ⟨hq, hissue⟩, hdis⟩
    · exact cause_of_assign (Or.inl ⟨hq, hissue⟩) (Bool.eq_false_of_not_eq_true hdis) hd
    · rw [hd]
      trivial

/-- **The transitions of the front-end.** -/
theorem cause (s : State) (i : Input) : Cause s i (state_d s i) := by
  -- only a full buffer, a missing identifier or a command waited for stop the machine
  cases hq : s.state_q with
  | Ready => exact cause_ready hq
  | Disabled =>
    by_cases hdis : i.disabled_i = true
    · have hd : state_d s i = .Disabled := by
        rw [state_d, transition, hq, hdis]
        rfl
      rw [hd]
      exact ⟨Or.inr hq, hdis⟩
    · have hdis' := Bool.eq_false_of_not_eq_true hdis
      apply cause_of_assign (Or.inr hq) hdis'
      rw [state_d, transition, hq, hdis']
      rfl
  | WaitingBuffer =>
    rw [state_d, transition, hq]
    by_cases hfull : cmd_buff_full s = true
    · rw [hfull]
      exact ⟨hfull, Or.inr (Or.inr hq)⟩
    · rw [Bool.eq_false_of_not_eq_true hfull]
      trivial
  | WaitingID =>
    rw [state_d, transition, hq]
    by_cases hr : i.cmd_resp_valid_i = true
    · rw [hr]
      by_cases hfull : cmd_buff_full s = true
      · rw [hfull]
        exact ⟨hfull, Or.inr (Or.inl hr)⟩
      · rw [Bool.eq_false_of_not_eq_true hfull]
        trivial
    · rw [Bool.eq_false_of_not_eq_true hr]
      exact Or.inl ⟨hq, Bool.eq_false_of_not_eq_true hr⟩
  | Waiting =>
    rw [state_d, transition, hq]
    cases i.cmd_resp_valid_i && i.cmd_resp_id_i.local_cmd_id == s.wt_cmd_idx_q
    · exact Or.inr hq
    · trivial

/-- The reason for the state that is reached. -/
theorem cause_of {q : state_t} (hd : state_d s i = q) : Cause s i q := hd ▸ cause s i

/-- Where an issue waits, one is up. -/
theorem issued_of_blocked (hh : Held s i) (hd : state_d s i = .Disabled ∨ state_d s i = .WaitingID) :
    cmd_issued i = true := by
  have hwant : Wants s i → cmd_issued i = true := by
    rintro (⟨-, hissue⟩ | hq)
    · exact hissue
    · exact hh.issue (Or.inl hq)
  rcases hd with hd | hd
  · exact hwant (cause_of hd).1
  · rcases cause_of hd with ⟨hq, -⟩ | ⟨hw, -⟩
    · exact hh.issue (Or.inr hq)
    · exact hwant hw

/-- Where a wait waits, one is up. -/
theorem wait_of_waiting (hh : Held s i) (hd : state_d s i = .Waiting) : wait_issued i = true := by
  rcases cause_of hd with hw | hq
  · exact hw
  · exact hh.wait hq

/-! ## The invariant -/

/-- The bits in use are the ids of the unanswered commands, which are all different. -/
structure Inv (s : State) (b : Book α) : Prop where
  fifo : FifoV3.Inv NUM_HPU_CMDS s.i_hpu_cmd_fifo
  buffered : (FifoV3.elems NUM_HPU_CMDS s.i_hpu_cmd_fifo).map (·.cmd_id.local_cmd_id)
    = b.buffered.map (·.id)
  nodup : b.ids.Nodup
  used : ∀ k, s.free_cmd_ids_q k = true ↔ k ∈ b.ids
  state : s.state_q ≠ .WaitingBuffer
  waiting : s.state_q = .WaitingID → 3 ≤ b.ids.length

/-- What a cycle does to the ids. -/
inductive Issue (s : State) (i : Input) : Prop
  | none (push : cmd_buff_push s i = false) (assign : assign_id s i = false)
      (hand : ¬ (s.state_q = .WaitingID ∧ i.cmd_resp_valid_i = true))
      (gnt : cmd_issued i = true → gnt_o s i = false)
  | assigned (push : cmd_buff_push s i = true) (assign : assign_id s i = true)
      (state : s.state_q = .Ready ∨ s.state_q = .Disabled) (enabled : i.disabled_i = false)
      (free : no_free_cmd_ids s = false) (issue : cmd_issued i = true) (gnt : gnt_o s i = true)
  | handed (push : cmd_buff_push s i = true) (assign : assign_id s i = false)
      (state : s.state_q = .WaitingID) (resp : i.cmd_resp_valid_i = true)
      (issue : cmd_issued i = true) (gnt : gnt_o s i = true)

/-- Commands that left the buffer come first. -/
theorem ids_eq (b : Book α) : b.ids = b.out.map (·.id) ++ b.buffered.map (·.id) := List.map_append

namespace Inv

/-- There are at most as many commands as ids, since they differ. -/
theorem length_le (h : Inv s b) : b.out.length + b.buffered.length ≤ NUM_HPU_CMDS := by
  have hle := h.nodup.length_le_card
  rw [ids_eq, List.length_append, List.length_map, List.length_map, Fintype.card_fin] at hle
  exact hle

/-- The buffer is full when it holds as many. -/
theorem full_iff (h : Inv s b) :
    cmd_buff_full s = true ↔ b.buffered.length = NUM_HPU_CMDS := by
  have hlen := congrArg List.length h.buffered
  rw [List.length_map, List.length_map] at hlen
  rw [cmd_buff_full, h.fifo.full_o_iff, hlen]

/-- No command is pending exactly when none is unanswered. -/
theorem no_pending_iff (h : Inv s b) : no_pending_cmd_o s = true ↔ b.unanswered = [] := by
  rw [CmdFrontend.no_pending_iff, ← List.map_eq_nil_iff (f := fun t : Ticket α => t.id)]
  constructor
  · intro hfree
    apply List.eq_nil_iff_forall_not_mem.mpr
    intro k hk
    have hused := (h.used k).mpr hk
    rw [hfree] at hused
    exact absurd hused Bool.false_ne_true
  · intro hnil k
    rw [Bool.eq_false_iff, Ne, h.used, Book.ids, hnil]
    exact List.not_mem_nil

/-- While an id is not in use there is room in the buffer. -/
theorem not_full_of_free (h : Inv s b) (hf : no_free_cmd_ids s = false) :
    cmd_buff_full s = false := by
  rw [Bool.eq_false_iff, Ne, h.full_iff]
  intro hlen
  have hunused : cmd_idx s ∉ b.ids := by
    rw [← h.used, cmd_idx, lowest_unused_spec hf]
    exact Bool.false_ne_true
  have hle := (List.nodup_cons.mpr ⟨hunused, h.nodup⟩).length_le_card
  rw [List.length_cons, ids_eq, List.length_append, List.length_map, List.length_map, hlen,
    Fintype.card_fin] at hle
  omega

/-- When a response arrives there is room in the buffer. -/
theorem not_full_of_answer (h : Inv s b) (ha : b.Answers i) (hr : i.cmd_resp_valid_i = true) :
    cmd_buff_full s = false := by
  rw [Bool.eq_false_iff, Ne, h.full_iff]
  intro hlen
  have hpos := List.length_pos_of_mem (ha hr)
  rw [List.length_map] at hpos
  have hle := h.length_le
  omega

/-- A command that can go ahead takes an id, or waits for one. -/
theorem assign_eq (h : Inv s b) : assign s
    = if no_free_cmd_ids s then (.WaitingID, false) else (.Ready, true) := by
  unfold assign
  split_ifs with hf hfull
  · rfl
  · rw [h.not_full_of_free (Bool.eq_false_of_not_eq_true hf)] at hfull
    exact absurd hfull Bool.false_ne_true
  · rfl

end Inv

/-! ## One cycle -/

/-- A command that is issued and ends in `Ready` is pushed and granted. -/
theorem push_of (hfull : cmd_buff_full s = false) (hissue : cmd_issued i = true)
    (hstate : state_d s i = .Ready) : cmd_buff_push s i = true ∧ gnt_o s i = true := by
  have hreq : i.req_i = true := by
    rw [cmd_issued, Bool.and_eq_true, Bool.and_eq_true] at hissue
    exact hissue.1.1
  rw [cmd_buff_push, gnt_o, hfull, hissue, hstate, hreq]
  exact ⟨rfl, rfl⟩

theorem not_push_of (hstate : state_d s i ≠ .Ready) :
    cmd_buff_push s i = false ∧ gnt_o s i = false := by
  have hbeq : (state_d s i == .Ready) = false := beq_eq_false_iff_ne.mpr hstate
  rw [cmd_buff_push, gnt_o, hbeq, Bool.and_false, Bool.and_false]
  exact ⟨rfl, rfl⟩

/-- An access that is no issue pushes nothing. -/
theorem not_push_of_not_issued (hissue : cmd_issued i = false) : cmd_buff_push s i = false := by
  rw [cmd_buff_push, hissue, Bool.and_false, Bool.false_and]

theorem wait_not_issue (hw : wait_issued i = true) : cmd_issued i = false := by
  rw [wait_issued, Bool.and_eq_true, Bool.not_eq_true'] at hw
  rw [cmd_issued, hw.2, Bool.and_false]

namespace Inv

/-- A load that can go ahead, seen from `Ready` or from `Disabled`. -/
theorem issue_of_assign (h : Inv s b) (hstate : s.state_q = .Ready ∨ s.state_q = .Disabled)
    (hissue : cmd_issued i = true) (hen : i.disabled_i = false)
    (htr : transition s i = assign s) : Issue s i := by
  have hd : state_d s i = (assign s).1 := congrArg Prod.fst htr
  have hid : assign_id s i = (assign s).2 := congrArg Prod.snd htr
  rw [h.assign_eq] at hd hid
  cases hf : no_free_cmd_ids s with
  | true =>
    rw [hf, if_pos rfl] at hd hid
    obtain ⟨hpush, hgnt⟩ := not_push_of (hd.trans_ne (by decide))
    refine .none hpush hid (fun hc => ?_) fun _ => hgnt
    rcases hstate with hq | hq
    · exact absurd (hq.symm.trans hc.1) (by decide)
    · exact absurd (hq.symm.trans hc.1) (by decide)
  | false =>
    rw [hf, if_neg Bool.false_ne_true] at hd hid
    obtain ⟨hpush, hgnt⟩ := push_of (h.not_full_of_free hf) hissue hd
    exact .assigned hpush hid hstate hen hf hissue hgnt

/-- A command that is issued in `Ready`. -/
theorem issue_ready (h : Inv s b) (hq : s.state_q = .Ready) : Issue s i := by
  have hhand : ¬ (s.state_q = .WaitingID ∧ i.cmd_resp_valid_i = true) := by
    rw [hq]
    exact fun hc => absurd hc.1 (by decide)
  cases hissue : cmd_issued i with
  | true =>
    -- one access is either an issue or a wait
    have hwait : wait_issued i = false := by
      by_contra hc
      rw [wait_not_issue (Bool.eq_true_of_not_eq_false hc)] at hissue
      exact absurd hissue Bool.false_ne_true
    cases hdis : i.disabled_i with
    | true =>
      have htr : transition s i = (.Disabled, false) := by
        rw [transition, hq, hissue, hdis, hwait]
        rfl
      have hd : state_d s i = .Disabled := congrArg Prod.fst htr
      obtain ⟨hpush, hgnt⟩ := not_push_of (hd.trans_ne (by decide))
      exact .none hpush (congrArg Prod.snd htr) hhand fun _ => hgnt
    | false =>
      refine h.issue_of_assign (Or.inl hq) hissue hdis ?_
      rw [transition, hq, hissue, hdis, hwait]
      rfl
  | false =>
    have hid : assign_id s i = false := by
      rw [assign_id, transition, hq, hissue]
      show (if wait_issued i && !wt_cmd_finished s i then (state_t.Waiting, false)
        else (state_t.Ready, false)).2 = false
      split_ifs <;> rfl
    refine .none (not_push_of_not_issued hissue) hid hhand fun hc => ?_
    rw [hissue] at hc
    exact absurd hc Bool.false_ne_true

/-- One that is issued as the frontend is enabled again. -/
theorem issue_disabled (h : Inv s b) (hh : Held s i) (hq : s.state_q = .Disabled) : Issue s i := by
  have hissue := hh.issue (Or.inl hq)
  cases hdis : i.disabled_i with
  | true =>
    have htr : transition s i = (.Disabled, false) := by
      rw [transition, hq, hdis]
      rfl
    have hd : state_d s i = .Disabled := congrArg Prod.fst htr
    obtain ⟨hpush, hgnt⟩ := not_push_of (hd.trans_ne (by decide))
    refine .none hpush (congrArg Prod.snd htr) (fun hc => ?_) fun _ => hgnt
    exact absurd (hq.symm.trans hc.1) (by decide)
  | false =>
    refine h.issue_of_assign (Or.inr hq) hissue hdis ?_
    rw [transition, hq, hdis]
    rfl

/-- A load that waits for an id takes the one a response brings. -/
theorem issue_waiting_id (h : Inv s b) (hh : Held s i) (ha : b.Answers i)
    (hq : s.state_q = .WaitingID) : Issue s i := by
  have hissue := hh.issue (Or.inr hq)
  have hid : assign_id s i = false := by
    rw [assign_id, transition, hq]
    split_ifs <;> rfl
  cases hr : i.cmd_resp_valid_i with
  | true =>
    have hfull := h.not_full_of_answer ha hr
    have hd : state_d s i = .Ready := by
      rw [state_d, transition, hq, hr, hfull]
      rfl
    obtain ⟨hpush, hgnt⟩ := push_of hfull hissue hd
    exact .handed hpush hid hq hr hissue hgnt
  | false =>
    have hd : state_d s i = .WaitingID := by
      rw [state_d, transition, hq, hr]
      rfl
    obtain ⟨hpush, hgnt⟩ := not_push_of (hd.trans_ne (by decide))
    refine .none hpush hid (fun hc => ?_) fun _ => hgnt
    rw [hr] at hc
    exact absurd hc.2 Bool.false_ne_true

/-- An access that waits for a command is no issue. -/
theorem issue_waiting (hh : Held s i) (hq : s.state_q = .Waiting) : Issue s i := by
  have hissue := wait_not_issue (hh.wait hq)
  have hid : assign_id s i = false := by
    rw [assign_id, transition, hq]
  refine .none (not_push_of_not_issued hissue) hid (fun hc => ?_) fun hc => ?_
  · exact absurd (hq.symm.trans hc.1) (by decide)
  · rw [hissue] at hc
    exact absurd hc Bool.false_ne_true

/-- **The three kinds of cycles.** -/
theorem issue (h : Inv s b) (hh : Held s i) (ha : b.Answers i) : Issue s i := by
  cases hq : s.state_q with
  | Ready => exact h.issue_ready hq
  | Disabled => exact h.issue_disabled hh hq
  | WaitingBuffer => exact absurd hq h.state
  | WaitingID => exact h.issue_waiting_id hh ha hq
  | Waiting => exact issue_waiting hh hq

end Inv

/-! ## The book -/

/-- The commands of the book that this cycle does not answer. -/
def Book.rest (b : Book α) (i : Input) : List (Ticket α) := b.kept i ++ b.buffered

/-- Commands that leave the buffer stay in the book; a pushed one comes last. -/
theorem unanswered_step : (b.step s i tag).unanswered
    = b.rest i ++ if cmd_buff_push s i then [⟨local_cmd_id_d s i, tag⟩] else [] := by
  have hmove : (if popped s i then b.buffered.take 1 else [])
      ++ (if popped s i then b.buffered.tail else b.buffered) = b.buffered := by
    split_ifs
    · rw [← List.drop_one, List.take_append_drop]
    · rfl
  rw [Book.unanswered, Book.step, Book.rest]
  simp only []
  rw [List.append_assoc, ← List.append_assoc (if popped s i then _ else _), hmove,
    List.append_assoc]

theorem rest_sublist (b : Book α) (i : Input) : (b.rest i).Sublist b.unanswered := by
  apply List.Sublist.append _ (List.Sublist.refl _)
  unfold Book.kept
  split_ifs
  · exact List.filter_sublist
  · exact List.Sublist.refl _

/-- The commands that are not answered in this cycle. -/
theorem mem_kept {t : Ticket α} : t ∈ b.kept i
    ↔ t ∈ b.out ∧ ¬ (i.cmd_resp_valid_i = true ∧ i.cmd_resp_id_i.local_cmd_id = t.id) := by
  unfold Book.kept
  split_ifs with hr
  · rw [List.mem_filter, bne_iff_ne, hr]
    constructor
    · exact fun ⟨hm, hne⟩ => ⟨hm, fun hc => hne hc.2.symm⟩
    · exact fun ⟨hm, hne⟩ => ⟨hm, fun hc => hne ⟨rfl, hc.symm⟩⟩
  · exact ⟨fun hm => ⟨hm, fun hc => hr hc.1⟩, fun hm => hm.1⟩

namespace Inv

/-- A response takes exactly its id out of the book. -/
theorem mem_rest (h : Inv s b) (ha : b.Answers i) {t : Ticket α} : t ∈ b.rest i
    ↔ t ∈ b.unanswered ∧ ¬ (i.cmd_resp_valid_i = true ∧ i.cmd_resp_id_i.local_cmd_id = t.id) := by
  rw [Book.rest, Book.unanswered, List.mem_append, List.mem_append, mem_kept]
  constructor
  · rintro (⟨hm, hne⟩ | hm)
    · exact ⟨Or.inl hm, hne⟩
    · refine ⟨Or.inr hm, fun hc => ?_⟩
      -- the answered command left the buffer, so its id is in no other command
      have hout := ha hc.1
      have hnd := h.nodup
      rw [ids_eq, List.nodup_append] at hnd
      exact hnd.2.2 _ hout _ (List.mem_map_of_mem hm) hc.2
  · rintro ⟨hm | hm, hne⟩
    · exact Or.inl ⟨hm, hne⟩
    · exact Or.inr hm

/-- Their ids: all but the one of the response, which only one command has. -/
theorem mem_rest_ids (h : Inv s b) (ha : b.Answers i) {k : local_cmd_id_t} :
    k ∈ (b.rest i).map (·.id)
      ↔ k ∈ b.ids ∧ ¬ (i.cmd_resp_valid_i = true ∧ i.cmd_resp_id_i.local_cmd_id = k) := by
  rw [Book.ids, List.mem_map, List.mem_map]
  constructor
  · rintro ⟨t, ht, rfl⟩
    obtain ⟨hm, hne⟩ := (h.mem_rest ha).mp ht
    exact ⟨⟨t, hm, rfl⟩, hne⟩
  · rintro ⟨⟨t, ht, rfl⟩, hne⟩
    exact ⟨t, (h.mem_rest ha).mpr ⟨ht, hne⟩, rfl⟩

theorem rest_nodup (h : Inv s b) (i : Input) : ((b.rest i).map (·.id)).Nodup :=
  h.nodup.sublist ((rest_sublist b i).map _)

/-- A command that is pushed comes last. -/
theorem ids_step : (b.step s i tag).ids = (b.rest i).map (·.id)
    ++ if cmd_buff_push s i then [local_cmd_id_d s i] else [] := by
  rw [Book.ids, unanswered_step, List.map_append]
  split_ifs <;> rfl

/-- A pushed command has an id that no other unanswered command has. -/
theorem pushed_id (h : Inv s b) (hh : Held s i) (ha : b.Answers i)
    (hp : cmd_buff_push s i = true) : local_cmd_id_d s i ∉ (b.rest i).map (·.id) := by
  rw [h.mem_rest_ids ha]
  rintro ⟨hmem, hne⟩
  rcases h.issue hh ha with ⟨hpush, -, -, -⟩ | ⟨-, hassign, hstate, -, hfree, -, -⟩ | ⟨-, -, hq, hr, -, -⟩
  · exact absurd (hp.symm.trans hpush) (by decide)
  · have hid : local_cmd_id_d s i = cmd_idx s := by
      rw [local_cmd_id_d, hassign]
      rcases hstate with hq | hq <;> rw [hq] <;> rfl
    rw [hid, ← h.used, cmd_idx, lowest_unused_spec hfree] at hmem
    exact absurd hmem Bool.false_ne_true
  · apply hne
    rw [local_cmd_id_d, hq, hr]
    exact ⟨rfl, rfl⟩

/-- Its id is one that no other command has. -/
theorem nodup_step (h : Inv s b) (hh : Held s i) (ha : b.Answers i) :
    (b.step s i tag).ids.Nodup := by
  rw [ids_step]
  split_ifs with hp
  · rw [List.nodup_append]
    refine ⟨h.rest_nodup i, List.nodup_singleton _, ?_⟩
    rintro k hk _ hk' rfl
    rw [List.mem_singleton] at hk'
    rw [hk'] at hk
    exact h.pushed_id hh ha hp hk
  · rw [List.append_nil]
    exact h.rest_nodup i

/-- Which ids are in use after the cycle. -/
theorem mem_ids_step (h : Inv s b) (ha : b.Answers i) {k : local_cmd_id_t} :
    k ∈ (b.step s i tag).ids
      ↔ (s.free_cmd_ids_q k = true
          ∧ ¬ (i.cmd_resp_valid_i = true ∧ i.cmd_resp_id_i.local_cmd_id = k))
        ∨ (cmd_buff_push s i = true ∧ local_cmd_id_d s i = k) := by
  rw [ids_step, List.mem_append, h.mem_rest_ids ha, h.used]
  apply or_congr_right
  split_ifs with hp
  · rw [List.mem_singleton, eq_comm]
    exact ⟨fun hk => ⟨hp, hk⟩, fun hk => hk.2⟩
  · exact ⟨fun hk => absurd hk List.not_mem_nil, fun hk => absurd hk.1 hp⟩

/-- The bits of the next cycle, outside `WaitingID`. -/
theorem free_cmd_ids_d_of_ne (hq : s.state_q ≠ .WaitingID) (k : local_cmd_id_t) :
    free_cmd_ids_d s i k = true
      ↔ ¬ (i.cmd_resp_valid_i = true ∧ i.cmd_resp_id_i.local_cmd_id = k)
        ∧ ((assign_id s i = true ∧ cmd_idx s = k) ∨ s.free_cmd_ids_q k = true) := by
  have hne : (s.state_q != .WaitingID) = true := bne_iff_ne.mpr hq
  unfold free_cmd_ids_d
  rw [hne, Bool.true_and]
  split_ifs with hr hid
  · rw [Bool.and_eq_true, beq_iff_eq] at hr
    exact ⟨fun hc => absurd hc (by simp), fun hc => absurd hr hc.1⟩
  · rw [Bool.and_eq_true, beq_iff_eq] at hr hid
    exact ⟨fun _ => ⟨hr, Or.inl hid⟩, fun _ => rfl⟩
  · rw [Bool.and_eq_true, beq_iff_eq] at hr hid
    exact ⟨fun hk => ⟨hr, Or.inr hk⟩, fun hk => hk.2.resolve_left hid⟩

/-- The bits of the frontend say the same. -/
theorem used_step (h : Inv s b) (hh : Held s i) (ha : b.Answers i) (k : local_cmd_id_t) :
    free_cmd_ids_d s i k = true ↔ k ∈ (b.step s i tag).ids := by
  rw [h.mem_ids_step ha]
  rcases h.issue hh ha with ⟨hpush, hassign, hhand, -⟩
    | ⟨hpush, hassign, hstate, -, hfree, -, -⟩ | ⟨hpush, hassign, hq, hr, -, -⟩
  · -- only the response
    by_cases hq : s.state_q = .WaitingID
    · have hr : ¬ i.cmd_resp_valid_i = true := fun hc => hhand ⟨hq, hc⟩
      unfold free_cmd_ids_d
      rw [hassign, hpush, Bool.eq_false_of_not_eq_true hr]
      simp
    · rw [free_cmd_ids_d_of_ne hq, hassign, hpush]
      simp [and_comm]
  · -- the lowest id not in use, besides the response
    have hq : s.state_q ≠ .WaitingID := by
      rcases hstate with hq | hq <;> rw [hq] <;> decide
    have hid : local_cmd_id_d s i = cmd_idx s := by
      rw [local_cmd_id_d, hassign]
      rcases hstate with hq | hq <;> rw [hq] <;> rfl
    have hne : ¬ (i.cmd_resp_valid_i = true ∧ i.cmd_resp_id_i.local_cmd_id = cmd_idx s) := by
      rintro ⟨hr, heq⟩
      have hin := (h.used (cmd_idx s)).mpr (by
        rw [← heq, ids_eq]
        exact List.mem_append_left _ (ha hr))
      rw [cmd_idx, lowest_unused_spec hfree] at hin
      exact absurd hin Bool.false_ne_true
    rw [free_cmd_ids_d_of_ne hq, hassign, hpush, hid]
    constructor
    · rintro ⟨hresp, hk | hk⟩
      · exact Or.inr ⟨rfl, hk.2⟩
      · exact Or.inl ⟨hk, hresp⟩
    · rintro (⟨hk, hresp⟩ | ⟨-, rfl⟩)
      · exact ⟨hresp, Or.inr hk⟩
      · exact ⟨hne, Or.inl ⟨rfl, rfl⟩⟩
  · -- the id of the response passes on, its bit stays
    have hid : local_cmd_id_d s i = i.cmd_resp_id_i.local_cmd_id := by
      rw [local_cmd_id_d, hq, hr]
      rfl
    have hkeep : free_cmd_ids_d s i k = s.free_cmd_ids_q k := by
      unfold free_cmd_ids_d
      rw [hq, hassign]
      rfl
    rw [hkeep, hpush, hid]
    constructor
    · intro hk
      by_cases heq : i.cmd_resp_id_i.local_cmd_id = k
      · exact Or.inr ⟨rfl, heq⟩
      · exact Or.inl ⟨hk, fun hc => heq hc.2⟩
    · rintro (⟨hk, -⟩ | ⟨-, rfl⟩)
      · exact hk
      · rw [h.used, ids_eq]
        exact List.mem_append_left _ (ha hr)

/-- A list of ids that lacks one at most is long. -/
theorem three_le_of_mem {l : List local_cmd_id_t} {r : local_cmd_id_t}
    (h : ∀ k, k = r ∨ k ∈ l) : 3 ≤ l.length := by
  have hsub : List.finRange NUM_HPU_CMDS ⊆ r :: l := fun k _ => List.mem_cons.mpr (h k)
  have hle := ((List.nodup_finRange NUM_HPU_CMDS).subperm hsub).length_le
  rw [List.length_finRange, List.length_cons] at hle
  exact Nat.le_of_succ_le_succ hle

/-- The front-end waits for an id only while at least three commands are unanswered. -/
theorem waiting_step (h : Inv s b) (ha : b.Answers i) (hd : state_d s i = .WaitingID) :
    3 ≤ (b.step s i tag).ids.length := by
  have hpush := (not_push_of (s := s) (i := i) (hd.trans_ne (by decide))).1
  have hids : (b.step s i tag).ids = (b.rest i).map (·.id) := by
    rw [ids_step, hpush]
    exact List.append_nil _
  rw [hids]
  rcases cause_of hd with ⟨hq, hr⟩ | ⟨-, -, hfull⟩
  · have hrest : b.rest i = b.unanswered := by
      rw [Book.rest, Book.kept, hr]
      rfl
    rw [hrest]
    exact h.waiting hq
  · -- all ids are in use, the response takes one
    apply three_le_of_mem (r := i.cmd_resp_id_i.local_cmd_id)
    intro k
    rw [h.mem_rest_ids ha, ← h.used]
    by_cases hk : k = i.cmd_resp_id_i.local_cmd_id
    · exact Or.inl hk
    · exact Or.inr ⟨no_free_iff.mp hfull k, fun hc => hk hc.2.symm⟩

/-- The frontend never waits for its buffer: there is a place for every id. -/
theorem state_step (h : Inv s b) (ha : b.Answers i) : state_d s i ≠ .WaitingBuffer := by
  intro hd
  obtain ⟨hfull, hf | hr | hq⟩ := cause_of hd
  · rw [h.not_full_of_free hf] at hfull
    exact absurd hfull Bool.false_ne_true
  · rw [h.not_full_of_answer ha hr] at hfull
    exact absurd hfull Bool.false_ne_true
  · exact h.state hq

/-- The buffer after a cycle. -/
theorem elems_step (h : Inv s b) (cluster_id_i : BitVec 6) (C_CORE_ID : ℕ) :
    FifoV3.elems NUM_HPU_CMDS (CmdFrontend.step cluster_id_i C_CORE_ID s i).i_hpu_cmd_fifo
      = (if popped s i then (FifoV3.elems NUM_HPU_CMDS s.i_hpu_cmd_fifo).tail
          else FifoV3.elems NUM_HPU_CMDS s.i_hpu_cmd_fifo)
        ++ if cmd_buff_push s i then [cmd_d cluster_id_i C_CORE_ID s i] else [] := by
  have hpush : cmd_buff_push s i = true → cmd_buff_full s = false := by
    intro hp
    rw [cmd_buff_push, Bool.and_eq_true, Bool.and_eq_true, Bool.not_eq_true'] at hp
    exact hp.1.1
  have hpop : popped s i = true → FifoV3.empty_o s.i_hpu_cmd_fifo = false := by
    intro hp
    rw [popped, Bool.and_eq_true, cmd_valid_o, Bool.not_eq_true'] at hp
    exact hp.2
  exact h.fifo.elems_step_of (i := fifo_input cluster_id_i C_CORE_ID s i) hpush hpop

/-- The book follows the buffer. -/
theorem buffered_step (h : Inv s b) {cluster_id_i : BitVec 6} {C_CORE_ID : ℕ} :
    (FifoV3.elems NUM_HPU_CMDS (CmdFrontend.step cluster_id_i C_CORE_ID s i).i_hpu_cmd_fifo).map
        (·.cmd_id.local_cmd_id) = (b.step s i tag).buffered.map (·.id) := by
  rw [h.elems_step, Book.step, List.map_append, List.map_append]
  congr 1
  · split_ifs
    · rw [List.map_tail, List.map_tail, h.buffered]
    · exact h.buffered
  · split_ifs <;> rfl

/-- **A cycle of `cmd_frontend`.** -/
theorem step (h : Inv s b) (hh : Held s i) (ha : b.Answers i) {cluster_id_i : BitVec 6}
    {C_CORE_ID : ℕ} (tag : α) :
    Inv (CmdFrontend.step cluster_id_i C_CORE_ID s i) (b.step s i tag) where
  fifo := h.fifo.step _
  buffered := h.buffered_step
  nodup := h.nodup_step hh ha
  used := h.used_step hh ha
  state := h.state_step ha
  waiting := h.waiting_step ha

end Inv

/-! ## Waiting for a command -/

/-- A wait that goes through finds its id not in use, or the response in this cycle. -/
theorem finished_of_ready (hw : wait_issued i = true) (hq : s.state_q = .Ready)
    (hd : state_d s i = .Ready) : s.free_cmd_ids_q (wt_cmd_idx i) = false
      ∨ (i.cmd_resp_valid_i = true ∧ i.cmd_resp_id_i.local_cmd_id = wt_cmd_idx i) := by
  have hfin : wt_cmd_finished s i = true := by
    by_contra hno
    have hwaits : state_d s i = .Waiting := by
      rw [state_d, transition, hq, hw, Bool.eq_false_of_not_eq_true hno]
      rfl
    exact absurd (hwaits.symm.trans hd) (by decide)
  have hidx : wt_cmd_idx_d s i = wt_cmd_idx i := by
    rw [wt_cmd_idx_d, hw]
    rfl
  rw [wt_cmd_finished, hidx, Bool.or_eq_true, Bool.not_eq_true', Bool.and_eq_true, beq_iff_eq] at hfin
  exact hfin

/-- **A granted wait comes after the response.** No command with the id waited for is
unanswered after the cycle. -/
theorem Inv.wait_granted (h : Inv s b) (hh : Held s i) (ha : b.Answers i)
    (hw : wait_issued i = true) (hidx : s.state_q = .Waiting → s.wt_cmd_idx_q = wt_cmd_idx i)
    (hd : state_d s i = .Ready) : ∀ t ∈ b.rest i, t.id ≠ wt_cmd_idx i := by
  intro t ht heq
  obtain ⟨hmem, hne⟩ := (h.mem_rest ha).mp ht
  have hused : s.free_cmd_ids_q (wt_cmd_idx i) = true := by
    rw [h.used, ← heq]
    exact List.mem_map_of_mem hmem
  have hblocked : s.state_q = .Disabled ∨ s.state_q = .WaitingID → False := by
    intro hq
    have hissue := hh.issue hq
    rw [wait_not_issue hw] at hissue
    exact absurd hissue Bool.false_ne_true
  -- the wait ends on a free identifier or on its response, which leaves the rest this cycle
  cases hq : s.state_q with
  | Ready =>
    rcases finished_of_ready hw hq hd with hfree | ⟨hr, hid⟩
    · exact absurd (hused.symm.trans hfree) (by decide)
    · exact hne ⟨hr, hid.trans heq.symm⟩
  | Disabled => exact hblocked (Or.inl hq)
  | WaitingBuffer => exact h.state hq
  | WaitingID => exact hblocked (Or.inr hq)
  | Waiting =>
    have hresp : (i.cmd_resp_valid_i && i.cmd_resp_id_i.local_cmd_id == s.wt_cmd_idx_q) = true := by
      by_contra hno
      have hwaits : state_d s i = .Waiting := by
        rw [state_d, transition, hq, Bool.eq_false_of_not_eq_true hno]
        rfl
      exact absurd (hwaits.symm.trans hd) (by decide)
    rw [Bool.and_eq_true, beq_iff_eq, hidx hq] at hresp
    exact hne ⟨hresp.1, hresp.2.trans heq.symm⟩

theorem inv_reset : Inv reset (⟨[], []⟩ : Book α) where
  fifo := FifoV3.inv_reset _ (by decide) (by decide)
  buffered := rfl
  nodup := List.nodup_nil
  used := fun _ => ⟨fun hc => absurd hc Bool.false_ne_true, fun hc => absurd hc List.not_mem_nil⟩
  state := by decide
  waiting := fun hc => absurd hc (by decide)

end Pspin.CmdFrontend
