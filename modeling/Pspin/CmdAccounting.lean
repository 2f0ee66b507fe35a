/-
Commands of `cmd_frontend`, over whole runs.

`Sys` runs the front-end with a book of the commands that are not answered and a record of
the granted stores. What a command should look like when it is issued is read off the
stores alone (`command`): each field as the last store to its register left it.

The core holds an access until it is granted, as its load-store unit does, and a response
names a command that left the buffer and is not answered. Everything else may happen in
any cycle: `disabled_i` and the readiness of the other side are arbitrary.
-/
import Pspin.CmdIds
import Pspin.Sync

set_option autoImplicit false

namespace Pspin.CmdFrontend

/-! ## What the core wrote -/

/-- A granted store: the index of its register, and the word. -/
abbrev store_t := ℕ × BitVec 32

/-- The last word stored at a register. -/
def last_word (stores : List store_t) (idx : ℕ) : Option (BitVec 32) :=
  (stores.reverse.find? fun st => st.1 == idx).map Prod.snd

/-- The type code of a command definition. -/
def type_code (word : BitVec 32) : ℕ := word.toNat / 2 % 4

/-- The last type the core wrote. A definition with the code 3 names none. -/
def last_type (stores : List store_t) : Option ℕ :=
  (stores.reverse.find? fun st => st.1 == 3 && type_code st.2 != 3).map fun st => type_code st.2

/-- The command the core has defined, after reset if it wrote nothing. -/
def command (stores : List store_t) (id : pspin_cmd_id_t) : pspin_cmd_t where
  intf_id :=
    match last_type stores with
    | none => 0
    | some 1 => CMD_NIC_OUTBOUND_ID
    | some 2 => CMD_HOSTDIRECT_ID
    | some _ => CMD_EDMA_ID
  cmd_id := id
  cmd_type :=
    match last_type stores with
    | some 1 => .NICSend
    | some 2 => .HostDirect
    | _ => .HostMemCpy
  descr := ⟨fun w => if w.val ≤ 6 then (last_word stores (w.val + 4)).getD 0 else 0⟩
  generate_event := ((last_word stores 3).map (·.getLsbD 0)).getD false

section Stores

variable {stores : List store_t} {id : pspin_cmd_id_t} {a : ℕ} {word : BitVec 32}

/-- A store replaces the last word of its register. -/
theorem last_word_concat (idx : ℕ) : last_word (stores ++ [(a, word)]) idx
    = if a = idx then some word else last_word stores idx := by
  unfold last_word
  rw [List.reverse_append, List.reverse_singleton, List.singleton_append, List.find?_cons]
  by_cases h : a = idx
  · rw [if_pos h, h, BEq.rfl]
    rfl
  · have hne : (a == idx) = false := beq_eq_false_iff_ne.mpr h
    rw [if_neg h, hne]

/-- A store to the type register counts only if it names a unit. -/
theorem last_type_concat : last_type (stores ++ [(a, word)])
    = if a = 3 ∧ type_code word ≠ 3 then some (type_code word) else last_type stores := by
  unfold last_type
  rw [List.reverse_append, List.reverse_singleton, List.singleton_append, List.find?_cons]
  by_cases h : a = 3 ∧ type_code word ≠ 3
  · have htrue : (a == 3 && type_code word != 3) = true := by
      rw [Bool.and_eq_true, beq_iff_eq, bne_iff_ne]
      exact h
    rw [if_pos h, htrue]
    rfl
  · have hfalse : (a == 3 && type_code word != 3) = false := by
      rw [Bool.eq_false_iff, Ne, Bool.and_eq_true, beq_iff_eq, bne_iff_ne]
      exact h
    rw [if_neg h, hfalse]

/-- A store outside the command registers defines nothing. -/
theorem command_other (h : a < 3 ∨ 10 < a) : command (stores ++ [(a, word)]) id
    = command stores id := by
  have htype : last_type (stores ++ [(a, word)]) = last_type stores := by
    rw [last_type_concat, if_neg fun hc => by omega]
  have hevent : last_word (stores ++ [(a, word)]) 3 = last_word stores 3 := by
    rw [last_word_concat, if_neg (by omega)]
  have hwords : (fun w : Fin 19 =>
      if w.val ≤ 6 then (last_word (stores ++ [(a, word)]) (w.val + 4)).getD 0 else 0)
      = fun w : Fin 19 => if w.val ≤ 6 then (last_word stores (w.val + 4)).getD 0 else 0 := by
    funext w
    split_ifs with hw
    · rw [last_word_concat, if_neg (by omega)]
    · rfl
  rw [command, htype, hevent, hwords]
  rfl

/-- A store to a word of the descriptor. -/
theorem command_word (h4 : 4 ≤ a) (h10 : a ≤ 10) : command (stores ++ [(a, word)]) id
    = { command stores id with
        descr := ⟨fun w => if w.val = a - 4 then word
          else (command stores id).descr.words w⟩ } := by
  have htype : last_type (stores ++ [(a, word)]) = last_type stores := by
    rw [last_type_concat, if_neg fun hc => by omega]
  have hevent : last_word (stores ++ [(a, word)]) 3 = last_word stores 3 := by
    rw [last_word_concat, if_neg (by omega)]
  have hwords : (fun w : Fin 19 =>
      if w.val ≤ 6 then (last_word (stores ++ [(a, word)]) (w.val + 4)).getD 0 else 0)
      = fun w : Fin 19 => if w.val = a - 4 then word else (command stores id).descr.words w := by
    funext w
    have hold : (command stores id).descr.words w
        = if w.val ≤ 6 then (last_word stores (w.val + 4)).getD 0 else 0 := rfl
    rw [hold, last_word_concat]
    -- the words of the command start at register 4
    by_cases hw : w.val = a - 4
    · rw [if_pos (by omega), if_pos (by omega), if_pos hw]
      rfl
    · rw [if_neg (by omega : ¬ a = w.val + 4), if_neg hw]
  rw [command, htype, hevent, hwords]
  rfl

/-- A store of the type and the event flag. -/
theorem command_def (stores : List store_t) (id : pspin_cmd_id_t) (word : BitVec 32) :
    command (stores ++ [(3, word)]) id
      = (let flagged := { command stores id with generate_event := word.getLsbD 0 }
        match type_code word with
        | 0 => { flagged with cmd_type := .HostMemCpy, intf_id := CMD_EDMA_ID }
        | 1 => { flagged with cmd_type := .NICSend, intf_id := CMD_NIC_OUTBOUND_ID }
        | 2 => { flagged with cmd_type := .HostDirect, intf_id := CMD_HOSTDIRECT_ID }
        | _ => flagged) := by
  have hevent : last_word (stores ++ [(3, word)]) 3 = some word := by
    rw [last_word_concat, if_pos rfl]
  have hwords : (fun w : Fin 19 =>
      if w.val ≤ 6 then (last_word (stores ++ [(3, word)]) (w.val + 4)).getD 0 else 0)
      = (command stores id).descr.words := by
    funext w
    show _ = if w.val ≤ 6 then (last_word stores (w.val + 4)).getD 0 else 0
    rw [last_word_concat, if_neg (by omega : ¬ 3 = w.val + 4)]
  have hcode : type_code word < 4 := Nat.mod_lt _ (by decide)
  rw [command, last_type_concat, hevent, hwords]
  -- the four codes
  generalize type_code word = code at hcode
  rcases (by omega : code = 0 ∨ code = 1 ∨ code = 2 ∨ code = 3) with rfl | rfl | rfl | rfl
  · rfl
  · rfl
  · rfl
  · rfl

end Stores

/-! ## Runs -/

/-- The frontend with the commands that are not answered and everything that the core stored. -/
structure Sys where
  hw : State
  /-- The access of the last cycle, if it was not granted: address, direction and data. -/
  stalled : Option (BitVec 32 × Bool × BitVec 32)
  /-- The commands that are not answered, each with what was pushed. -/
  book : Book pspin_cmd_t
  stores : List store_t

/-- The store granted in this cycle. -/
def storing (s : State) (i : Input) : List store_t :=
  if gnt_o s i && !i.wen_ni then [(add_idx i, i.wdata_i)] else []

variable (cluster_id_i : BitVec 6) (C_CORE_ID : ℕ)

namespace Sys

/-- What the core holds while it is not granted. -/
def access (i : Input) : BitVec 32 × Bool × BitVec 32 := (i.add_i, i.wen_ni, i.wdata_i)

/-- A clock edge, which also writes the log. -/
def step (s : Sys) (i : Input) : Sys where
  hw := CmdFrontend.step cluster_id_i C_CORE_ID s.hw i
  stalled := if i.req_i && !gnt_o s.hw i then some (access i) else none
  book := s.book.step s.hw i (cmd_d cluster_id_i C_CORE_ID s.hw i)
  stores := s.stores ++ storing s.hw i

def init : Sys := ⟨reset, none, ⟨[], []⟩, []⟩

/-- The core holds an access that was not granted; at most one response for each pushed
command, after it left the buffer. -/
structure Env (s : Sys) (i : Input) : Prop where
  hold : ∀ a ∈ s.stalled, i.req_i = true ∧ access i = a
  answers : s.book.Answers i

instance (s : Sys) (i : Input) : Decidable (Env s i) :=
  -- by the one access there may be, not by all that there are
  haveI : Decidable (∀ a ∈ s.stalled, i.req_i = true ∧ access i = a) :=
    Option.decidableForallMem s.stalled
  decidable_of_iff ((∀ a ∈ s.stalled, i.req_i = true ∧ access i = a) ∧ s.book.Answers i)
    ⟨fun h => ⟨h.1, h.2⟩, fun h => ⟨h.hold, h.answers⟩⟩

/-- The states of all runs of a core that repeats an access until it is granted. -/
def Reach : Sys → Prop := Sync.Reach (· = init) (step cluster_id_i C_CORE_ID) Env

/-- The id of a command that has one and waits for a place in the buffer. -/
def stopped_id (s : State) : List local_cmd_id_t :=
  if s.state_q == .WaitingBuffer then [s.cmd_q.cmd_id.local_cmd_id] else []

/-- What holds between cycles. -/
structure Accounted (s : Sys) : Prop where
  /-- A bit is set exactly for the ids of the commands that have one: pushed and not
  answered, or stopped before the buffer. -/
  used : ∀ k, s.hw.free_cmd_ids_q k = true ↔ k ∈ s.book.ids ++ stopped_id s.hw
  distinct : (s.book.ids ++ stopped_id s.hw).Nodup
  no_pending : no_pending_cmd_o s.hw = true ↔ s.book.ids ++ stopped_id s.hw = []
  /-- The buffer holds what was pushed and has not left. -/
  buffer : FifoV3.elems NUM_HPU_CMDS s.hw.i_hpu_cmd_fifo = s.book.buffered.map (·.tag)

/-- What holds in a cycle. -/
structure Granted (s : Sys) (i : Input) : Prop where
  /-- A load of the issue register is granted when a command is pushed, and only then. -/
  iff_push : cmd_issued i = true ∧ gnt_o s.hw i = true ↔ cmd_buff_push s.hw i = true
  /-- One command is pushed, with an id no other unanswered command has. -/
  one : (step cluster_id_i C_CORE_ID s i).book.unanswered = s.book.rest i
    ++ if cmd_buff_push s.hw i then
      [⟨local_cmd_id_d s.hw i, cmd_d cluster_id_i C_CORE_ID s.hw i⟩] else []
  fresh : cmd_buff_push s.hw i = true → ∀ c ∈ s.book.rest i, c.id ≠ local_cmd_id_d s.hw i
  /-- It is the command the core has written. -/
  content : cmd_buff_push s.hw i = true → cmd_d cluster_id_i C_CORE_ID s.hw i
    = command s.stores ⟨cluster_id_i.setWidth _, BitVec.ofNat _ C_CORE_ID, local_cmd_id_d s.hw i⟩

/-- The access that is up is the one the front-end waits for. -/
structure Blocked (s : Sys) : Prop where
  issue : s.hw.state_q = .Disabled ∨ s.hw.state_q = .WaitingID →
    ∃ a, s.stalled = some a ∧ a.1.toNat / 4 % 2 ^ 5 = ADD_ISSUE ∧ a.2.1 = true
  wait : s.hw.state_q = .Waiting →
    ∃ a, s.stalled = some a ∧ a.1.toNat / 4 % 2 ^ 5 = ADD_WAIT ∧ a.2.1 = false

/-- The invariant: the ids are those of the commands without answer, an access that waits says why,
and the registers hold what was stored. -/
structure Inv (s : Sys) : Prop where
  ids : CmdFrontend.Inv s.hw s.book
  blocked : Blocked s
  buffer : FifoV3.elems NUM_HPU_CMDS s.hw.i_hpu_cmd_fifo = s.book.buffered.map (·.tag)
  written : s.hw.cmd_q = command s.stores s.hw.cmd_q.cmd_id

variable {cluster_id_i} {C_CORE_ID} {s : Sys} {i : Input}

/-! ## Accesses -/

theorem issued_iff : cmd_issued i = true
    ↔ i.req_i = true ∧ add_idx i = ADD_ISSUE ∧ i.wen_ni = true := by
  rw [cmd_issued, Bool.and_eq_true, Bool.and_eq_true, beq_iff_eq, and_assoc]

theorem wait_issued_iff : wait_issued i = true
    ↔ i.req_i = true ∧ add_idx i = ADD_WAIT ∧ i.wen_ni = false := by
  rw [wait_issued, Bool.and_eq_true, Bool.and_eq_true, beq_iff_eq, Bool.not_eq_true', and_assoc]

namespace Blocked

/-- The access of a cycle is the one that was held back before. -/
theorem held (h : Blocked s) (he : Env s i) : Held s.hw i where
  issue := by
    intro hq
    obtain ⟨a, ha, hidx, hload⟩ := h.issue hq
    obtain ⟨hreq, rfl⟩ := he.hold a ha
    exact issued_iff.mpr ⟨hreq, hidx, hload⟩
  wait := by
    intro hq
    obtain ⟨a, ha, hidx, hstore⟩ := h.wait hq
    obtain ⟨hreq, rfl⟩ := he.hold a ha
    exact wait_issued_iff.mpr ⟨hreq, hidx, hstore⟩

/-- An access is not granted unless the next state is `Ready`. -/
theorem stalled_of_not_ready (hreq : i.req_i = true) (hd : state_d s.hw i ≠ .Ready) :
    (step cluster_id_i C_CORE_ID s i).stalled = some (access i) := by
  show (if i.req_i && !gnt_o s.hw i then some (access i) else none) = _
  rw [(not_push_of hd).2, hreq]
  rfl

theorem step (h : Blocked s) (he : Env s i) : Blocked (Sys.step cluster_id_i C_CORE_ID s i) where
  issue := by
    intro hd
    have hissue := issued_iff.mp (issued_of_blocked (h.held he) hd)
    refine ⟨access i, stalled_of_not_ready hissue.1 (fun hc => ?_), hissue.2⟩
    have hq : (Sys.step cluster_id_i C_CORE_ID s i).hw.state_q = .Ready := hc
    rw [hq] at hd
    exact absurd hd (by decide)
  wait := by
    intro hd
    have hwait := wait_issued_iff.mp (wait_of_waiting (h.held he) hd)
    refine ⟨access i, stalled_of_not_ready hwait.1 (fun hc => ?_), hwait.2⟩
    have hq : (Sys.step cluster_id_i C_CORE_ID s i).hw.state_q = .Ready := hc
    rw [hq] at hd
    exact absurd hd (by decide)

end Blocked

/-! ## The command registers -/

/-- Stores to other registers do not change the command. -/
theorem command_nil (h : ∀ st ∈ storing s.hw i, st.1 < 3 ∨ 10 < st.1) (id : pspin_cmd_id_t) :
    command (s.stores ++ storing s.hw i) id = command s.stores id := by
  unfold storing at h ⊢
  split_ifs at h ⊢
  · exact command_other (h _ (List.mem_singleton_self _))
  · rw [List.append_nil]

namespace Inv

/-- A wait that is granted stores nothing into the command registers. -/
theorem storing_of_wait (hw : wait_issued i = true) :
    ∀ st ∈ storing s.hw i, st.1 < 3 ∨ 10 < st.1 := by
  intro st hst
  have hlt : add_idx i < 3 := (wait_issued_iff.mp hw).2.1 ▸ (by decide : ADD_WAIT < 3)
  obtain ⟨-, hst⟩ := List.mem_ite_nil_right.mp hst
  rw [List.mem_singleton.mp hst]
  exact Or.inl hlt

/-- A store that the front-end takes as a definition. -/
theorem cmd_def_store (h : Inv s) (hreq : i.req_i = true) (hq : s.hw.state_q = .Ready)
    (hstore : i.wen_ni = false) (hwait : wait_issued i = false) : cmd_def s.hw i
      = command (s.stores ++ storing s.hw i) s.hw.cmd_q.cmd_id := by
  -- it is granted
  have hissue : cmd_issued i = false := by
    rw [cmd_issued, hstore, Bool.and_false]
  have hd : state_d s.hw i = .Ready := by
    rw [state_d, transition, hq, hissue, hwait]
    rfl
  have hone : storing s.hw i = [(add_idx i, i.wdata_i)] := by
    rw [storing, gnt_o, hreq, hd, hstore]
    rfl
  rw [cmd_def, hreq, hq, hone, hstore, Bool.not_false, Bool.and_true, Bool.and_true, BEq.rfl,
    Bool.and_self, if_pos rfl]
  by_cases h3 : add_idx i = 3
  · rw [h3, if_pos BEq.rfl, command_def, ← h.written]
    rfl
  · have hne : (add_idx i == 3) = false := beq_eq_false_iff_ne.mpr h3
    rw [hne, if_neg Bool.false_ne_true]
    by_cases hword : 4 ≤ add_idx i ∧ add_idx i ≤ 10
    · have hdec : (decide (4 ≤ add_idx i) && decide (add_idx i ≤ 10)) = true := by
        rw [Bool.and_eq_true, decide_eq_true_eq, decide_eq_true_eq]
        exact hword
      rw [hdec, if_pos rfl, command_word hword.1 hword.2, ← h.written]
    · have hdec : (decide (4 ≤ add_idx i) && decide (add_idx i ≤ 10)) = false := by
        rw [Bool.eq_false_iff, Ne, Bool.and_eq_true, decide_eq_true_eq, decide_eq_true_eq]
        exact hword
      rw [hdec, if_neg Bool.false_ne_true, command_other (by omega), ← h.written]

/-- Outside `Ready` only a wait is granted. -/
theorem storing_of_not_ready (h : Inv s) (he : Env s i)
    (hready : ¬ (i.req_i = true ∧ s.hw.state_q = .Ready)) :
    ∀ st ∈ storing s.hw i, st.1 < 3 ∨ 10 < st.1 := by
  have hheld := h.blocked.held he
  intro st hst
  have hg : i.req_i = true ∧ i.wen_ni = false := by
    obtain ⟨hg, -⟩ := List.mem_ite_nil_right.mp hst
    rw [Bool.and_eq_true, gnt_o, Bool.and_eq_true, Bool.not_eq_true'] at hg
    exact ⟨hg.1.1, hg.2⟩
  have hnotissue : ¬ cmd_issued i = true := fun hc =>
    absurd ((issued_iff.mp hc).2.2.symm.trans hg.2) (by decide)
  cases hq : s.hw.state_q with
  | Ready => exact absurd ⟨hg.1, hq⟩ hready
  | Disabled => exact absurd (hheld.issue (Or.inl hq)) hnotissue
  | WaitingID => exact absurd (hheld.issue (Or.inr hq)) hnotissue
  | WaitingBuffer => exact absurd hq h.ids.state
  | Waiting => exact storing_of_wait (hheld.wait hq) st hst

/-- **The registers follow the stores.** -/
theorem cmd_def_eq (h : Inv s) (he : Env s i) : cmd_def s.hw i
    = command (s.stores ++ storing s.hw i) s.hw.cmd_q.cmd_id := by
  by_cases hready : i.req_i = true ∧ s.hw.state_q = .Ready
  · obtain ⟨hreq, hq⟩ := hready
    by_cases hload : i.wen_ni = true
    · -- a load changes no register
      have hnone : storing s.hw i = [] := by
        rw [storing, hload, Bool.not_true, Bool.and_false]
        rfl
      rw [cmd_def, hreq, hq, hnone, List.append_nil, hload, Bool.not_true, Bool.and_false,
        Bool.and_false, ← h.written]
      rfl
    · have hstore := Bool.eq_false_of_not_eq_true hload
      by_cases hwait : wait_issued i = true
      · -- nor does a wait
        have hidx := (wait_issued_iff.mp hwait).2.1
        rw [command_nil (storing_of_wait hwait), ← h.written, cmd_def, hreq, hq, hstore,
          Bool.not_false, Bool.and_true, Bool.and_true, BEq.rfl, Bool.and_self, if_pos rfl, hidx]
        rfl
      · exact h.cmd_def_store hreq hq hstore (Bool.eq_false_of_not_eq_true hwait)
  · have hsame : cmd_def s.hw i = s.hw.cmd_q := by
      apply if_neg
      rw [Bool.and_eq_true, beq_iff_eq]
      exact hready
    rw [hsame, command_nil (h.storing_of_not_ready he hready), ← h.written]

/-- A command that is pushed is the one written before. -/
theorem content (h : Inv s) (he : Env s i) (hp : cmd_buff_push s.hw i = true) :
    cmd_d cluster_id_i C_CORE_ID s.hw i = command s.stores
      ⟨cluster_id_i.setWidth _, BitVec.ofNat _ C_CORE_ID, local_cmd_id_d s.hw i⟩ := by
  have hload : i.wen_ni = true := by
    rw [cmd_buff_push, Bool.and_eq_true, Bool.and_eq_true] at hp
    exact (issued_iff.mp hp.1.2).2.2
  have hnone : storing s.hw i = [] := by
    rw [storing, hload, Bool.not_true, Bool.and_false]
    rfl
  rw [cmd_d, h.cmd_def_eq he, hnone, List.append_nil]
  rfl

/-- The buffer holds the commands that the book says, with their words. -/
theorem buffer_step (h : Inv s) : FifoV3.elems NUM_HPU_CMDS
      (Sys.step cluster_id_i C_CORE_ID s i).hw.i_hpu_cmd_fifo
    = (Sys.step cluster_id_i C_CORE_ID s i).book.buffered.map (·.tag) := by
  have hfifo := h.ids.elems_step (i := i) cluster_id_i C_CORE_ID
  have hbook : (Sys.step cluster_id_i C_CORE_ID s i).book.buffered
      = (if popped s.hw i then s.book.buffered.tail else s.book.buffered)
        ++ if cmd_buff_push s.hw i then
          [⟨local_cmd_id_d s.hw i, cmd_d cluster_id_i C_CORE_ID s.hw i⟩] else [] := rfl
  rw [hbook, List.map_append]
  refine hfifo.trans (congrArg₂ _ ?_ ?_)
  · split_ifs
    · rw [h.buffer, List.map_tail]
    · exact h.buffer
  · split_ifs <;> rfl

/-- **A cycle of the front-end.** -/
theorem step (h : Inv s) (he : Env s i) : Inv (Sys.step cluster_id_i C_CORE_ID s i) where
  ids := h.ids.step (h.blocked.held he) he.answers _
  blocked := h.blocked.step he
  buffer := h.buffer_step
  written := by
    show cmd_d cluster_id_i C_CORE_ID s.hw i = command (s.stores ++ storing s.hw i) _
    rw [cmd_d, h.cmd_def_eq he]
    rfl

/-- No id is kept for a command that was not pushed. -/
theorem stopped_id_eq (h : Inv s) : stopped_id s.hw = [] := by
  apply if_neg
  rw [beq_iff_eq]
  exact h.ids.state

/-- What the invariant says of the ids. -/
theorem accounted (h : Inv s) : Accounted s where
  used := by
    intro k
    rw [h.stopped_id_eq, List.append_nil]
    exact h.ids.used k
  distinct := by
    rw [h.stopped_id_eq, List.append_nil]
    exact h.ids.nodup
  no_pending := by
    rw [h.stopped_id_eq, List.append_nil, h.ids.no_pending_iff, Book.ids, List.map_eq_nil_iff]
  buffer := h.buffer

theorem granted (h : Inv s) (he : Env s i) : Granted cluster_id_i C_CORE_ID s i where
  iff_push := by
    rcases h.ids.issue (h.blocked.held he) he.answers with
      ⟨hpush, -, -, hno⟩ | ⟨hpush, -, -, -, -, hissue, hg⟩ | ⟨hpush, -, -, -, hissue, hg⟩
    · constructor
      · rintro ⟨hissue, hg⟩
        exact absurd (hg.symm.trans (hno hissue)) (by decide)
      · exact fun hp => absurd (hp.symm.trans hpush) (by decide)
    · exact ⟨fun _ => hpush, fun _ => ⟨hissue, hg⟩⟩
    · exact ⟨fun _ => hpush, fun _ => ⟨hissue, hg⟩⟩
  one := unanswered_step
  fresh := by
    intro hp c hc heq
    apply h.ids.pushed_id (h.blocked.held he) he.answers hp
    rw [← heq]
    exact List.mem_map_of_mem hc
  content := h.content he

end Inv

theorem inv_init : Inv init where
  ids := inv_reset
  blocked :=
    { issue := fun hc => absurd hc (by decide)
      wait := fun hc => absurd hc (by decide) }
  buffer := rfl
  written := by
    have hwords : (fun w : Fin 19 => if w.val ≤ 6 then (last_word [] (w.val + 4)).getD 0 else 0)
        = fun _ => 0 := funext fun _ => ite_self _
    show _ = command [] _
    rw [command, hwords]
    rfl

/-! ## Whole runs -/

theorem inv_of_reach (h : Reach cluster_id_i C_CORE_ID s) : Inv s := by
  refine Sync.Reach.inv (P := Inv) ?_ (fun _ _ hi he => hi.step he) h
  rintro _ rfl
  exact inv_init

/-- **The ids of the commands.** In every reachable state a bit of `free_cmd_ids_q` is set
exactly for the ids of the unanswered commands, no two of them share an id, and
`no_pending_cmd_o` says that there are none. In every cycle a load of the issue register is
granted exactly when a command is pushed: one command, with a fresh id, and with the
content the core wrote last. -/
theorem ids_accounted (h : Reach cluster_id_i C_CORE_ID s) :
    Accounted s ∧ ∀ i, Env s i → Granted cluster_id_i C_CORE_ID s i := by
  have hinv := inv_of_reach h
  exact ⟨hinv.accounted, fun i he => hinv.granted he⟩

/-! The core writes the type and one word, and issues five commands. The fifth finds no id
and gets the one of the command that is answered. -/

/-- A cycle with a store or a load, and with a response or without. -/
def demo_cycle (idx : ℕ) (word : Option (BitVec 32)) (resp : Option local_cmd_id_t) : Input where
  req_i := true
  add_i := BitVec.ofNat 32 (idx * 4)
  wen_ni := word.isNone
  wdata_i := word.getD 0
  cmd_resp_valid_i := resp.isSome
  cmd_resp_id_i := ⟨0, 0, resp.getD 0⟩
  disabled_i := false
  cmd_ready_i := true

/-- The registers are written, and five commands are issued with four ids. -/
def demo_cycles : List Input :=
  [demo_cycle 3 (some 3) none, demo_cycle 4 (some 0xc0ffee) none, demo_cycle 0 none none,
    demo_cycle 0 none none, demo_cycle 0 none none, demo_cycle 0 none none, demo_cycle 0 none none]

theorem ids_accounted_demo :
    Accounted (Sync.run (step 0 0) init demo_cycles)
      ∧ Granted 0 0 (Sync.run (step 0 0) init demo_cycles) (demo_cycle 0 none (some 2))
      ∧ (Sync.run (step 0 0) init demo_cycles).hw.state_q = .WaitingID
      ∧ (cmd_d 0 0 (Sync.run (step 0 0) init demo_cycles).hw (demo_cycle 0 none (some 2))).cmd_id
        = ⟨0, 0, 2⟩
      ∧ (cmd_d 0 0 (Sync.run (step 0 0) init demo_cycles).hw
        (demo_cycle 0 none (some 2))).descr.words 0 = 0xc0ffee := by
  have hstart : Reach 0 0 init := .reset rfl
  have hreach : Reach 0 0 (Sync.run (step 0 0) init demo_cycles) := hstart.run (by decide +kernel)
  obtain ⟨hstate, hcycle⟩ := ids_accounted hreach
  exact ⟨hstate, hcycle _ (by decide +kernel), by decide +kernel, by decide +kernel,
    by decide +kernel⟩

end Sys

end Pspin.CmdFrontend
