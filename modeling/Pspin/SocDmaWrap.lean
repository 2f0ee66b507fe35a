/-
`soc_dma_wrap`: the DMA commands, in front of the DMA engine of the SoC.

The engine has two ports, `rx` for what goes to the host and `tx` for what comes from
there. Each port has a FIFO with the ids of the commands that were accepted, and a counter
of the answers of the engine that are not yet passed on. An arbiter with two inputs merges
the responses of both ports.

The engine is offered a transfer whether or not the FIFO of its port has room; the command
is accepted only where it has (`once_iff`). The data of a response are not driven, so a
response is the id of its command.
-/
import Pspin.CmdDescr
import Pspin.Counter
import Pspin.FifoV3
import Pspin.RrArbTree

set_option autoImplicit false

namespace Pspin.SocDmaWrap

/-- Requests that the engine has at the bus. -/
def SOC_DMA_AXI_REQ_DEPTH : ℕ := 12

/-- Requests that wait in the engine. The source spells it so. -/
def SOC_DMA_REQ_FIFO_DEPT : ℕ := 64

/-- `RespFIFODepth` of the instance in `pspin`. -/
def soc_depth : ℕ := SOC_DMA_REQ_FIFO_DEPT + SOC_DMA_AXI_REQ_DEPTH

/-- The ports of the engine. -/
inductive port_t
  | rx
  | tx
deriving DecidableEq

/-- Its input of the response arbiter. -/
def port_t.idx : port_t → ℕ
  | .rx => 0
  | .tx => 1

/-- The registers of `soc_dma_wrap`: for each engine the ids of its commands and the count of its
responses, and the arbiter of the responses. -/
structure State where
  i_resp_fifo : port_t → FifoV3.State pspin_cmd_id_t
  to_pop_q : port_t → ℕ
  i_resp_arb : RrArbTree.State

/-- A command, and what the engine shows at its ports. -/
structure Input where
  cmd_req_valid_i : Bool
  cmd_req_i : pspin_cmd_t
  req_ready : port_t → Bool
  resp_valid : port_t → Bool

def reset : State where
  i_resp_fifo := fun _ => FifoV3.reset ⟨0, 0, 0⟩
  to_pop_q := fun _ => 0
  i_resp_arb := RrArbTree.reset

/-! ## Requests -/

variable (RespFIFODepth : ℕ)

/-- The direction bit of the command. -/
def nic_to_host (i : Input) : Bool := i.cmd_req_i.descr.host_dma_cmd.nic_to_host

def fifo_full (s : State) (p : port_t) : Bool := FifoV3.full_o RespFIFODepth (s.i_resp_fifo p)

/-- A command is accepted when its engine takes it and its id fits. -/
def cmd_req_ready_o (s : State) (i : Input) : Bool :=
  if i.cmd_req_valid_i then
    if nic_to_host i then !fifo_full RespFIFODepth s .rx && i.req_ready .rx
    else !fifo_full RespFIFODepth s .tx && i.req_ready .tx
  else false

/-- `rx_req_valid` and `tx_req_valid`; the descriptor is `xfer_descr` at both ports. -/
def req_valid (i : Input) : port_t → Bool
  -- unlike the command, the transfer does not wait for the FIFO
  | .rx => i.cmd_req_valid_i && nic_to_host i == true
  | .tx => i.cmd_req_valid_i && nic_to_host i == false

/-! ## Responses -/

/-- The engine is done with a command that is not answered. -/
def fifo_resp_avail (s : State) (p : port_t) : Bool := decide (0 < s.to_pop_q p)

/-- The response arbiter is always granted. -/
def resp_arb_input (s : State) : RrArbTree.Input where
  req_i := fun k => if k = 0 then fifo_resp_avail s .rx else fifo_resp_avail s .tx
  gnt_i := true

def fifo_sel (s : State) (p : port_t) : Bool :=
  RrArbTree.gnt_o 2 s.i_resp_arb (resp_arb_input s) p.idx

def fifo_pop (s : State) (p : port_t) : Bool := fifo_resp_avail s p && fifo_sel s p

def cmd_resp_valid_o (s : State) : Bool :=
  RrArbTree.req_o 2 s.i_resp_arb (resp_arb_input s).req_i

/-- The port whose response is shown. -/
def resp_port (s : State) : port_t :=
  if RrArbTree.idx_o 2 s.i_resp_arb (resp_arb_input s).req_i = 0 then .rx else .tx

def cmd_resp_o (s : State) : pspin_cmd_id_t := FifoV3.data_o (s.i_resp_fifo (resp_port s))

/-! ## A clock edge -/

/-- The ports of the id FIFO of an engine: the id is pushed with the command. -/
def resp_fifo_input (s : State) (i : Input) (p : port_t) : FifoV3.Input pspin_cmd_id_t where
  data_i := i.cmd_req_i.cmd_id
  push_i := cmd_req_ready_o RespFIFODepth s i && req_valid i p
  pop_i := fifo_pop s p

/-- Responses of an engine that have not been passed on. -/
def to_pop_d (s : State) (i : Input) (p : port_t) : ℕ :=
  -- an answer and a response in one cycle cancel out
  match i.resp_valid p, fifo_pop s p with
  | true, false => Counter.inc (Nat.clog 2 RespFIFODepth + 1) (s.to_pop_q p)
  | false, true => Counter.dec (Nat.clog 2 RespFIFODepth + 1) (s.to_pop_q p)
  | _, _ => s.to_pop_q p

def step (s : State) (i : Input) : State where
  i_resp_fifo := fun p =>
    FifoV3.step RespFIFODepth (s.i_resp_fifo p) (resp_fifo_input RespFIFODepth s i p)
  to_pop_q := to_pop_d RespFIFODepth s i
  i_resp_arb := RrArbTree.step 2 s.i_resp_arb (resp_arb_input s)

/-! ## Once -/

/-- The port a command is for. -/
def cmd_port (i : Input) : port_t := if nic_to_host i then .rx else .tx

/-- The engine takes a transfer at the port. -/
def handed_over (i : Input) (p : port_t) : Bool := req_valid i p && i.req_ready p

/-- A command for the port is accepted. -/
def accepted (s : State) (i : Input) (p : port_t) : Bool :=
  i.cmd_req_valid_i && cmd_req_ready_o RespFIFODepth s i && cmd_port i == p

/-- A command and its transfer are taken in the same cycle. -/
def Once (s : State) (i : Input) : Prop :=
  ∀ p, handed_over i p = true ↔ accepted RespFIFODepth s i p = true

/-- The engine takes no transfer for which there is no room. -/
def Room (s : State) (i : Input) : Prop :=
  ¬(i.cmd_req_valid_i = true ∧ i.req_ready (cmd_port i) = true
    ∧ fifo_full RespFIFODepth s (cmd_port i) = true)

variable {RespFIFODepth} {s : State} {i : Input} {p : port_t}

/-- A command is offered to one engine. -/
theorem req_valid_iff : req_valid i p = true ↔ i.cmd_req_valid_i = true ∧ cmd_port i = p := by
  unfold cmd_port
  cases p <;> cases hdir : nic_to_host i <;> simp [req_valid, hdir]

theorem cmd_req_ready_o_eq : cmd_req_ready_o RespFIFODepth s i
    = (i.cmd_req_valid_i && (!fifo_full RespFIFODepth s (cmd_port i) && i.req_ready (cmd_port i))) := by
  unfold cmd_req_ready_o cmd_port
  cases i.cmd_req_valid_i <;> cases nic_to_host i <;> rfl

/-- When an engine takes a command. It does not look at the id FIFO: this is where the two
conditions differ. -/
theorem handed_over_iff : handed_over i p = true
    ↔ i.cmd_req_valid_i = true ∧ i.req_ready (cmd_port i) = true ∧ cmd_port i = p := by
  rw [handed_over, Bool.and_eq_true, req_valid_iff]
  constructor
  · rintro ⟨⟨hv, rfl⟩, hr⟩
    exact ⟨hv, hr, rfl⟩
  · rintro ⟨hv, hr, rfl⟩
    exact ⟨⟨hv, rfl⟩, hr⟩

/-- An accepted command is one that is taken while its id fits. -/
theorem accepted_iff : accepted RespFIFODepth s i p = true
    ↔ handed_over i p = true ∧ fifo_full RespFIFODepth s p = false := by
  rw [accepted, cmd_req_ready_o_eq, handed_over_iff, Bool.and_eq_true, Bool.and_eq_true,
    Bool.and_eq_true, Bool.and_eq_true, Bool.not_eq_true', beq_iff_eq]
  constructor
  · rintro ⟨⟨hv, -, hf, hr⟩, rfl⟩
    exact ⟨⟨hv, hr, rfl⟩, hf⟩
  · rintro ⟨⟨hv, hr, rfl⟩, hf⟩
    exact ⟨⟨hv, hv, hf, hr⟩, rfl⟩

/-- What is pushed is what is accepted. -/
theorem push_eq : (resp_fifo_input RespFIFODepth s i p).push_i = accepted RespFIFODepth s i p := by
  rw [Bool.eq_iff_iff, resp_fifo_input, Bool.and_eq_true, req_valid_iff, accepted, Bool.and_eq_true,
    Bool.and_eq_true, beq_iff_eq]
  constructor
  · rintro ⟨hr, hv, hp⟩
    exact ⟨⟨hv, hr⟩, hp⟩
  · rintro ⟨⟨hv, hr⟩, hp⟩
    exact ⟨hr, hv, hp⟩

/-- **A command and its transfer are taken together exactly where there is room.** -/
theorem once_iff : Once RespFIFODepth s i ↔ Room RespFIFODepth s i := by
  constructor
  · rintro h ⟨hv, hr, hfull⟩
    have hacc := (h (cmd_port i)).mp (handed_over_iff.mpr ⟨hv, hr, rfl⟩)
    rw [(accepted_iff.mp hacc).2] at hfull
    exact Bool.false_ne_true hfull
  · intro h p
    rw [accepted_iff]
    constructor
    · intro hover
      obtain ⟨hv, hr, rfl⟩ := handed_over_iff.mp hover
      exact ⟨hover, Bool.eq_false_of_not_eq_true fun hfull => h ⟨hv, hr, hfull⟩⟩
    · exact fun hacc => hacc.1

/-! ## The response arbiter -/

/-- The response of the port is shown. -/
def responds (s : State) (p : port_t) : Bool := cmd_resp_valid_o s && resp_port s == p

theorem req_i_eq (p : port_t) : (resp_arb_input s).req_i p.idx = fifo_resp_avail s p := by
  cases p <;> rfl

/-- The decision is never locked, since the arbiter is always granted. -/
def Unlocked (s : State) : Prop := s.i_resp_arb.lock_q = false

/-- The arbiter never locks: all its grants are taken at once. -/
theorem unlocked_step : Unlocked (step RespFIFODepth s i) := by
  show (_ && !true) = false
  rw [Bool.not_true, Bool.and_false]

theorem Unlocked.held (h : Unlocked s) : RrArbTree.Held 2 s.i_resp_arb (resp_arb_input s).req_i :=
  fun hl => absurd (h.symm.trans hl) Bool.false_ne_true

/-- It shows a request when there is one. -/
theorem Unlocked.valid_iff (h : Unlocked s) :
    cmd_resp_valid_o s = true ↔ ∃ p, fifo_resp_avail s p = true := by
  rw [cmd_resp_valid_o, RrArbTree.req_o_iff (by decide) h.held]
  constructor
  · rintro ⟨k, hk, hreq⟩
    have hcases : k = 0 ∨ k = 1 := by omega
    rcases hcases with rfl | rfl
    · exact ⟨.rx, hreq⟩
    · exact ⟨.tx, hreq⟩
  · rintro ⟨p, hp⟩
    refine ⟨p.idx, ?_, (req_i_eq p).trans hp⟩
    cases p <;> decide

/-- The arbiter takes the port it names. -/
theorem Unlocked.idx_eq (h : Unlocked s) (hv : cmd_resp_valid_o s = true) :
    RrArbTree.idx_o 2 s.i_resp_arb (resp_arb_input s).req_i = (resp_port s).idx := by
  obtain ⟨hlt, -⟩ := RrArbTree.idx_o_spec (by decide) h.held hv
  unfold resp_port
  split_ifs with h0
  · exact h0
  · show _ = 1
    omega

theorem port_t.idx_inj {p q : port_t} (h : p.idx = q.idx) : p = q := by
  cases p <;> cases q <;> first | rfl | exact absurd h (by decide)

/-- The response that is shown is the one that is popped. -/
theorem Unlocked.pop_eq (h : Unlocked s) (p : port_t) : fifo_pop s p = responds s p := by
  rw [Bool.eq_iff_iff, fifo_pop, responds, fifo_sel, RrArbTree.gnt_o, Bool.and_eq_true,
    Bool.and_eq_true, Bool.and_eq_true, beq_iff_eq, beq_iff_eq]
  constructor
  · rintro ⟨hav, -, hsel⟩
    have hv := h.valid_iff.mpr ⟨p, hav⟩
    exact ⟨hv, port_t.idx_inj ((h.idx_eq hv).symm.trans hsel.symm)⟩
  · rintro ⟨hv, rfl⟩
    have hidx := h.idx_eq hv
    have hreq := (RrArbTree.idx_o_spec (by decide) h.held hv).2
    rw [hidx, req_i_eq] at hreq
    exact ⟨hreq, rfl, hidx.symm⟩

/-- An engine that is granted has a response. -/
theorem Unlocked.avail (h : Unlocked s) (hr : responds s p = true) : 0 < s.to_pop_q p := by
  rw [← h.pop_eq, fifo_pop, Bool.and_eq_true, fifo_resp_avail, decide_eq_true_eq] at hr
  exact hr.1

/-! ## Turns -/

/-- The next of the two where both have a response. -/
def turn (s : State) (p : port_t) : ℕ := if s.i_resp_arb.rr_q = p.idx then 1 else 0

/-- With both inputs requesting the priority decides. -/
theorem root_two {req : ℕ → Bool} {rr : ℕ} (h0 : req 0 = true) (h1 : req 1 = true) (hrr : rr < 2) :
    RrArbTree.root 2 req rr = (true, rr) := by
  have hcases : rr = 0 ∨ rr = 1 := by omega
  have hdepth : Nat.clog 2 2 - 1 = 0 := by decide
  rw [RrArbTree.root, if_neg (by decide), hdepth]
  rcases hcases with rfl | rfl <;> simp [RrArbTree.node, h0, h1]

theorem rr_d_two {a : RrArbTree.State} {req : ℕ → Bool} (hl : a.lock_q = false)
    (h0 : req 0 = true) (h1 : req 1 = true) (hrr : a.rr_q < 2) :
    RrArbTree.rr_d 2 a ⟨req, true⟩ = 1 - a.rr_q := by
  have hreq : RrArbTree.req_d a req = req := by
    rw [RrArbTree.req_d, if_neg (by rw [hl]; exact Bool.false_ne_true)]
  have hcases : a.rr_q = 0 ∨ a.rr_q = 1 := by omega
  have hrange : List.range 2 = [0, 1] := rfl
  rw [RrArbTree.rr_d, RrArbTree.req_o, hreq, root_two h0 h1 hrr]
  rcases hcases with hq | hq
  · simp [hq, Lzc.empty_o, Lzc.cnt_o, hrange, List.findIdx_cons, h1]
  · simp [hq, Lzc.empty_o, Lzc.cnt_o, hrange, List.findIdx_cons, h0]

/-- A port with a response that is not shown is the next one. -/
theorem Unlocked.turn_step (h : Unlocked s) (hrr : s.i_resp_arb.rr_q < 2)
    (hav : fifo_resp_avail s p = true) (hr : responds s p = false) :
    turn s p = 0 ∧ turn (step RespFIFODepth s i) p = 1 := by
  have hv := h.valid_iff.mpr ⟨p, hav⟩
  have hidx := h.idx_eq hv
  have hother : resp_port s ≠ p := by
    rintro rfl
    rw [responds, hv, beq_self_eq_true] at hr
    exact Bool.noConfusion hr
  have hreq : (resp_arb_input s).req_i (resp_port s).idx = true := by
    rw [← hidx]
    exact (RrArbTree.idx_o_spec (by decide) h.held hv).2
  have hown : (resp_arb_input s).req_i p.idx = true := (req_i_eq p).trans hav
  have hboth : (resp_arb_input s).req_i 0 = true ∧ (resp_arb_input s).req_i 1 = true := by
    generalize resp_port s = q at hother hreq
    cases p <;> cases q
    · exact absurd rfl hother
    · exact ⟨hown, hreq⟩
    · exact ⟨hreq, hown⟩
    · exact absurd rfl hother
  have hd : RrArbTree.req_d s.i_resp_arb (resp_arb_input s).req_i = (resp_arb_input s).req_i := by
    rw [RrArbTree.req_d, if_neg (by rw [h]; exact Bool.false_ne_true)]
  -- the one that is shown is the one the register names
  rw [RrArbTree.idx_o, hd, root_two hboth.1 hboth.2 hrr] at hidx
  have hnext : (step RespFIFODepth s i).i_resp_arb.rr_q = 1 - s.i_resp_arb.rr_q :=
    rr_d_two h hboth.1 hboth.2 hrr
  have hrr : s.i_resp_arb.rr_q = (resp_port s).idx := hidx
  rw [turn, turn, hnext, hrr]
  generalize resp_port s = q at hother
  cases p <;> cases q <;> first | exact absurd rfl hother | decide

theorem rr_step (hrr : s.i_resp_arb.rr_q < 2) :
    (step RespFIFODepth s i).i_resp_arb.rr_q < 2 := by
  have hcnt (bits : ℕ → Bool) : Lzc.cnt_o 2 bits < 2 := Lzc.cnt_o_lt (by decide)
  simp only [step, RrArbTree.step, RrArbTree.rr_d]
  split_ifs
  · exact hcnt _
  · exact hcnt _
  · exact hrr

end Pspin.SocDmaWrap
