/-
Runs of `soc_dma_wrap` with a DMA engine that answers each transfer once.

The system keeps, for each port, the commands that were accepted, the transfers the engine
took, how many of them it answered, and the responses that were given. While the engine
takes no transfer without room for its id, the transfers are those of the accepted
commands, the responses are their ids in order, and an answer is passed on within twice as
many cycles as the FIFO of its port is deep.
-/
import Mathlib.Algebra.Order.Ring.Nat
import Pspin.SocDmaWrap
import Pspin.Sync

set_option autoImplicit false

namespace Pspin.SocDmaWrap

/-- The wrapper with the commands that it accepted, what the engines got, and the responses. -/
structure Sys where
  hw : State
  commands : port_t → List pspin_cmd_t
  transfers : port_t → List transf_descr_soc_t
  /-- What the engine answered. -/
  answers : port_t → ℕ
  responses : port_t → List pspin_cmd_id_t

namespace Sys

variable (RespFIFODepth : ℕ)

def init : Sys := ⟨reset, fun _ => [], fun _ => [], fun _ => 0, fun _ => []⟩

/-- A clock edge, which writes down what passes. An engine may take a transfer whose command is not
accepted: `transfers` and `commands` are two lists. -/
def step (s : Sys) (i : Input) : Sys where
  hw := SocDmaWrap.step RespFIFODepth s.hw i
  commands := fun p =>
    s.commands p ++ if accepted RespFIFODepth s.hw i p then [i.cmd_req_i] else []
  transfers := fun p => s.transfers p ++ if handed_over i p then [xfer_descr i.cmd_req_i] else []
  answers := fun p => s.answers p + (i.resp_valid p).toNat
  responses := fun p => s.responses p ++ if responds s.hw p then [cmd_resp_o s.hw] else []

/-- The engine answers no more than it took. -/
def Env (s : Sys) (i : Input) : Prop :=
  ∀ p, (step RespFIFODepth s i).answers p ≤ ((step RespFIFODepth s i).transfers p).length

/-- The command of this cycle is handed over once. -/
def Once (s : Sys) (i : Input) : Prop := SocDmaWrap.Once RespFIFODepth s.hw i

/-- The id FIFO of its engine has room. -/
def Room (s : Sys) (i : Input) : Prop := SocDmaWrap.Room RespFIFODepth s.hw i

/-- Each transfer is that of its command, and each answer is passed on as the response to
the next command of its port. -/
structure Answered (s : Sys) : Prop where
  transfers : ∀ p, s.transfers p = (s.commands p).map xfer_descr
  responses : ∀ p, s.responses p <+: (s.commands p).map (·.cmd_id)
  answers : ∀ p, (s.responses p).length ≤ s.answers p
  served : ∀ is, Sync.Allowed (step RespFIFODepth) (Env RespFIFODepth) s is →
    Sync.Allowed (step RespFIFODepth) (Room RespFIFODepth) s is → 2 * RespFIFODepth ≤ is.length →
    ∀ p, s.answers p ≤ ((Sync.run (step RespFIFODepth) s is).responses p).length

/-! ## The invariant -/

/-- What holds as long as there was room in every cycle. -/
structure Inv (s : Sys) : Prop where
  fifo : ∀ p, FifoV3.Inv RespFIFODepth (s.hw.i_resp_fifo p)
  /-- The ids in the FIFO are those of the commands that wait for a response. -/
  queue : ∀ p, s.responses p ++ FifoV3.elems RespFIFODepth (s.hw.i_resp_fifo p)
    = (s.commands p).map (·.cmd_id)
  transfers : ∀ p, s.transfers p = (s.commands p).map xfer_descr
  credits : ∀ p, (s.responses p).length + s.hw.to_pop_q p = s.answers p
  answers : ∀ p, s.answers p ≤ (s.transfers p).length
  unlocked : Unlocked s.hw
  rr : s.hw.i_resp_arb.rr_q < 2

variable {RespFIFODepth} {s : Sys} {i : Input} {p : port_t}

theorem inv_init (h0 : 0 < RespFIFODepth) (hD : RespFIFODepth < 2 ^ 32) :
    Inv RespFIFODepth init where
  fifo := fun _ => FifoV3.inv_reset _ h0 hD
  queue := fun _ => rfl
  transfers := fun _ => rfl
  credits := fun _ => rfl
  answers := fun _ => Nat.le_refl 0
  unlocked := rfl
  rr := by decide

/-- A cycle adds at most one response of an engine. -/
theorem responses_length : ((step RespFIFODepth s i).responses p).length
    = (s.responses p).length + (responds s.hw p).toNat :=
  Sync.length_append_if _ _ _

namespace Inv

/-- Every answer that waits has the id of its command in the FIFO. -/
theorem to_pop_le (h : Inv RespFIFODepth s) (p : port_t) :
    s.hw.to_pop_q p ≤ (FifoV3.elems RespFIFODepth (s.hw.i_resp_fifo p)).length := by
  have hq := congrArg List.length (h.queue p)
  have hc := h.credits p
  have ha := h.answers p
  rw [List.length_append, List.length_map] at hq
  rw [h.transfers p, List.length_map] at ha
  omega

/-- No more commands wait than the FIFO has places. -/
theorem elems_le (h : Inv RespFIFODepth s) (p : port_t) :
    (FifoV3.elems RespFIFODepth (s.hw.i_resp_fifo p)).length ≤ RespFIFODepth := by
  rw [FifoV3.length_elems]
  exact (h.fifo p).cnt_le

theorem not_empty (h : Inv RespFIFODepth s) (hr : responds s.hw p = true) :
    FifoV3.empty_o (s.hw.i_resp_fifo p) = false := by
  apply Bool.eq_false_of_not_eq_true
  intro he
  have hav := h.unlocked.avail hr
  have hle := h.to_pop_le p
  rw [FifoV3.empty_o_iff.mp he, List.length_nil] at hle
  omega

/-- The ids leave in the order of the commands. -/
theorem queue_step (h : Inv RespFIFODepth s) (i : Input) (p : port_t) :
    ((step RespFIFODepth s i).responses p)
        ++ FifoV3.elems RespFIFODepth ((step RespFIFODepth s i).hw.i_resp_fifo p)
      = ((step RespFIFODepth s i).commands p).map (·.cmd_id) := by
  have hpush : (resp_fifo_input RespFIFODepth s.hw i p).push_i = true →
      FifoV3.full_o RespFIFODepth (s.hw.i_resp_fifo p) = false := by
    rw [push_eq]
    exact fun hacc => (accepted_iff.mp hacc).2
  have hpop : (resp_fifo_input RespFIFODepth s.hw i p).pop_i = responds s.hw p := h.unlocked.pop_eq p
  have hqueue : s.responses p ++ (FifoV3.elems RespFIFODepth (s.hw.i_resp_fifo p)).map id
      = (s.commands p).map (·.cmd_id) := by
    rw [List.map_id]
    exact h.queue p
  have hfifo := (h.fifo p).served_step (b := i.cmd_req_i) hqueue hpush
    (fun hp => h.not_empty (hpop.symm.trans hp)) fun _ => rfl
  -- the response that is shown is the head of this FIFO
  have hshown : (if responds s.hw p then [cmd_resp_o s.hw] else [])
      = if responds s.hw p then [FifoV3.data_o (s.hw.i_resp_fifo p)] else [] := by
    split_ifs with hr
    · rw [responds, Bool.and_eq_true, beq_iff_eq] at hr
      rw [cmd_resp_o, hr.2]
    · rfl
  rw [List.map_id, hpop, push_eq] at hfifo
  simp only [step, hshown]
  exact hfifo

/-- With room, what the engine takes is what is accepted. -/
theorem transfers_step (h : Inv RespFIFODepth s) (hroom : Room RespFIFODepth s i) (p : port_t) :
    (step RespFIFODepth s i).transfers p
      = ((step RespFIFODepth s i).commands p).map xfer_descr := by
  have hacc : accepted RespFIFODepth s.hw i p = handed_over i p := by
    rw [Bool.eq_iff_iff]
    exact (once_iff.mpr hroom p).symm
  simp only [step, hacc, h.transfers p, List.map_append]
  congr 1
  split_ifs <;> rfl

/-- The counter neither overflows nor goes below zero. -/
theorem to_pop_step (h : Inv RespFIFODepth s)
    (hle : s.hw.to_pop_q p + (i.resp_valid p).toNat
      ≤ RespFIFODepth + (responds s.hw p).toNat) :
    (step RespFIFODepth s i).hw.to_pop_q p + (responds s.hw p).toNat
      = s.hw.to_pop_q p + (i.resp_valid p).toNat := by
  -- the counter has one bit more than the depth calls for
  have hwidth : RespFIFODepth < 2 ^ (Nat.clog 2 RespFIFODepth + 1) := by
    have hclog := Nat.le_pow_clog (by decide : 1 < 2) RespFIFODepth
    have hpos := Nat.two_pow_pos (Nat.clog 2 RespFIFODepth)
    rw [Nat.pow_succ]
    omega
  have hbound := (h.to_pop_le p).trans (h.elems_le p)
  have hpos := h.unlocked.avail (p := p)
  show to_pop_d RespFIFODepth s.hw i p + _ = _
  rw [to_pop_d, h.unlocked.pop_eq]
  cases hrv : i.resp_valid p <;> cases hr : responds s.hw p <;>
    simp only [hrv, hr, Bool.toNat_true, Bool.toNat_false] at hle hpos ⊢
  · have hq := hpos trivial
    rw [Counter.dec_eq hq (by omega)]
    omega
  · rw [Counter.inc_eq (by omega)]

/-- Every cycle with room keeps the invariant. -/
theorem step (h : Inv RespFIFODepth s) (he : Env RespFIFODepth s i)
    (hroom : Room RespFIFODepth s i) : Inv RespFIFODepth (step RespFIFODepth s i) := by
  have hfifo : ∀ p, FifoV3.Inv RespFIFODepth ((Sys.step RespFIFODepth s i).hw.i_resp_fifo p) :=
    fun p => (h.fifo p).step _
  have hto_pop : ∀ p, (Sys.step RespFIFODepth s i).hw.to_pop_q p + (responds s.hw p).toNat
      = s.hw.to_pop_q p + (i.resp_valid p).toNat := by
    intro p
    apply h.to_pop_step
    -- what is answered is in the FIFO after the edge
    have hle : s.answers p + (i.resp_valid p).toNat ≤ _ := he p
    have hq := congrArg List.length (h.queue_step i p)
    have hcnt := (hfifo p).cnt_le
    rw [h.transfers_step hroom, List.length_map] at hle
    rw [List.length_append, List.length_map, FifoV3.length_elems, responses_length] at hq
    have hc := h.credits p
    omega
  refine ⟨hfifo, h.queue_step i, h.transfers_step hroom, ?_, he, unlocked_step, rr_step h.rr⟩
  intro p
  have hc := h.credits p
  have ht := hto_pop p
  rw [responses_length]
  show _ = s.answers p + (i.resp_valid p).toNat
  omega

end Inv

/-! ## Responses that are owed -/

/-- The other engine goes first at most once. -/
theorem turn_le (s : State) (p : port_t) : turn s p ≤ 1 := by
  unfold turn
  split_ifs <;> decide

/-- How long the port may have to wait until it has given `n` responses. -/
def owed (s : Sys) (p : port_t) (n : ℕ) : ℕ := 2 * (n - (s.responses p).length) - turn s.hw p

/-- Every cycle brings an answered command nearer to its response. -/
theorem owed_step (h : Inv RespFIFODepth s) {n : ℕ} (hn : n ≤ s.answers p) :
    owed (step RespFIFODepth s i) p n ≤ owed s p n - 1 := by
  have hturn := turn_le s.hw p
  have hc := h.credits p
  unfold owed
  cases hr : responds s.hw p with
  | true =>
    rw [responses_length, hr, Bool.toNat_true]
    omega
  | false =>
    rw [responses_length, hr, Bool.toNat_false, Nat.add_zero]
    by_cases hav : fifo_resp_avail s.hw p = true
    · have hnext : turn s.hw p = 0 ∧ turn (step RespFIFODepth s i).hw p = 1 :=
        h.unlocked.turn_step h.rr hav hr
      omega
    · -- nothing waits, so all answers are passed on
      rw [fifo_resp_avail, decide_eq_true_eq] at hav
      omega

theorem owed_run {is : List Input} : ∀ {s : Sys}, Inv RespFIFODepth s →
    Sync.Allowed (step RespFIFODepth) (Env RespFIFODepth) s is →
    Sync.Allowed (step RespFIFODepth) (Room RespFIFODepth) s is → ∀ {n : ℕ}, n ≤ s.answers p →
    owed (Sync.run (step RespFIFODepth) s is) p n ≤ owed s p n - is.length := by
  induction is with
  | nil => exact fun _ _ _ _ _ => Nat.le_refl _
  | cons i is ih =>
    intro s h he hroom n hn
    have hstep := owed_step h (i := i) hn
    have hmore : n ≤ (step RespFIFODepth s i).answers p := hn.trans (Nat.le_add_right _ _)
    have hrest := ih (h.step he.1 hroom.1) he.2 hroom.2 hmore
    rw [List.length_cons]
    show owed (Sync.run _ (step RespFIFODepth s i) is) p n ≤ _
    omega

/-- What the invariant says of an answer. -/
theorem Inv.answered (h : Inv RespFIFODepth s) : Answered RespFIFODepth s where
  transfers := h.transfers
  responses := fun p => ⟨_, h.queue p⟩
  answers := fun p => by
    rw [← h.credits p]
    exact Nat.le_add_right _ _
  served := by
    intro is he hroom hlong p
    have hrun := owed_run h he hroom (Nat.le_refl (s.answers p))
    have hc := h.credits p
    have hbound := (h.to_pop_le p).trans (h.elems_le p)
    have hturn := turn_le (Sync.run (Sys.step RespFIFODepth) s is).hw p
    unfold owed at hrun
    omega

/-! ## The wrapper -/

/-- **Commands are handed over once, where there is room.** In every run, each command and
its transfer are taken in the same cycle, and every accepted command gets its response, if
and only if the engine never takes a transfer while the FIFO of its port is full. -/
theorem hands_over_iff (h0 : 0 < RespFIFODepth) (hD : RespFIFODepth < 2 ^ 32) {is : List Input}
    (he : Sync.Allowed (step RespFIFODepth) (Env RespFIFODepth) init is) :
    (Sync.Allowed (step RespFIFODepth) (Once RespFIFODepth) init is
        ∧ Sync.Always (step RespFIFODepth) (Answered RespFIFODepth) init is)
      ↔ Sync.Allowed (step RespFIFODepth) (Room RespFIFODepth) init is := by
  constructor
  · rintro ⟨honce, -⟩
    exact honce.mono fun _ _ => once_iff.mp
  · intro hroom
    refine ⟨hroom.mono fun _ _ => once_iff.mpr, ?_⟩
    have hinv := Sync.Always.of_inv (fun s i h hei => h.step hei.1 hei.2) (inv_init h0 hD)
      (he.and hroom)
    exact hinv.mono fun _ => Inv.answered

/-! A command to the host is accepted and answered, one from the host is refused. -/

instance (P : port_t → Prop) [DecidablePred P] : Decidable (∀ p, P p) :=
  decidable_of_iff (P .rx ∧ P .tx) ⟨fun h p => by cases p; exacts [h.1, h.2], fun h => ⟨h _, h _⟩⟩

instance (s : Sys) (i : Input) : Decidable (Env RespFIFODepth s i) :=
  inferInstanceAs (Decidable (∀ _, _))

instance (s : Sys) (i : Input) : Decidable (Once RespFIFODepth s i) :=
  inferInstanceAs (Decidable (∀ _, _))

instance (s : Sys) (i : Input) : Decidable (Room RespFIFODepth s i) :=
  inferInstanceAs (Decidable (¬_))

/-- A command of 64 bytes, to the host or from there. -/
def demo_cmd (to_host : Bool) : pspin_cmd_t where
  intf_id := CMD_EDMA_ID
  cmd_id := ⟨1, 2, 3⟩
  cmd_type := .HostMemCpy
  descr :=
    ⟨fun w => if w.val = 3 then 64 else if w.val = 4 then (BitVec.ofBool to_host).setWidth 32 else 0⟩
  generate_event := false

/-- A cycle with a command in one direction. -/
def demo_cycle (to_host ready answer : Bool) : Input where
  cmd_req_valid_i := true
  cmd_req_i := demo_cmd to_host
  req_ready := fun _ => ready
  resp_valid := fun p => answer && p == .rx

/-- Accepted, refused, and answered. -/
def demo_run : List Input :=
  [demo_cycle true true false, demo_cycle false false true, demo_cycle false false false]

theorem hands_over_iff_demo :
    Sync.Allowed (step soc_depth) (Once soc_depth) init demo_run
      ∧ Sync.Always (step soc_depth) (Answered soc_depth) init demo_run :=
  (hands_over_iff (by decide) (by decide) (by decide +kernel)).mpr (by decide +kernel)

/-- The engine takes 77 transfers before it answers one. -/
theorem not_handed_over_once : ¬∀ is, Sync.Allowed (step soc_depth) (Env soc_depth) init is →
    Sync.Allowed (step soc_depth) (Once soc_depth) init is ∧ Sync.Always (step soc_depth) (Answered soc_depth) init is := by
  intro h
  have hrun := h (List.replicate 77 (demo_cycle true true false)) (by decide +kernel)
  exact absurd hrun.1 (by decide +kernel)

end Sys

end Pspin.SocDmaWrap
