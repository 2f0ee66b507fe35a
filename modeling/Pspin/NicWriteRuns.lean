/-
Runs of `NICInbound` with its AXI master, and when a HER becomes ready.

`Sys` records the accepted packets, each with its HER and its length, the number of
responses, the HERs that became ready, and the AW beats that were driven. The responses
come in the order of the bursts, so the first ones belong to the first packet.

The packets wait in two queues: `write_queue` of the master counts the responses to come,
`queued_hers` holds the HERs. `Inv` keeps them aligned: the requests of the first are the
packets of the second, and the completed ones are those whose HERs became ready.
-/
import Pspin.NicHandshake
import Pspin.NicWrites

set_option autoImplicit false

namespace Pspin.NicWrites

open NicInbound
open AxiDriver (axi_ax_beat_t create_ax_beats_ne_nil length_create_ax_beats_le)
open AxiMaster (Responses Readies write_counts)
open BurstMarks (Outstanding completed)

/-- A cycle: what the application adds, the ports at the edge, the AXI lines, and the
payload of the packet that the edge accepts. -/
structure CycleInput where
  packets : List incoming_her_t
  eos : Bool
  input : Input
  responses : Responses
  readies : Readies
  pkt_data : ℕ → BitVec 8

structure Sys where
  nic : State
  axi : Axi
  accepted : List write_t
  responses : ℕ
  readied : List nic_her_t
  aw_driven : List (axi_ax_beat_t C_ADDR_WIDTH)

/-- The number of bursts that the write of a packet has. -/
def n_bursts (w : write_t) : ℕ := w.bursts.length

namespace Sys

/-- The NIC when the edge comes. -/
def nic_at_edge (s : Sys) (i : CycleInput) : State := app_calls s.nic i.packets i.eos

def edge (p : Params) (s : Sys) (i : CycleInput) : Option Edge :=
  axi_posedge p (nic_at_edge s i) s.axi i.input i.responses i.pkt_data

/-- The AW beat that an edge drives. -/
def driven (axi : Axi) : List (axi_ax_beat_t C_ADDR_WIDTH) :=
  if axi.aw_wait then [] else axi.aw_queue.take 1

/-- A cycle. Where an assertion fails the simulation ends, and nothing changes any more. -/
def step (p : Params) (s : Sys) (i : CycleInput) : Sys :=
  if i.input.pspin_active_i then
    match edge p s i with
    | none => s
    | some e =>
      { nic := e.nic
        axi := AxiMaster.negedge e.axi i.readies
        accepted := s.accepted ++ e.accepted.toList
        responses := s.responses + if i.responses.b_valid then 1 else 0
        readied := s.readied ++ if e.write_completed then s.nic.queued_hers.take 1 else []
        aw_driven := s.aw_driven ++ driven (progress_axi_writes s.axi) }
  else { s with nic := nic_at_edge s i, axi := AxiMaster.negedge s.axi i.readies }

def init (s : Sys) : Prop := ∃ her_o, s = ⟨reset her_o, AxiMaster.reset, [], 0, [], []⟩

/-- Packets are not empty, as `process_packet` takes their length, and there are no more
responses than bursts. -/
def env (s : Sys) (i : CycleInput) : Prop :=
  (∀ ih ∈ i.packets, 0 < ih.pkt_len % 2 ^ 32)
    ∧ (i.input.pspin_active_i = true → i.responses.b_valid = true →
      s.responses < (s.accepted.map n_bursts).sum)

instance (s : Sys) (i : CycleInput) : Decidable (env s i) := inferInstanceAs (Decidable (_ ∧ _))

/-! ## The invariant -/

/-- What the two queues have to do with the packets accepted and the HERs readied. -/
structure Aligned (queued_hers : List nic_her_t) (axi : Axi) (accepted : List write_t)
    (responses : ℕ) (readied : List nic_her_t) : Prop where
  b_beats_buffer_size : axi.b_beats_buffer_size = 0
  b_queue : axi.b_queue = []
  writes : Outstanding (accepted.map n_bursts) responses (write_counts axi)
  readied_length : readied.length = completed (accepted.map n_bursts) responses
  hers : readied ++ queued_hers = accepted.map (·.her)

/-- The Ax beats of the packets, in the order of the packets, driven or waiting. -/
def Beats (axi : Axi) (accepted : List write_t) (aw_driven : List (axi_ax_beat_t C_ADDR_WIDTH)) :
    Prop :=
  aw_driven ++ axi.aw_queue ++ axi.aw_pending_queue
    = accepted.flatMap fun w => w.bursts.map (·.beat)

structure Inv (s : Sys) : Prop where
  incoming : ∀ ih ∈ s.nic.incoming_hers, 0 < ih.pkt_len % 2 ^ 32
  aligned : Aligned s.nic.queued_hers s.axi s.accepted s.responses s.readied
  beats : Beats s.axi s.accepted s.aw_driven
  ready : s.nic.ready_hers <:+ s.readied

section Step

variable {p : Params} {s : Sys} {i : CycleInput} {axi axi₁ axi₂ : Axi} {w : write_t}
  {queued_hers : List nic_her_t} {accepted : List write_t} {responses : ℕ}
  {readied : List nic_her_t} {aw_driven : List (axi_ax_beat_t C_ADDR_WIDTH)}

theorem progress_axi_writes_frame (axi : Axi) :
    (progress_axi_writes axi).b_beats_buffer_size = axi.b_beats_buffer_size
      ∧ (progress_axi_writes axi).b_queue = axi.b_queue
      ∧ write_counts (progress_axi_writes axi) = write_counts axi
      ∧ (progress_axi_writes axi).aw_queue ++ (progress_axi_writes axi).aw_pending_queue
        = axi.aw_queue ++ axi.aw_pending_queue := by
  have hmove : ∀ {α : Type} (l l' : List α), l ++ l'.take 1 ++ l'.tail = l ++ l' := by
    intro α l l'
    rw [List.append_assoc, ← List.drop_one, List.take_append_drop]
  unfold progress_axi_writes
  simp only
  split_ifs
  · exact ⟨rfl, rfl, rfl, hmove _ _⟩
  · exact ⟨rfl, rfl, rfl, hmove _ _⟩
  · exact ⟨rfl, rfl, rfl, rfl⟩
  · exact ⟨rfl, rfl, rfl, rfl⟩

theorem Aligned.progress (h : Aligned queued_hers axi accepted responses readied) :
    Aligned queued_hers (progress_axi_writes axi) accepted responses readied := by
  obtain ⟨hsize, hb, hcounts, -⟩ := progress_axi_writes_frame axi
  exact ⟨hsize.trans h.b_beats_buffer_size, hb.trans h.b_queue, hcounts ▸ h.writes,
    h.readied_length, h.hers⟩

/-- A write that completes is that of the oldest queued HER. -/
theorem Aligned.queued (h : Aligned queued_hers axi accepted responses readied) {r : ℕ}
    (hcompleted : completed (accepted.map n_bursts) r
      = completed (accepted.map n_bursts) responses + 1)
    (hle : completed (accepted.map n_bursts) r ≤ accepted.length) : queued_hers ≠ [] := by
  rintro rfl
  have hlen := congrArg List.length h.hers
  rw [List.append_nil, h.readied_length, List.length_map] at hlen
  omega

/-- **The response of an edge.** If it completes a write there is a queued HER, and the
oldest one becomes ready. -/
theorem Aligned.respond (h : Aligned queued_hers axi accepted responses readied)
    {i : Responses} (hdue : i.b_valid = true → responses < (accepted.map n_bursts).sum)
    (hedge : AxiMaster.posedge axi i = some axi₁) :
    ((write_response axi₁).1 = true → queued_hers ≠ [])
      ∧ Aligned (if (write_response axi₁).1 then queued_hers.tail else queued_hers)
        (write_response axi₁).2 accepted (responses + if i.b_valid then 1 else 0)
        (readied ++ if (write_response axi₁).1 then queued_hers.take 1 else []) := by
  obtain ⟨hsize, -, -, queued, hb, hlen, hout, hcompleted⟩ :=
    AxiMaster.posedge_writes h.b_beats_buffer_size h.writes hdue hedge
  rw [h.b_queue, List.nil_append] at hb
  -- the one response is consumed at once
  have hresp : (write_response axi₁).1 = decide (queued.count true = 1)
      ∧ queued.count true ≤ 1
      ∧ (write_response axi₁).2.b_beats_buffer_size = axi₁.b_beats_buffer_size
      ∧ (write_response axi₁).2.b_queue = []
      ∧ write_counts (write_response axi₁).2 = write_counts axi₁ := by
    unfold write_response AxiMaster.has_b_beat AxiMaster.consume_b_beat
    rw [hb]
    match queued, hlen with
    | [], _ => exact ⟨rfl, Nat.zero_le _, rfl, hb, rfl⟩
    | [true], _ => exact ⟨rfl, by decide, rfl, rfl, rfl⟩
    | [false], _ => exact ⟨rfl, by decide, rfl, rfl, rfl⟩
    | _ :: _ :: _, hlen =>
      rw [List.length_cons, List.length_cons] at hlen
      split_ifs at hlen
      omega
  obtain ⟨hdone, hone, hsize', hb', hcounts⟩ := hresp
  rw [hdone, ← hlen]
  by_cases hlast : queued.count true = 1
  · -- the last burst of the oldest write
    have hqueued : queued_hers ≠ [] := by
      apply h.queued (hlast ▸ hcompleted)
      have hlen := hout.length
      rw [List.length_map] at hlen
      omega
    rw [decide_eq_true hlast, if_pos rfl, if_pos rfl]
    refine ⟨fun _ => hqueued, hsize'.trans hsize, hb', hcounts ▸ hout, ?_, ?_⟩
    · rw [hcompleted, hlast, List.length_append, h.readied_length, List.length_take]
      have hpos := List.length_pos_of_ne_nil hqueued
      omega
    · rw [List.append_assoc, ← List.drop_one, List.take_append_drop]
      exact h.hers
  · rw [decide_eq_false hlast, if_neg Bool.false_ne_true, if_neg Bool.false_ne_true,
      List.append_nil]
    refine ⟨fun hf => absurd hf Bool.false_ne_true, hsize'.trans hsize, hb', hcounts ▸ hout, ?_,
      h.hers⟩
    rw [hcompleted, h.readied_length]
    omega

/-- A write of a packet that is not empty. -/
theorem n_bursts_spec (hpos : 0 < w.n_bytes) :
    0 < n_bursts w ∧ (BitVec.ofNat 32 (n_bursts w)).toNat = n_bursts w := by
  have hlt : w.n_bytes < 2 ^ 32 := Nat.mod_lt _ (Nat.two_pow_pos 32)
  have hle : n_bursts w ≤ w.n_bytes := length_create_ax_beats_le
  refine ⟨List.length_pos_of_ne_nil (create_ax_beats_ne_nil hpos), ?_⟩
  rw [BitVec.toNat_ofNat, Nat.mod_eq_of_lt (by omega)]

/-- A packet is accepted: it is the last in both queues. -/
theorem Aligned.accept (h : Aligned queued_hers axi accepted responses readied)
    (hpos : 0 < w.n_bytes) {pkt_data : ℕ → BitVec 8}
    (hwrite : write_packet axi pkt_data (some w) = some axi₁) :
    Aligned (queued_hers ++ [w.her]) axi₁ (accepted ++ [w]) responses readied := by
  obtain ⟨w_pending_queue, rfl⟩ := AxiMaster.write_spec hwrite
  obtain ⟨hbursts, hcount⟩ := n_bursts_spec hpos
  obtain ⟨hout, hcompleted⟩ := h.writes.request hbursts
  have haccepted : (accepted ++ [w]).map n_bursts = accepted.map n_bursts ++ [n_bursts w] :=
    List.map_append
  refine ⟨h.b_beats_buffer_size, h.b_queue, ?_, ?_, ?_⟩
  · rw [haccepted, write_counts, List.map_append, List.map_singleton]
    have hentry : (BitVec.ofNat 32 (AxiDriver.create_ax_beats w.her.her_addr w.n_bytes).length).toNat
      = n_bursts w := hcount
    rw [hentry]
    exact hout
  · rw [haccepted, hcompleted]
    exact h.readied_length
  · rw [← List.append_assoc, h.hers, List.map_append, List.map_singleton]

/-! ## The Ax beats -/

theorem Beats.progress (h : Beats axi accepted aw_driven) :
    Beats (progress_axi_writes axi) accepted aw_driven := by
  have hframe := (progress_axi_writes_frame axi).2.2.2
  unfold Beats at *
  rw [List.append_assoc] at h ⊢
  rw [hframe]
  exact h

/-- The oldest beat leaves, unless it waits. -/
theorem Beats.drive (h : Beats axi accepted aw_driven)
    (haw : axi₁.aw_queue = if axi.aw_wait then axi.aw_queue else axi.aw_queue.tail)
    (hpending : axi₁.aw_pending_queue = axi.aw_pending_queue) :
    Beats axi₁ accepted (aw_driven ++ driven axi) := by
  unfold Beats driven at *
  rw [haw, hpending]
  split_ifs
  · rw [List.append_nil]
    exact h
  · rw [← h, List.append_assoc aw_driven, ← List.drop_one, List.take_append_drop]

theorem Beats.accept (h : Beats axi accepted aw_driven) {pkt_data : ℕ → BitVec 8}
    (hwrite : write_packet axi pkt_data (some w) = some axi₁) :
    Beats axi₁ (accepted ++ [w]) aw_driven := by
  obtain ⟨w_pending_queue, rfl⟩ := AxiMaster.write_spec hwrite
  unfold Beats at *
  rw [List.flatMap_append, List.flatMap_singleton, ← h]
  exact (List.append_assoc _ _ _).symm

/-! ## A cycle -/

/-- The edge finds the queues of the last cycle, and packets that are not empty. -/
theorem Inv.nic_at_edge (h : Inv s) (he : env s i) :
    (nic_at_edge s i).queued_hers = s.nic.queued_hers
      ∧ (nic_at_edge s i).ready_hers = s.nic.ready_hers
      ∧ ∀ ih ∈ (nic_at_edge s i).incoming_hers, 0 < ih.pkt_len % 2 ^ 32 := by
  obtain ⟨happ, hqueued⟩ := app_calls_port s.nic i.packets i.eos
  refine ⟨hqueued, happ.ready_hers, fun ih hih => ?_⟩
  rw [Sys.nic_at_edge, app_calls_eq] at hih
  rcases List.mem_append.mp hih with hih | hih
  · exact h.incoming ih hih
  · exact he.1 ih hih

/-- The HERs after `progress_axi_write_responses`. -/
theorem write_responses_queues {nic nic₁ : State} {write_completed : Bool}
    (h : progress_axi_write_responses nic write_completed = some nic₁) :
    nic₁.queued_hers = (if write_completed then nic.queued_hers.tail else nic.queued_hers)
      ∧ nic₁.ready_hers
        = nic.ready_hers ++ (if write_completed then nic.queued_hers.take 1 else [])
      ∧ nic₁.incoming_hers = nic.incoming_hers := by
  unfold progress_axi_write_responses at h
  cases write_completed with
  | false =>
    obtain rfl := Option.some.inj h
    exact ⟨rfl, (List.append_nil _).symm, rfl⟩
  | true =>
    rw [if_pos rfl] at h
    cases hq : nic.queued_hers with
    | nil =>
      rw [hq] at h
      exact absurd h (by simp)
    | cons her rest =>
      rw [hq] at h
      obtain rfl := Option.some.inj h
      exact ⟨rfl, rfl, rfl⟩

/-- **An edge.** First the response, then the packet that is accepted. -/
theorem Inv.edge (h : Inv s) (he : env s i) (hactive : i.input.pspin_active_i = true) {e : Edge}
    (hedge : Sys.edge p s i = some e) : Inv (Sys.step p s i) := by
  have hstep : Sys.step p s i
      = ⟨e.nic, AxiMaster.negedge e.axi i.readies, s.accepted ++ e.accepted.toList,
        s.responses + (if i.responses.b_valid then 1 else 0),
        s.readied ++ (if e.write_completed then s.nic.queued_hers.take 1 else []),
        s.aw_driven ++ driven (progress_axi_writes s.axi)⟩ := by
    rw [Sys.step, if_pos hactive, hedge]
  obtain ⟨axi₁, nic₁, hmaster, hdone, hresp, haccepted, hwrite, hposedge⟩ := axi_posedge_spec hedge
  obtain ⟨hqueued, hready, hincoming⟩ := h.nic_at_edge he
  obtain ⟨-, haligned⟩ := h.aligned.progress.respond (he.2 hactive) hmaster
  obtain ⟨-, haw, hpending, -⟩ := AxiMaster.posedge_writes h.aligned.progress.b_beats_buffer_size
    h.aligned.progress.writes (he.2 hactive) hmaster
  have hdriven := h.beats.progress.drive haw hpending
  obtain ⟨hqueued₁, hready₁, hincoming₁⟩ := write_responses_queues hresp
  obtain ⟨hqueued₂, hincoming₂, hready₂⟩ := posedge_queues
    (i := { i.input with write_completed := e.write_completed }) hactive hresp hposedge
  rw [hqueued] at hqueued₁ hready₁
  rw [← hdone, ← hqueued₁] at haligned
  have hqueued₂ : e.nic.queued_hers = nic₁.queued_hers ++ (e.accepted.map (·.her)).toList :=
    haccepted ▸ hqueued₂
  -- the response leaves the Ax beats alone
  have hbeats : Beats (write_response axi₁).2 s.accepted
      (s.aw_driven ++ driven (progress_axi_writes s.axi)) := by
    unfold write_response
    split_ifs
    · exact hdriven
    · exact hdriven
  have hready₃ : e.nic.ready_hers
      <:+ s.readied ++ (if e.write_completed then s.nic.queued_hers.take 1 else []) := by
    apply hready₂.trans
    rw [hready₁, hready]
    obtain ⟨before, hbefore⟩ := h.ready
    exact ⟨before, by rw [← List.append_assoc, hbefore]⟩
  have hincoming₃ : ∀ ih ∈ e.nic.incoming_hers, 0 < ih.pkt_len % 2 ^ 32 := by
    intro ih hih
    exact hincoming ih (hincoming₁ ▸ hincoming₂.subset hih)
  rw [hstep]
  cases hacc : e.accepted with
  | none =>
    rw [hacc] at hwrite hqueued₂
    have haxi : (write_response axi₁).2 = e.axi := Option.some.inj hwrite
    have hqueued₂ : e.nic.queued_hers = nic₁.queued_hers :=
      hqueued₂.trans (List.append_nil nic₁.queued_hers)
    have haccepted' : s.accepted ++ (none : Option write_t).toList = s.accepted :=
      List.append_nil _
    rw [← hqueued₂, haxi] at haligned
    rw [haxi] at hbeats
    rw [haccepted']
    exact ⟨hincoming₃, ⟨haligned.1, haligned.2, haligned.3, haligned.4, haligned.5⟩, hbeats, hready₃⟩
  | some w =>
    rw [hacc] at hwrite hqueued₂ haccepted
    obtain ⟨ih, hih, hlen⟩ := accepting_mem haccepted.symm
    have hpos : 0 < w.n_bytes := by
      rw [write_t.n_bytes, hlen]
      exact hincoming ih (hincoming₁ ▸ hih)
    have hnext := haligned.accept hpos hwrite
    have hbeats := hbeats.accept hwrite
    have hqueued₂ : e.nic.queued_hers = nic₁.queued_hers ++ [w.her] := hqueued₂
    rw [← hqueued₂] at hnext
    exact ⟨hincoming₃, ⟨hnext.1, hnext.2, hnext.3, hnext.4, hnext.5⟩, hbeats, hready₃⟩

theorem Inv.step (h : Inv s) (he : env s i) : Inv (Sys.step p s i) := by
  obtain ⟨hqueued, hready, hincoming⟩ := h.nic_at_edge he
  by_cases hactive : i.input.pspin_active_i = true
  · cases hedge : Sys.edge p s i with
    | none =>
      rw [Sys.step, if_pos hactive, hedge]
      exact h
    | some e => exact h.edge he hactive hedge
  · rw [Sys.step, if_neg hactive]
    refine ⟨hincoming, ?_, h.beats, ?_⟩
    · have haligned := h.aligned
      rw [← hqueued] at haligned
      exact ⟨haligned.1, haligned.2, haligned.3, haligned.4, haligned.5⟩
    · show (Sys.nic_at_edge s i).ready_hers <:+ s.readied
      rw [hready]
      exact h.ready

theorem Inv.init (h : Sys.init s) : Inv s := by
  obtain ⟨her_o, rfl⟩ := h
  exact ⟨by simp [reset], ⟨rfl, rfl, Outstanding.none, rfl, rfl⟩, rfl, List.suffix_refl _⟩

theorem inv (h : Sync.Reach Sys.init (Sys.step p) env s) : Inv s :=
  h.inv (fun _ => Inv.init) (fun _ _ => Inv.step)

/-- Neither the assertion on `write_queue` fails in a cycle nor that on `queued_hers`. -/
def AssertsHold (s : Sys) (i : CycleInput) : Prop :=
  (AxiMaster.b_posedge (AxiMaster.before_responses (progress_axi_writes s.axi))
      i.responses).isSome = true
    ∧ ∀ axi, AxiMaster.posedge (progress_axi_writes s.axi) i.responses = some axi →
      (progress_axi_write_responses (Sys.nic_at_edge s i) (write_response axi).1).isSome = true

theorem Inv.asserts (h : Inv s) (he : env s i) (hactive : i.input.pspin_active_i = true) :
    AssertsHold s i := by
  have haligned := h.aligned.progress
  refine ⟨?_, fun axi hmaster => ?_⟩
  · exact AxiMaster.b_posedge_isSome haligned.b_beats_buffer_size haligned.writes (he.2 hactive)
  · obtain ⟨hne, -⟩ := haligned.respond (he.2 hactive) hmaster
    rw [← (h.nic_at_edge he).1] at hne
    unfold progress_axi_write_responses
    by_cases hdone : (write_response axi).1 = true
    · rw [if_pos hdone]
      cases hq : (Sys.nic_at_edge s i).queued_hers with
      | nil => exact absurd hq (hne hdone)
      | cons her rest => rfl
    · rw [if_neg hdone]
      rfl

/-- **No HER before its data.** The HERs become ready in the order in which their packets
were accepted, each once and with the address at which its own packet is written. The
first `k` packets have their HERs ready exactly when the responses of all their bursts
have arrived. The two assertions do not fail in any cycle. -/
theorem no_her_before_data (h : Sync.Reach Sys.init (Sys.step p) env s) :
    s.readied = (s.accepted.map (·.her)).take s.readied.length
      ∧ (∀ k ≤ s.accepted.length,
        (k ≤ s.readied.length ↔ ((s.accepted.take k).map n_bursts).sum ≤ s.responses))
      ∧ s.nic.ready_hers <:+ s.readied
      ∧ s.aw_driven ++ s.axi.aw_queue ++ s.axi.aw_pending_queue
        = s.accepted.flatMap (fun w => w.bursts.map (·.beat))
      ∧ ∀ i, env s i → i.input.pspin_active_i = true → AssertsHold s i := by
  have hinv := inv h
  refine ⟨?_, ?_, hinv.ready, hinv.beats, fun i he hactive => hinv.asserts he hactive⟩
  · rw [← hinv.aligned.hers, List.take_left]
  · intro k hk
    rw [hinv.aligned.readied_length, hinv.aligned.writes.le_completed_iff (by simpa using hk),
      List.map_take]

end Step

/-! A packet of 5000 bytes at the start of a page has two bursts. Its HER becomes ready with
the second response. -/

def demo_start : Sys :=
  ⟨reset ⟨0, true, 0, 64, 64, NicInbound.Sys.demo_meta⟩, AxiMaster.reset, [], 0, [], []⟩

def demo_cycle (packets : List incoming_her_t) (b_valid : Bool) : CycleInput where
  packets := packets
  eos := false
  input := ⟨true, true, 0, 0, false, 0⟩
  responses := ⟨b_valid, false, false, fun _ => 0⟩
  readies := ⟨true, true, true⟩
  pkt_data := fun _ => 0

/-- The packet, a cycle without a response, and as many with one. -/
def demo_end (n : ℕ) : Sys :=
  Sync.run (step NicInbound.Sys.demo_params) demo_start
    ([demo_cycle [{ NicInbound.Sys.demo_packet with pkt_len := 5000 }] false, demo_cycle [] false]
      ++ List.replicate n (demo_cycle [] true))

theorem no_her_before_data_demo :
    (demo_end 1).readied = [] ∧ (demo_end 2).readied.length = 1
      ∧ (demo_end 2).readied
        = ((demo_end 2).accepted.map (·.her)).take (demo_end 2).readied.length := by
  have hreach : Sync.Reach init (step NicInbound.Sys.demo_params) env (demo_end 2) :=
    Sync.Reach.run (.reset ⟨_, rfl⟩) (by decide +kernel)
  exact ⟨by decide +kernel, by decide +kernel, (no_her_before_data hreach).1⟩

end Sys

end Pspin.NicWrites
