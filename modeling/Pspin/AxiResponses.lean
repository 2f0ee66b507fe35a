/-
The responses of an AXI port, and the buffers of `AXIMaster` that they go to.

The master looks at the lines of a channel after a rising edge. A beat that is valid there and
finds room is put in the buffer at once, and ready goes high; the handshake takes place at the
next rising edge. Ready never goes low again, so from the first beat on every valid beat is
taken, whether it found room or not. One that did not is lost.

`responses_stored_iff` says that nothing is lost in exactly the runs where every valid beat
finds room.
-/
import Pspin.AxiReads
import Pspin.Sync

set_option autoImplicit false

namespace Pspin.AxiResponses

open AxiDriver (AXI_SW)
open AxiMaster
open AxiReads (op_t read_t)

/-! ## One channel -/

/-- A buffer behind a ready line, the beat on the lines of the channel while valid, the beats
taken at the edges so far, and those delivered out of the buffer. -/
structure Channel (α : Type) where
  size : ℕ
  queue : List α
  ready : Bool
  line : Option α
  taken : List α
  delivered : List α

namespace Channel

variable {α : Type} (c : Channel α)

/-- The beat for which valid and ready are both high: it is taken at the next edge. -/
def shaken : List α := if c.ready then c.line.toList else []

/-- There is no beat, or room for it. -/
def Finds (line : Option α) : Prop := line.isSome = true → has_room c.size c.queue.length = true

/-- A rising edge takes the beat of the handshake. The next one on the lines is stored and
makes the channel ready, if it finds room. -/
def edge (line : Option α) : Channel α :=
  { c with
    taken := c.taken ++ c.shaken
    line := line
    queue := c.queue ++ if has_room c.size c.queue.length then line.toList else []
    ready := c.ready || (line.isSome && has_room c.size c.queue.length) }

def consume : Channel α :=
  { c with
    queue := c.queue.tail
    delivered := c.delivered ++ c.queue.take 1 }

/-- Every beat taken, or about to be, was stored once and is delivered in order. -/
structure Stored : Prop where
  order : c.delivered ++ c.queue = c.taken ++ c.shaken
  fits : c.size = 0 ∨ c.queue.length ≤ c.size

/-- A full buffer has had a beat, so the channel is ready. -/
def Latched : Prop := has_room c.size c.queue.length = false → c.ready = true

variable {c}

theorem has_room_iff {size length : ℕ} : has_room size length = true ↔ size = 0 ∨ length < size := by
  rw [has_room, Bool.or_eq_true, beq_iff_eq, decide_eq_true_eq]

theorem Latched.edge (h : c.Latched) (line : Option α) : (c.edge line).Latched := by
  intro hfull
  unfold Channel.edge at hfull ⊢
  simp only at hfull ⊢
  by_cases hroom : has_room c.size c.queue.length = true
  · -- the buffer has become full, with the beat on the lines
    rw [if_pos hroom] at hfull
    cases line with
    | none => simp [hroom] at hfull
    | some x => simp [hroom]
  · rw [h (Bool.eq_false_of_not_eq_true hroom), Bool.true_or]

theorem Latched.consume (h : c.Latched) : c.consume.Latched := by
  intro hfull
  apply h
  rw [Bool.eq_false_iff, Ne, has_room_iff] at hfull ⊢
  have hless : c.queue.tail.length = c.queue.length - 1 := List.length_tail
  simp only [Channel.consume] at hfull
  omega

/-- **An edge** keeps the beats in order exactly when the one on the lines finds room. -/
theorem stored_edge (hready : c.Latched) (h : c.Stored) (line : Option α) :
    (c.edge line).Stored ↔ c.Finds line := by
  have horder : ∀ x, (c.edge line).delivered ++ (c.queue ++ x)
      = (c.edge line).taken ++ x := by
    intro x
    show c.delivered ++ (c.queue ++ x) = c.taken ++ c.shaken ++ x
    rw [← List.append_assoc, h.order]
  unfold Finds
  cases line with
  | none =>
      refine iff_of_true ⟨?_, ?_⟩ (by simp)
      · simpa [Channel.edge, shaken] using horder []
      · simpa [Channel.edge] using h.fits
  | some x =>
      by_cases hroom : has_room c.size c.queue.length = true
      · refine iff_of_true ⟨?_, ?_⟩ fun _ => hroom
        · simpa [Channel.edge, shaken, hroom] using horder [x]
        · have hsize := has_room_iff.mp hroom
          simp only [Channel.edge, hroom, if_true, Option.toList_some, List.length_append,
            List.length_singleton]
          omega
      · -- a full buffer: the beat is taken all the same
        refine iff_of_false ?_ fun hall => hroom (hall rfl)
        rintro ⟨hlost, -⟩
        have hsame := horder []
        rw [List.append_nil, List.append_nil] at hsame
        have hlatch := hready (Bool.eq_false_of_not_eq_true hroom)
        have hqueue : (c.edge (some x)).queue = c.queue := by
          simp [Channel.edge, hroom]
        have hshaken : (c.edge (some x)).shaken = [x] := by
          simp [Channel.edge, shaken, hlatch]
        rw [hqueue, hshaken, hsame] at hlost
        exact absurd hlost (by simp)

theorem Stored.consume (h : c.Stored) : c.consume.Stored := by
  refine ⟨?_, ?_⟩
  · show c.delivered ++ c.queue.take 1 ++ c.queue.tail = c.taken ++ c.shaken
    rw [List.append_assoc, ← List.drop_one, List.take_append_drop, h.order]
  · have hless : c.queue.tail.length = c.queue.length - 1 := List.length_tail
    have hfits := h.fits
    simp only [Channel.consume]
    omega

end Channel

/-! ## The system -/

/-- The master, the response lines since the last rising edge, the responses taken at the
edges, and those delivered. -/
structure Sys (AW : ℕ) where
  axi : State AW
  lines : Responses
  b_taken : ℕ
  r_taken : List (ℕ → BitVec 8)
  b_delivered : List Bool
  r_delivered : List (ℕ → BitVec 8)

namespace Sys

variable {AW : ℕ} (s : Sys AW)

/-- Valid and ready are both high. -/
def b_shaken : Bool := s.axi.b_ready && s.lines.b_valid
def r_shaken : Bool := s.axi.r_ready && s.lines.r_valid

/-- A call or an edge. Where an assertion fails, the state stays. -/
def step : op_t AW → Sys AW
  | .read rd => { s with axi := read s.axi rd.addr rd.n_bytes }
  | .write addr data n_bytes offset =>
    { s with axi := (write s.axi addr data n_bytes offset).getD s.axi }
  | .send_aw_beat => { s with axi := send_aw_beat s.axi }
  | .send_ar_beat => { s with axi := send_ar_beat s.axi }
  | .send_w_beat => { s with axi := send_w_beat s.axi }
  | .posedge i =>
    match posedge s.axi i with
    | none => s
    | some axi =>
      { s with
        axi := axi
        lines := i
        b_taken := s.b_taken + s.b_shaken.toNat
        r_taken := s.r_taken ++ if s.r_shaken then [s.lines.r_data] else [] }
  | .negedge i => { s with axi := negedge s.axi i }
  | .consume_r_beat data_length =>
    match consume_r_beat s.axi data_length with
    | none => s
    | some (_, data, _, axi) => { s with axi := axi, r_delivered := s.r_delivered ++ [data] }
  | .consume_b_beat =>
    { s with
      axi := (consume_b_beat s.axi).2
      b_delivered := s.b_delivered ++ [(consume_b_beat s.axi).1] }

/-- A master with buffers of any sizes, and quiet lines. -/
def init (s : Sys AW) : Prop :=
  ∃ aw ar w b r r_data, s = ⟨{ reset with
    aw_beats_buffer_size := aw
    ar_beats_buffer_size := ar
    w_beats_buffer_size := w
    b_beats_buffer_size := b
    r_beats_buffer_size := r }, ⟨false, false, false, r_data⟩, 0, [], [], []⟩

/-- No assertion fails, and the owner asks before it sends or consumes. -/
def allowed (s : Sys AW) : op_t AW → Prop
  | .read _ => True
  | .write addr data n_bytes offset => (write s.axi addr data n_bytes offset).isSome = true
  | .send_aw_beat => has_aw_beat s.axi = true ∧ can_send_aw_beat s.axi = true
  | .send_ar_beat => has_ar_beat s.axi = true ∧ can_send_ar_beat s.axi = true
  | .send_w_beat => has_w_beat s.axi = true ∧ can_send_w_beat s.axi = true
  | .posedge i => (posedge s.axi i).isSome = true
  | .negedge _ => True
  | .consume_r_beat _ => has_r_beat s.axi = true
  | .consume_b_beat => has_b_beat s.axi = true

instance (s : Sys AW) : (op : op_t AW) → Decidable (allowed s op)
  | .read _ | .negedge _ => inferInstanceAs (Decidable True)
  | .write .. | .posedge _ | .consume_r_beat _ | .consume_b_beat =>
    inferInstanceAs (Decidable (_ = true))
  | .send_aw_beat | .send_ar_beat | .send_w_beat =>
    inferInstanceAs (Decidable (_ = true ∧ _ = true))

/-- Every response taken, or on the lines with valid and ready both high, was stored once,
and they are delivered in order; the buffers keep their sizes. -/
structure Stored (s : Sys AW) : Prop where
  b : s.b_delivered.length + s.axi.b_queue.length = s.b_taken + s.b_shaken.toNat
  r : s.r_delivered ++ s.axi.r_queue.map (·.data)
    = s.r_taken ++ if s.r_shaken then [s.lines.r_data] else []
  b_fits : s.axi.b_beats_buffer_size = 0 ∨ s.axi.b_queue.length ≤ s.axi.b_beats_buffer_size
  r_fits : s.axi.r_beats_buffer_size = 0 ∨ s.axi.r_queue.length ≤ s.axi.r_beats_buffer_size

/-- The responses that are valid after an edge find room. -/
def good (s : Sys AW) : op_t AW → Prop
  | .posedge i =>
    (i.b_valid = true → has_room s.axi.b_beats_buffer_size s.axi.b_queue.length = true)
      ∧ (i.r_valid = true → has_room s.axi.r_beats_buffer_size s.axi.r_queue.length = true)
  | _ => True

instance (s : Sys AW) : (op : op_t AW) → Decidable (good s op)
  | .posedge _ => inferInstanceAs (Decidable ((_ = true → _ = true) ∧ (_ = true → _ = true)))
  | .read _ | .write .. | .send_aw_beat | .send_ar_beat | .send_w_beat | .negedge _
  | .consume_r_beat _ | .consume_b_beat => inferInstanceAs (Decidable True)

/-! ## The channels of the master -/

/-- The answers to writes; what tells them apart is their order. -/
def b : Channel Unit where
  size := s.axi.b_beats_buffer_size
  queue := s.axi.b_queue.map fun _ => ()
  ready := s.axi.b_ready
  line := if s.lines.b_valid then some () else none
  taken := List.replicate s.b_taken ()
  delivered := s.b_delivered.map fun _ => ()

/-- The data of reads. -/
def r : Channel (ℕ → BitVec 8) where
  size := s.axi.r_beats_buffer_size
  queue := s.axi.r_queue.map (·.data)
  ready := s.axi.r_ready
  line := if s.lines.r_valid then some s.lines.r_data else none
  taken := s.r_taken
  delivered := s.r_delivered

/-- A beat behind a gate, as the lines have it. -/
theorem gate_line {α : Type} (gate valid : Bool) (x : α) :
    (if gate then (if valid then some x else none).toList else [])
      = if gate && valid then [x] else [] := by
  cases gate <;> cases valid <;> rfl

theorem length_gate (b : Bool) : (if b then [()] else []).length = b.toNat := Sync.length_if b ()

theorem unit_list_eq_iff {l l' : List Unit} : l = l' ↔ l.length = l'.length := by
  refine ⟨congrArg List.length, fun h => ?_⟩
  exact List.ext_getElem h fun _ _ _ => rfl

variable {s}

theorem b_channel_shaken (s : Sys AW) : s.b.shaken = if s.b_shaken then [()] else [] :=
  gate_line _ _ _

theorem r_channel_shaken (s : Sys AW) :
    s.r.shaken = if s.r_shaken then [s.lines.r_data] else [] :=
  gate_line _ _ _

theorem stored_channels : Stored s ↔ s.b.Stored ∧ s.r.Stored := by
  have hb : s.b.delivered ++ s.b.queue = s.b.taken ++ s.b.shaken
      ↔ s.b_delivered.length + s.axi.b_queue.length = s.b_taken + s.b_shaken.toNat := by
    rw [unit_list_eq_iff, b_channel_shaken]
    simp only [b, List.length_append, List.length_map, List.length_replicate, length_gate]
  constructor
  · intro h
    refine ⟨⟨hb.mpr h.b, ?_⟩, ⟨?_, ?_⟩⟩
    · simpa [b] using h.b_fits
    · rw [r_channel_shaken]
      exact h.r
    · simpa [r] using h.r_fits
  · rintro ⟨h, h'⟩
    have hb_fits := h.fits
    have hr_order := h'.order
    have hr_fits := h'.fits
    rw [r_channel_shaken] at hr_order
    simp only [b, List.length_map] at hb_fits
    simp only [r, List.length_map] at hr_fits
    exact ⟨hb.mp h.order, hr_order, hb_fits, hr_fits⟩

/-- Whether a response finds room, on the channels. -/
theorem good_posedge {i : Responses} : good s (.posedge i)
    ↔ s.b.Finds (if i.b_valid then some () else none)
      ∧ s.r.Finds (if i.r_valid then some i.r_data else none) := by
  unfold good Channel.Finds b r
  simp only [List.length_map]
  cases i.b_valid <;> cases i.r_valid <;> simp

/-- What an edge does to the answers to writes. -/
theorem b_posedge_stores {m m' : State AW} {i : Responses} (h : b_posedge m i = some m') :
    ∃ write_queue queued, m' = { m with
        b_ready := m.b_ready || (i.b_valid && has_room m.b_beats_buffer_size m.b_queue.length)
        write_queue := write_queue
        b_queue := m.b_queue ++ queued }
      ∧ queued.length = (i.b_valid && has_room m.b_beats_buffer_size m.b_queue.length).toNat := by
  rw [b_posedge] at h
  by_cases hroom : (i.b_valid && has_room m.b_beats_buffer_size m.b_queue.length) = true
  · rw [if_pos hroom] at h
    -- an entry must be there, since the model fails otherwise; it counts down or leaves
    cases hq : m.write_queue with
    | nil => simp [hq] at h
    | cons entry rest =>
        rw [hq] at h
        obtain rfl := Option.some.inj h
        refine ⟨if entry.n_bursts - 1 == 0 then rest else ⟨entry.n_bursts - 1⟩ :: rest,
          [entry.n_bursts - 1 == 0], ?_, ?_⟩
        · rw [hroom, Bool.or_true]
        · rw [hroom]
          rfl
  · -- nothing is taken
    rw [if_neg hroom] at h
    refine ⟨m.write_queue, [], ?_, ?_⟩
    · rw [Bool.eq_false_of_not_eq_true hroom, Bool.or_false, List.append_nil]
      exact (Option.some.inj h).symm
    · rw [Bool.eq_false_of_not_eq_true hroom]
      rfl

/-- What an edge does to the data of reads. -/
theorem r_posedge_stores {m m' : State AW} {i : Responses} (h : r_posedge m i = some m') :
    ∃ read_queue queued, m' = { m with
        r_ready := m.r_ready || (i.r_valid && has_room m.r_beats_buffer_size m.r_queue.length)
        read_queue := read_queue
        r_queue := m.r_queue ++ queued }
      ∧ queued.map (·.data)
        = if i.r_valid && has_room m.r_beats_buffer_size m.r_queue.length then [i.r_data] else [] := by
  rw [r_posedge] at h
  by_cases hroom : (i.r_valid && has_room m.r_beats_buffer_size m.r_queue.length) = true
  · rw [if_pos hroom] at h
    cases hq : m.read_queue with
    | nil => simp [hq] at h
    -- an entry must be there, since the model fails otherwise; it counts down or leaves
    | cons entry rest =>
        rw [hq] at h
        obtain rfl := Option.some.inj h
        refine ⟨if (after_response entry i.r_last).2 then rest
          else (after_response entry i.r_last).1 :: rest,
          [⟨min AXI_SW entry.data_left.toNat, i.r_data, (after_response entry i.r_last).2⟩], ?_, ?_⟩
        · rw [hroom, Bool.or_true]
          rfl
        · rw [if_pos hroom]
          rfl
  · -- nothing is taken
    rw [if_neg hroom] at h
    refine ⟨m.read_queue, [], ?_, ?_⟩
    · rw [Bool.eq_false_of_not_eq_true hroom, Bool.or_false, List.append_nil]
      exact (Option.some.inj h).symm
    · rw [if_neg hroom]
      rfl

/-- **An edge of the master** is an edge of both channels. -/
theorem posedge_channels {i : Responses} (h : (posedge s.axi i).isSome = true) :
    (s.step (.posedge i)).b = s.b.edge (if i.b_valid then some () else none)
      ∧ (s.step (.posedge i)).r = s.r.edge (if i.r_valid then some i.r_data else none) := by
  obtain ⟨axi, haxi⟩ := Option.isSome_iff_exists.mp h
  obtain ⟨_, _, _, _, hbefore⟩ := before_responses_frame s.axi
  -- the two channels are served one after the other, and neither touches the other's fields
  obtain ⟨m, hb, hr⟩ := Option.bind_eq_some_iff.mp haxi
  have hb : b_posedge (before_responses s.axi) i = some m := hb
  rw [hbefore] at hb
  obtain ⟨_, b_queued, rfl, hb_queued⟩ := b_posedge_stores hb
  obtain ⟨_, r_queued, rfl, hr_queued⟩ := r_posedge_stores hr
  simp only at hb_queued hr_queued
  simp only [step, haxi, b, r, Channel.edge, Channel.mk.injEq, List.length_map, true_and,
    and_true]
  -- per channel: the queue, the ready line, and what has been taken
  refine ⟨⟨?_, ?_, ?_⟩, ?_, ?_, ?_⟩
  · rw [gate_line, List.map_append, List.append_cancel_left_eq, unit_list_eq_iff, List.length_map,
      hb_queued, length_gate, Bool.and_comm]
  · cases i.b_valid <;> rfl
  · show List.replicate (s.b_taken + s.b_shaken.toNat) () = List.replicate s.b_taken () ++ s.b.shaken
    rw [b_channel_shaken, List.replicate_add, List.append_cancel_left_eq, unit_list_eq_iff,
      List.length_replicate, length_gate]
  · rw [gate_line, List.map_append, hr_queued, Bool.and_comm]
  · cases i.r_valid <;> rfl
  · show s.r_taken ++ _ = s.r_taken ++ s.r.shaken
    rw [r_channel_shaken]

/-- **The other calls** of the owner take from a channel or leave it alone. -/
theorem call_channels {op : op_t AW} (h : allowed s op) (hop : ∀ i, op ≠ .posedge i) :
    ((s.step op).b = s.b ∨ (s.step op).b = s.b.consume)
      ∧ ((s.step op).r = s.r ∨ (s.step op).r = s.r.consume) := by
  cases op with
  | read rd => exact ⟨Or.inl rfl, Or.inl rfl⟩
  | write addr data n_bytes offset =>
      obtain ⟨axi, haxi⟩ := Option.isSome_iff_exists.mp h
      obtain ⟨_, rfl⟩ := write_spec haxi
      simp only [step, haxi, Option.getD_some]
      exact ⟨Or.inl rfl, Or.inl rfl⟩
  | send_aw_beat => exact ⟨Or.inl rfl, Or.inl rfl⟩
  | send_ar_beat => exact ⟨Or.inl rfl, Or.inl rfl⟩
  | send_w_beat => exact ⟨Or.inl rfl, Or.inl rfl⟩
  | posedge i => exact absurd rfl (hop i)
  | negedge i => exact ⟨Or.inl rfl, Or.inl rfl⟩
  -- only these two calls take something out of a queue
  | consume_r_beat data_length =>
      unfold step consume_r_beat
      cases hq : s.axi.r_queue with
      | nil => exact ⟨Or.inl rfl, Or.inl rfl⟩
      | cons beat rest =>
          refine ⟨Or.inl rfl, Or.inr ?_⟩
          simp [r, Channel.consume, hq]
  | consume_b_beat =>
      have hbeat : has_b_beat s.axi = true := h
      unfold step consume_b_beat
      cases hq : s.axi.b_queue with
      | nil => simp [has_b_beat, hq] at hbeat
      | cons beat rest =>
          refine ⟨Or.inr ?_, Or.inl rfl⟩
          simp [b, Channel.consume, hq]

/-! ## Every run -/

/-- Full buffers are ready. -/
def Latched (s : Sys AW) : Prop := s.b.Latched ∧ s.r.Latched

theorem init_latched (h : init s) : Latched s ∧ Stored s := by
  obtain ⟨_, _, _, b_size, r_size, _, rfl⟩ := h
  rw [stored_channels]
  refine ⟨⟨?_, ?_⟩, ⟨rfl, ?_⟩, ⟨rfl, ?_⟩⟩
  · intro hfull
    rw [Bool.eq_false_iff, Ne, Channel.has_room_iff] at hfull
    simp only [b, reset, List.map_nil, List.length_nil] at hfull
    omega
  · intro hfull
    rw [Bool.eq_false_iff, Ne, Channel.has_room_iff] at hfull
    simp only [r, reset, List.map_nil, List.length_nil] at hfull
    omega
  · exact Or.inr (Nat.zero_le _)
  · exact Or.inr (Nat.zero_le _)

theorem step_latched {op : op_t AW} (h : Latched s) (ha : allowed s op) : Latched (s.step op) := by
  by_cases hop : ∃ i, op = .posedge i
  · obtain ⟨i, rfl⟩ := hop
    obtain ⟨hb, hr⟩ := posedge_channels ha
    unfold Latched
    rw [hb, hr]
    exact ⟨h.1.edge _, h.2.edge _⟩
  · rw [not_exists] at hop
    obtain ⟨hb, hr⟩ := call_channels ha hop
    refine ⟨?_, ?_⟩
    · rcases hb with hb | hb <;> rw [hb]
      · exact h.1
      · exact h.1.consume
    · rcases hr with hr | hr <;> rw [hr]
      · exact h.2
      · exact h.2.consume

/-- **A call or an edge** keeps all responses exactly when those on the lines find room. -/
theorem stored_step {op : op_t AW} (h : Latched s) (ha : allowed s op) (hs : Stored s) :
    Stored (s.step op) ↔ good s op := by
  rw [stored_channels] at hs
  rw [stored_channels]
  by_cases hop : ∃ i, op = .posedge i
  · obtain ⟨i, rfl⟩ := hop
    obtain ⟨hb, hr⟩ := posedge_channels ha
    rw [hb, hr, good_posedge, Channel.stored_edge h.1 hs.1, Channel.stored_edge h.2 hs.2]
  · rw [not_exists] at hop
    obtain ⟨hb, hr⟩ := call_channels ha hop
    have hgood : good s op := by
      cases op with
      | posedge i => exact absurd rfl (hop i)
      | _ => exact trivial
    refine iff_of_true ⟨?_, ?_⟩ hgood
    · rcases hb with hb | hb <;> rw [hb]
      · exact hs.1
      · exact hs.1.consume
    · rcases hr with hr | hr <;> rw [hr]
      · exact hs.2
      · exact hs.2.consume

/-- **No response is lost** in exactly the runs where every valid response finds room. -/
theorem responses_stored_iff (h : init s) {ops : List (op_t AW)}
    (ha : Sync.Allowed step allowed s ops) :
    Sync.Always step Stored s ops ↔ Sync.Allowed step good s ops := by
  obtain ⟨hlatched, hstored⟩ := init_latched h
  exact Sync.always_iff (I := Latched) (fun _ _ hl hal _ => step_latched hl hal)
    (fun _ _ hl hal hs => stored_step hl hal hs) hlatched hstored ha

/-! Two writes of a line, and a buffer for one answer. The slave has both lines before it
answers the writes at two edges in a row. -/

def demo_sys : Sys 32 :=
  ⟨{ reset with b_beats_buffer_size := 1 }, ⟨false, false, false, fun _ => 0⟩, 0, [], [], []⟩

def quiet : Responses := ⟨false, false, false, fun _ => 0⟩
def answer : Responses := ⟨true, false, false, fun _ => 0⟩

def demo_ops (between : List (op_t 32)) : List (op_t 32) :=
  [.write 0x1c100000 (fun _ => 0) 64 0, .write 0x1c100040 (fun _ => 0) 64 0, .send_aw_beat,
    .send_w_beat, .send_aw_beat, .send_w_beat, .posedge quiet, .negedge ⟨true, true, true⟩,
    .posedge quiet, .negedge ⟨true, true, true⟩, .posedge answer] ++ between
    ++ [.posedge answer, .posedge quiet]

/-- With the first answer consumed in between, both are stored. -/
theorem responses_stored_iff_demo : Sync.Always step Stored demo_sys (demo_ops [.consume_b_beat])
    ↔ Sync.Allowed step good demo_sys (demo_ops [.consume_b_beat]) :=
  responses_stored_iff ⟨0, 0, 0, 1, 0, fun _ => 0, rfl⟩ (by decide +kernel)

/-- **The second answer is lost** when the first one is still in the buffer: ready is still
high, so the slave sees it taken. -/
theorem second_answer_lost : ¬ ∀ (s : Sys 32) (ops : List (op_t 32)), init s →
    Sync.Allowed step allowed s ops → Sync.Always step Stored s ops := by
  intro hall
  have hinit : init demo_sys := ⟨0, 0, 0, 1, 0, fun _ => 0, rfl⟩
  have hstored := (hall demo_sys (demo_ops []) hinit (by decide +kernel)).last.b
  revert hstored
  decide +kernel

end Sys

end Pspin.AxiResponses
