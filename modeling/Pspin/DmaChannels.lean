/-
The FIFOs of each side of the DMA engine, cycle by cycle.

The reshaper cuts a transfer into chunks, and each chunk is pushed into two FIFOs at once:
its Ax beat into the one in front of the address channel, and a descriptor for its data into
the one in front of the data path. A cursor over the chunks of a side says what both hold.
The first has the chunks whose address is not sent. The second has those whose data are not
complete, and the part of the cursor is the beat of the first of them that comes next.

One cycle may push a chunk and move a beat. `ReadSide.step` and `WriteSide.step` put together
what that does to each of the fields.
-/
import Pspin.DmaCuts
import Pspin.DmaSides

set_option autoImplicit false

namespace Pspin.AxiDma

variable {c : Cfg} {s : Sys} {i : Input} {mem : ℕ → Byte} {rdst : ℕ}

/-! ## The read side -/

/-- The chunks of the read side, by what is on the AXI port and in the engine. `ars` and
`r_beats` are what has passed on the AR and R channels so far. -/
structure ReadSide (c : Cfg) (s : Sys) (k : Cursor ReadChunk) : Prop where
  ar_inv : FifoV3.Inv c.AxReqFifoDepth s.engine.i_fifo_ar_emitter
  r_inv : FifoV3.Inv c.AxReqFifoDepth s.engine.i_fifo_r_emitter
  ok : k.Ok fun b => b.beats c
  ars : s.ars ++ FifoV3.elems c.AxReqFifoDepth s.engine.i_fifo_ar_emitter = k.all.map fun b => b.ax c
  descs : FifoV3.elems c.AxReqFifoDepth s.engine.i_fifo_r_emitter = k.todo.map fun b => b.r c
  fits : ∀ b ∈ k.all, b.Fits c
  /-- The shifter brings the lanes of the read side to those of the write side. -/
  turn : ∀ b ∈ k.all, (b.dst + b.shift) % c.StrbWidth = b.addr % c.StrbWidth
  beats : s.r_beats = k.count fun b => b.beats c
  first : s.engine.data_path.is_first_r = decide (k.part = 0)

/-- The chunk that is pushed in the cycle. -/
def r_new (c : Cfg) (e : State) (i : Input) (rdst : ℕ) : List ReadChunk :=
  if r_req_push c e i then [read_chunk c e.burst_q rdst] else []

/-- The cursor after the cycle. -/
def r_next (c : Cfg) (s : Sys) (i : Input) (rdst : ℕ) (k : Cursor ReadChunk) : Cursor ReadChunk :=
  (if r_handshake c s.engine i then k.next fun b => b.beats c else k).push (r_new c s.engine i rdst)

/-- What an AXI slave sees of the Ax beats. -/
theorem incr_map (bs : List ReadChunk) :
    (bs.map fun b => b.ax c).map desc_ax_t.incr = bs.map fun b => b.incr c := by
  rw [List.map_map]
  rfl

/-- The beats that have passed are those of the chunks that are done and the part. -/
theorem read_count (k : Cursor ReadChunk) : (k.count fun b => b.beats c) =
    (AxiIncr.beats (k.done.map fun b => b.incr c)).length + k.part := by
  rw [AxiIncr.length_beats, List.map_map]
  rfl

/-- The beat on the R channel is the next one of the chunk that is due. -/
theorem ReadSide.due {k : Cursor ReadChunk} (h : ReadSide c s k)
    (hans : AxiIncr.Answers c.OffsetWidth mem (s.ars.map desc_ax_t.incr) s.r_beats i.r_data i.r_last) :
    ∃ b rest, k.todo = b :: rest ∧ k.part ≤ b.beats c ∧
      (b.incr c).Carries c.OffsetWidth k.part mem i.r_data ∧ i.r_last = decide (k.part = b.beats c) := by
  have hbegin : s.ars.map desc_ax_t.incr <+: k.all.map fun b => b.incr c := by
    rw [← incr_map, ← h.ars, List.map_append]
    exact List.prefix_append _ _
  have hcount := h.beats.trans (read_count k)
  rw [Cursor.all, List.map_append] at hbegin
  cases htodo : k.todo with
  | nil =>
      rw [htodo, List.map_nil, List.append_nil] at hbegin
      have hlt := AxiIncr.Answers.lt ( hans.of_prefix hbegin)
      rw [h.ok.nil htodo] at hcount
      omega
  | cons b rest =>
      rw [htodo, List.map_cons] at hbegin
      have hpart : k.part ≤ b.beats c := h.ok.le b (by rw [htodo]; rfl)
      obtain ⟨hdata, hlast⟩ := hans.at hbegin hcount hpart
      exact ⟨b, rest, rfl, hpart, hdata, hlast⟩

/-- The data path takes a beat while its buffers have room. -/
theorem r_handshake_iff {e : State} : r_handshake c e i = true ↔
    i.r_valid = true ∧ DataPath.full c e.data_path (data_path_input e i) = false := by
  rw [r_handshake, DataPath.r_ready_o, Bool.and_eq_true, Bool.not_eq_true']

/-- The descriptor goes with the last beat. -/
theorem r_dp_ready_eq {e : State} : DataPath.r_dp_ready_o c e.data_path (data_path_input e i) =
    (!FifoV3.empty_o e.i_fifo_r_emitter && i.r_last && r_handshake c e i) := by
  rw [r_handshake, DataPath.r_ready_o]
  exact Bool.and_assoc _ _ _

/-- A chunk is pushed only when both FIFOs have room. -/
theorem r_req_push_free {e : State} (h : r_req_push c e i = true) :
    FifoV3.full_o c.AxReqFifoDepth e.i_fifo_ar_emitter = false ∧
      FifoV3.full_o c.AxReqFifoDepth e.i_fifo_r_emitter = false := by
  rw [r_req_push, r_req_ready] at h
  simpa using (Bool.and_eq_true_iff.mp h).2

/-- What is pushed keeps to the page and the length that a burst may have. -/
theorem mem_r_new {e : State} {b : ReadChunk} (hc : c.Ok) (hs : Sides c e.burst_q rdst)
    (hb : b ∈ r_new c e i rdst) : b.Fits c ∧ (b.dst + b.shift) % c.StrbWidth = b.addr % c.StrbWidth := by
  rw [r_new] at hb
  split_ifs at hb with hpush
  · rw [List.mem_singleton] at hb
    rw [hb]
    have hpos : 0 < e.burst_q.src.num_bytes := by
      have := (r_push_eq (i := reshaper_input c e i) hs.src).symm.trans hpush
      exact of_decide_eq_true (Bool.and_eq_true_iff.mp this).1
    obtain ⟨hp, hpage⟩ := r_possible_spec hc e.burst_q
    exact ⟨(cut_spec hc hs.src hpos hp hpage).1, hs.turn hpos⟩
  · exact absurd hb List.not_mem_nil

/-- The two descriptors that are pushed are those of the chunk. -/
theorem r_new_desc {e : State} (hc : c.Ok) (hs : Sides c e.burst_q rdst) :
    (if r_req_push c e i then [Reshaper.ar c e.burst_q] else []) =
        (r_new c e i rdst).map (fun b => b.ax c) ∧
      (if r_req_push c e i then [Reshaper.r c e.burst_q] else []) =
        (r_new c e i rdst).map fun b => b.r c := by
  rw [r_new]
  split_ifs with hpush
  · have hpos : 0 < e.burst_q.src.num_bytes := by
      have := (r_push_eq (i := reshaper_input c e i) hs.src).symm.trans hpush
      exact of_decide_eq_true (Bool.and_eq_true_iff.mp this).1
    obtain ⟨hax, hr⟩ := read_desc hc hs.src hpos rdst
    rw [hax, hr]
    exact ⟨rfl, rfl⟩
  · exact ⟨rfl, rfl⟩

/-- A FIFO of descriptors, whose head goes with the last part of the first job. -/
theorem descs_step {α δ : Type*} {DEPTH : ℕ} {f : FifoV3.State δ} {input : FifoV3.Input δ}
    {k : Cursor α} {last : α → ℕ} {desc : α → δ} {new : List α} {handshake : Bool} (hinv : FifoV3.Inv DEPTH f)
    (hk : FifoV3.elems DEPTH f = k.todo.map desc)
    (hpush : input.push_i = true → FifoV3.full_o DEPTH f = false)
    (hnew : (if input.push_i then [input.data_i] else []) = new.map desc)
    (hstay : handshake = false → input.pop_i = false)
    (hpop : handshake = true → ∃ a rest, k.todo = a :: rest ∧ input.pop_i = decide (k.part = last a)) :
    FifoV3.elems DEPTH (FifoV3.step DEPTH f input) =
      ((if handshake then k.next last else k).push new).todo.map desc := by
  -- what pops finds a descriptor, since the queue has what the cursor has left
  have hfree : input.pop_i = true → FifoV3.empty_o f = false := by
    intro hp
    have hh : handshake = true := by
      by_contra hno
      exact absurd (hstay (Bool.eq_false_of_not_eq_true hno)) (by simp [hp])
    obtain ⟨a, rest, htodo, -⟩ := hpop hh
    rw [Bool.eq_false_iff, Ne, @FifoV3.empty_o_iff _ DEPTH _, hk, htodo]
    exact List.cons_ne_nil _ _
  rw [hinv.elems_step_of hpush hfree, hnew, hk, Cursor.push, List.map_append]
  congr 1
  by_cases hh : handshake = true
  · obtain ⟨a, rest, htodo, hdec⟩ := hpop hh
    rw [if_pos hh, hdec]
    -- the last beat of the burst takes the descriptor along, another one leaves it
    by_cases hlast : k.part = last a
    · rw [decide_eq_true hlast, if_pos rfl, Cursor.next_of_last htodo hlast, htodo]
      rfl
    · rw [decide_eq_false hlast, if_neg Bool.false_ne_true, Cursor.next_of_lt htodo hlast]
  · have hno := Bool.eq_false_of_not_eq_true hh
    rw [if_neg hh, hstay hno]
    rfl

section ReadStep

variable {k : Cursor ReadChunk}

/-- The chunk that the beat of the cycle belongs to. -/
def RDue (c : Cfg) (s : Sys) (i : Input) (mem : ℕ → Byte) (k : Cursor ReadChunk) : Prop :=
  r_handshake c s.engine i = true → ∃ b rest, k.todo = b :: rest ∧ k.part ≤ b.beats c ∧
    (b.incr c).Carries c.OffsetWidth k.part mem i.r_data ∧ i.r_last = decide (k.part = b.beats c)

theorem r_next_all (c : Cfg) (s : Sys) (i : Input) (rdst : ℕ) (k : Cursor ReadChunk) :
    (r_next c s i rdst k).all = k.all ++ r_new c s.engine i rdst := by
  rw [r_next, Cursor.all_push]
  split_ifs
  · rw [Cursor.all_next]
  · rfl

theorem ReadSide.ok_step (h : ReadSide c s k) : (r_next c s i rdst k).Ok fun b => b.beats c := by
  rw [r_next]
  apply Cursor.Ok.push
  split_ifs
  · exact h.ok.next
  · exact h.ok

/-- The AR emitter: what has been sent and what is to be sent are all chunks, in order. -/
theorem ReadSide.ars_step (hc : c.Ok) (h : ReadSide c s k) (hs : Sides c s.engine.burst_q rdst) :
    (s.step c i).ars ++ FifoV3.elems c.AxReqFifoDepth (s.step c i).engine.i_fifo_ar_emitter =
      (r_next c s i rdst k).all.map fun b => b.ax c := by
  change (s.ars ++ _) ++ FifoV3.elems c.AxReqFifoDepth (FifoV3.step c.AxReqFifoDepth _ _) = _
  have hq := h.ar_inv.queue_step
    (i := ⟨Reshaper.ar c s.engine.burst_q, r_req_push c s.engine i, ar_emitter_pop s.engine i⟩)
    (fun hp => (r_req_push_free hp).1) fun hp => by
      rw [ar_emitter_pop, ar_valid] at hp
      simpa using (Bool.and_eq_true_iff.mp hp).2
  rw [List.append_assoc, hq, ← List.append_assoc, h.ars, r_next_all, List.map_append,
    (r_new_desc hc hs).1]

/-- The descriptor of a chunk goes with the last beat. -/
theorem ReadSide.descs_step (hc : c.Ok) (h : ReadSide c s k) (hs : Sides c s.engine.burst_q rdst)
    (hdue : RDue c s i mem k) :
    FifoV3.elems c.AxReqFifoDepth (s.step c i).engine.i_fifo_r_emitter =
      (r_next c s i rdst k).todo.map fun b => b.r c := by
  refine AxiDma.descs_step h.r_inv h.descs (fun hp => (r_req_push_free hp).2) (r_new_desc hc hs).2
    (fun hno => ?_) fun hh => ?_
  · change DataPath.r_dp_ready_o c _ (data_path_input s.engine i) = false
    rw [r_dp_ready_eq, hno, Bool.and_false]
  · obtain ⟨b, rest, htodo, -, -, hlast⟩ := hdue hh
    refine ⟨b, rest, htodo, ?_⟩
    change DataPath.r_dp_ready_o c _ (data_path_input s.engine i) = _
    have hne : FifoV3.empty_o s.engine.i_fifo_r_emitter = false := by
      rw [Bool.eq_false_iff, Ne, @FifoV3.empty_o_iff _ c.AxReqFifoDepth _, h.descs, htodo]
      exact List.cons_ne_nil _ _
    rw [r_dp_ready_eq, hh, hne, hlast, Bool.and_true]
    rfl

theorem ReadSide.chunk_step (hc : c.Ok) (h : ReadSide c s k) (hs : Sides c s.engine.burst_q rdst)
    {b : ReadChunk} (hb : b ∈ (r_next c s i rdst k).all) :
    b.Fits c ∧ (b.dst + b.shift) % c.StrbWidth = b.addr % c.StrbWidth := by
  rw [r_next_all] at hb
  rcases List.mem_append.mp hb with hb | hb
  · exact ⟨h.fits b hb, h.turn b hb⟩
  · exact mem_r_new hc hs hb

theorem ReadSide.beats_step (h : ReadSide c s k) (hdue : RDue c s i mem k) :
    (s.step c i).r_beats = (r_next c s i rdst k).count fun b => b.beats c := by
  change s.r_beats + (if r_handshake c s.engine i then 1 else 0) = _
  rw [r_next, Cursor.count_push, h.beats]
  split_ifs with hh
  · obtain ⟨b, rest, htodo, -⟩ := hdue hh
    rw [Cursor.count_next htodo]
  · rfl

/-- The flag of the data path that its next beat is the first of a chunk. -/
theorem ReadSide.first_step (h : ReadSide c s k) (hdue : RDue c s i mem k) :
    (s.step c i).engine.data_path.is_first_r = decide ((r_next c s i rdst k).part = 0) := by
  change (if r_handshake c s.engine i then _ else _) = decide ((r_next c s i rdst k).part = 0)
  rw [r_next, Cursor.push]
  by_cases hh : r_handshake c s.engine i = true
  · obtain ⟨b, rest, htodo, -, -, hlast⟩ := hdue hh
    obtain ⟨hv, -⟩ := r_handshake_iff.mp hh
    rw [if_pos hh, if_pos hh, DataPath.is_first_r_d]
    change (if i.r_valid && !i.r_last then _ else if i.r_last && i.r_valid then _ else _) = _
    rw [hv, hlast]
    by_cases hb : k.part = b.beats c
    · rw [Cursor.next_of_last htodo hb]
      simp [hb]
    · rw [Cursor.next_of_lt htodo hb]
      simp [hb]
  · rw [if_neg hh, if_neg hh, h.first]

/-- **A cycle of the read side.** -/
theorem ReadSide.step (hc : c.Ok) (h : ReadSide c s k) (hs : Sides c s.engine.burst_q rdst)
    (hans : i.r_valid = true →
      AxiIncr.Answers c.OffsetWidth mem (s.ars.map desc_ax_t.incr) s.r_beats i.r_data i.r_last) :
    ReadSide c (s.step c i) (r_next c s i rdst k) :=
  have hdue : RDue c s i mem k := fun hh => h.due (hans (r_handshake_iff.mp hh).1)
  { ar_inv := h.ar_inv.step _
    r_inv := h.r_inv.step _
    ok := h.ok_step
    ars := h.ars_step hc hs
    descs := h.descs_step hc hs hdue
    fits := fun _ hb => (h.chunk_step hc hs hb).1
    turn := fun _ hb => (h.chunk_step hc hs hb).2
    beats := h.beats_step hdue
    first := h.first_step hdue }

end ReadStep

/-! ## The write side -/

/-- The chunks of the write side. `aws` and `ws` are what has passed on the AW and W channels.
The data path counts the beats of a chunk down, and its counter is valid between the first
beat and the last. -/
structure WriteSide (c : Cfg) (s : Sys) (k : Cursor Chunk) : Prop where
  aw_inv : FifoV3.Inv c.AxReqFifoDepth s.engine.i_fifo_aw_emitter
  w_inv : FifoV3.Inv c.AxReqFifoDepth s.engine.i_fifo_w_emitter
  ok : k.Ok fun b => b.beats c
  aws : s.aws ++ FifoV3.elems c.AxReqFifoDepth s.engine.i_fifo_aw_emitter = k.all.map fun b => b.ax c
  descs : FifoV3.elems c.AxReqFifoDepth s.engine.i_fifo_w_emitter = k.todo.map fun b => b.w c
  fits : ∀ b ∈ k.all, b.Fits c
  beats : s.ws.length = k.count fun b => b.beats c
  sent : s.sent = k.done.length
  valid : s.engine.data_path.w_cnt_valid_q = decide (k.part ≠ 0)
  num : ∀ b ∈ k.todo.head?, k.part ≠ 0 → s.engine.data_path.w_num_beats_q + k.part = b.beats c + 1
  marks : ∀ (n : ℕ) (x : AxiIncr.WBeat Byte), s.ws[n]? = some x → ∃ (b : AxiIncr.Burst) (j : ℕ),
    (AxiIncr.beats (k.all.map fun b => b.incr c))[n]? = some (b, j) ∧ x.last = decide (j = b.len)

/-- The chunk that is pushed in the cycle. -/
def w_new (c : Cfg) (e : State) (i : Input) : List Chunk :=
  if w_req_push c e i then [write_chunk c e.burst_q] else []

/-- The cursor after the cycle. -/
def w_next (c : Cfg) (s : Sys) (i : Input) (k : Cursor Chunk) : Cursor Chunk :=
  (if w_handshake c s.engine i then k.next fun b => b.beats c else k).push (w_new c s.engine i)

/-- The beats that have passed are those of the chunks that are done and the part. -/
theorem write_count (k : Cursor Chunk) : (k.count fun b => b.beats c) =
    (AxiIncr.beats (k.done.map fun b => b.incr c)).length + k.part := by
  rw [AxiIncr.length_beats, List.map_map]
  rfl

/-- The data path is at the first chunk of the FIFO. -/
theorem WriteSide.first {k : Cursor Chunk} {b : Chunk} {rest : List Chunk} (h : WriteSide c s k)
    (htodo : k.todo = b :: rest) : Counting c s.engine.data_path b k.part ∧
      (data_path_input s.engine i).w_desc = b.w c := by
  have hhead : b ∈ k.todo.head? := by
    rw [htodo]
    rfl
  refine ⟨⟨h.ok.le b hhead, h.valid, h.num b hhead⟩, ?_⟩
  refine h.w_inv.data_o_eq ?_
  rw [h.descs, htodo]
  rfl

/-- The next beat on the W channel. -/
theorem WriteSide.at {k : Cursor Chunk} {b : Chunk} {rest : List Chunk} (h : WriteSide c s k)
    (htodo : k.todo = b :: rest) :
    (AxiIncr.beats (k.all.map fun b => b.incr c))[s.ws.length]? = some (b.incr c, k.part) := by
  have hpart : k.part ≤ b.beats c := h.ok.le b (by rw [htodo]; rfl)
  rw [h.beats, write_count, Cursor.all, htodo, List.map_append, List.map_cons]
  exact AxiIncr.beats_at _ _ hpart

/-- The counter after a beat. -/
theorem counting_step {d : DataPath.State} {di : DataPath.Input} {b : Chunk} {j : ℕ} (hb : b.beats c < 256)
    (hdesc : di.w_desc = b.w c) (h : Counting c d b j) (hw : DataPath.write_happening c d di = true) :
    DataPath.w_cnt_valid_d c d di = decide (j ≠ b.beats c) ∧
      (j ≠ b.beats c → DataPath.w_num_beats_d c d di + (j + 1) = b.beats c + 1) := by
  -- a handshake is only there when the data path is ready, so the counter is read as the cursor
  -- counts
  have hready : DataPath.ready_to_write c d di = true := (Bool.and_eq_true_iff.mp hw).1
  have hfirst := is_first_w_eq hdesc h hready
  have hlast := is_last_w_eq hdesc h
  have hle := h.le
  have hvalid := h.valid
  have hsingle : di.w_desc.is_single = decide (b.beats c = 0) := by
    rw [hdesc]
    rfl
  have hnum : di.w_desc.num_beats = b.beats c := by
    rw [hdesc]
    rfl
  rw [DataPath.w_cnt_valid_d, DataPath.w_num_beats_d, hw, hfirst, hlast, hvalid, hsingle, hnum]
  simp only [Bool.and_true, decide_eq_true_eq]
  -- a single beat; else the first of several, one in the middle, or the last
  by_cases hz : b.beats c = 0
  · have hj : j = 0 := by omega
    simp [hz, hj]
  · by_cases hj : j = 0
    · simp [hz, hj, Ne.symm hz]
    · have hbeats := h.beats hj
      by_cases hend : j = b.beats c
      · simp [hend]
      · -- the counter goes down by one, which is not a wrap here
        have hdec : (d.w_num_beats_q + 2 ^ 8 - 1) % 2 ^ 8 = d.w_num_beats_q - 1 := by omega
        rw [if_neg hz, if_neg hend, if_neg hj, if_neg hz, if_pos hj, hdec]
        refine ⟨by simp [hj, hend], fun _ => ?_⟩
        omega

/-- It stays without one. -/
theorem counting_idle {d : DataPath.State} {di : DataPath.Input}
    (hw : DataPath.write_happening c d di = false) :
    DataPath.w_cnt_valid_d c d di = d.w_cnt_valid_q ∧ DataPath.w_num_beats_d c d di = d.w_num_beats_q := by
  rw [DataPath.w_cnt_valid_d, DataPath.w_num_beats_d, hw]
  simp

/-- A chunk is pushed only when both FIFOs have room. -/
theorem w_req_push_free {e : State} (h : w_req_push c e i = true) :
    FifoV3.full_o c.AxReqFifoDepth e.i_fifo_aw_emitter = false ∧
      FifoV3.full_o c.AxReqFifoDepth e.i_fifo_w_emitter = false := by
  rw [w_req_push, w_req_ready] at h
  simpa using (Bool.and_eq_true_iff.mp h).2

/-- What is pushed fits, and the two descriptors are those of the chunk. -/
theorem w_new_desc {e : State} (hc : c.Ok) (hs : Sides c e.burst_q rdst) :
    (∀ b ∈ w_new c e i, b.Fits c) ∧
      (if w_req_push c e i then [Reshaper.aw c e.burst_q] else []) = (w_new c e i).map (fun b => b.ax c) ∧
      (if w_req_push c e i then [Reshaper.w c e.burst_q] else []) = (w_new c e i).map fun b => b.w c := by
  rw [w_new]
  split_ifs with hpush
  · have hpos : 0 < e.burst_q.dst.num_bytes := by
      have := (w_push_eq (i := reshaper_input c e i) hs.dst).symm.trans hpush
      exact of_decide_eq_true (Bool.and_eq_true_iff.mp this).1
    obtain ⟨hp, hpage⟩ := w_possible_spec hc e.burst_q
    obtain ⟨haw, hw⟩ := write_desc hc hs.dst hpos
    rw [haw, hw]
    refine ⟨fun b hb => ?_, rfl, rfl⟩
    rw [List.mem_singleton.mp hb]
    exact (cut_spec hc hs.dst hpos hp hpage).1
  · exact ⟨fun b hb => absurd hb List.not_mem_nil, rfl, rfl⟩

section WriteStep

variable {k : Cursor Chunk}

/-- The chunk that the beat of the cycle belongs to, and where the data path is in it. -/
def WDue (c : Cfg) (s : Sys) (i : Input) (k : Cursor Chunk) : Prop :=
  w_handshake c s.engine i = true → ∃ b rest, k.todo = b :: rest ∧ b.beats c < 256 ∧
    Counting c s.engine.data_path b k.part ∧ (data_path_input s.engine i).w_desc = b.w c

theorem w_next_all (c : Cfg) (s : Sys) (i : Input) (k : Cursor Chunk) :
    (w_next c s i k).all = k.all ++ w_new c s.engine i := by
  rw [w_next, Cursor.all_push]
  split_ifs
  · rw [Cursor.all_next]
  · rfl

theorem WriteSide.due (hc : c.Ok) (h : WriteSide c s k)
    (hbusy : w_handshake c s.engine i = true → k.todo ≠ []) : WDue c s i k := by
  intro hh
  obtain ⟨b, rest, htodo⟩ := List.exists_cons_of_ne_nil (hbusy hh)
  have hmem : b ∈ k.all := by
    rw [Cursor.all, htodo]
    exact List.mem_append_right _ List.mem_cons_self
  exact ⟨b, rest, htodo, (h.fits b hmem).beats_lt hc, h.first htodo⟩

theorem WriteSide.ok_step (h : WriteSide c s k) : (w_next c s i k).Ok fun b => b.beats c := by
  rw [w_next]
  apply Cursor.Ok.push
  split_ifs
  · exact h.ok.next
  · exact h.ok

/-- The AW emitter: what has been sent and what is to be sent are all chunks, in order. -/
theorem WriteSide.aws_step (hc : c.Ok) (h : WriteSide c s k) (hs : Sides c s.engine.burst_q rdst) :
    (s.step c i).aws ++ FifoV3.elems c.AxReqFifoDepth (s.step c i).engine.i_fifo_aw_emitter =
      (w_next c s i k).all.map fun b => b.ax c := by
  change (s.aws ++ _) ++ FifoV3.elems c.AxReqFifoDepth (FifoV3.step c.AxReqFifoDepth _ _) = _
  have hq := h.aw_inv.queue_step
    (i := ⟨Reshaper.aw c s.engine.burst_q, w_req_push c s.engine i, aw_emitter_pop s.engine i⟩)
    (fun hp => (w_req_push_free hp).1) fun hp => by
      rw [aw_emitter_pop, aw_valid] at hp
      simpa using (Bool.and_eq_true_iff.mp hp).2
  rw [List.append_assoc, hq, ← List.append_assoc, h.aws, w_next_all, List.map_append,
    (w_new_desc hc hs).2.1]

/-- The descriptor of a chunk goes with the last beat. -/
theorem WriteSide.descs_step (hc : c.Ok) (h : WriteSide c s k) (hs : Sides c s.engine.burst_q rdst)
    (hdue : WDue c s i k) :
    FifoV3.elems c.AxReqFifoDepth (s.step c i).engine.i_fifo_w_emitter =
      (w_next c s i k).todo.map fun b => b.w c := by
  refine AxiDma.descs_step h.w_inv h.descs (fun hp => (w_req_push_free hp).2) (w_new_desc hc hs).2.2
    (fun hno => ?_) fun hh => ?_
  · exact (congrArg (DataPath.is_last_w _ (data_path_input s.engine i) && ·) hno).trans (Bool.and_false _)
  · obtain ⟨b, rest, htodo, -, hcount, hdesc⟩ := hdue hh
    refine ⟨b, rest, htodo, ?_⟩
    change (DataPath.is_last_w _ (data_path_input s.engine i) && w_handshake c s.engine i) = _
    rw [hh, Bool.and_true, is_last_w_eq hdesc hcount]

theorem WriteSide.fits_step (hc : c.Ok) (h : WriteSide c s k) (hs : Sides c s.engine.burst_q rdst)
    {b : Chunk} (hb : b ∈ (w_next c s i k).all) : b.Fits c := by
  rw [w_next_all] at hb
  rcases List.mem_append.mp hb with hb | hb
  · exact h.fits b hb
  · exact (w_new_desc hc hs).1 b hb

theorem WriteSide.beats_step (h : WriteSide c s k) (hdue : WDue c s i k) :
    (s.step c i).ws.length = (w_next c s i k).count fun b => b.beats c := by
  change (s.ws ++ _).length = _
  rw [w_next, Cursor.count_push, Sync.length_append_if, h.beats]
  by_cases hh : w_handshake c s.engine i = true
  · obtain ⟨b, rest, htodo, -⟩ := hdue hh
    rw [hh, if_pos rfl, Cursor.count_next htodo]
    rfl
  · rw [Bool.eq_false_of_not_eq_true hh]
    rfl

/-- The beats that are marked last are as many as the chunks that are done. -/
theorem WriteSide.sent_step (h : WriteSide c s k) (hdue : WDue c s i k) :
    (s.step c i).sent = (w_next c s i k).done.length := by
  change (s.ws ++ _).countP AxiIncr.WBeat.last = (w_next c s i k).done.length
  have hsent : s.ws.countP AxiIncr.WBeat.last = k.done.length := h.sent
  rw [List.countP_append, hsent, w_next, Cursor.push]
  by_cases hh : w_handshake c s.engine i = true
  · obtain ⟨b, rest, htodo, -, hcount, hdesc⟩ := hdue hh
    have hlast : (DataPath.w_beat c s.engine.data_path (data_path_input s.engine i)).last =
        decide (k.part = b.beats c) := is_last_w_eq hdesc hcount
    rw [if_pos hh, if_pos hh, List.countP_singleton, hlast]
    by_cases hb : k.part = b.beats c
    · rw [Cursor.next_of_last htodo hb]
      simp [hb]
    · rw [Cursor.next_of_lt htodo hb]
      simp [hb]
  · rw [if_neg hh, if_neg hh]
    rfl

/-- The counter is valid between the first beat of a chunk and the last. -/
theorem WriteSide.valid_step (h : WriteSide c s k) (hdue : WDue c s i k) :
    (s.step c i).engine.data_path.w_cnt_valid_q = decide ((w_next c s i k).part ≠ 0) := by
  change DataPath.w_cnt_valid_d c s.engine.data_path (data_path_input s.engine i) = _
  rw [w_next, Cursor.push]
  by_cases hh : w_handshake c s.engine i = true
  · obtain ⟨b, rest, htodo, hlt, hcount, hdesc⟩ := hdue hh
    rw [if_pos hh, (counting_step hlt hdesc hcount hh).1]
    by_cases hb : k.part = b.beats c
    · rw [Cursor.next_of_last htodo hb]
      simp [hb]
    · rw [Cursor.next_of_lt htodo hb]
      simp [hb]
  · rw [if_neg hh, (counting_idle (Bool.eq_false_of_not_eq_true hh)).1]
    exact h.valid

/-- It counts down from the beats of its chunk. -/
theorem WriteSide.num_step (h : WriteSide c s k) (hdue : WDue c s i k) {b : Chunk}
    (hb : b ∈ (w_next c s i k).todo.head?) (hpart : (w_next c s i k).part ≠ 0) :
    (s.step c i).engine.data_path.w_num_beats_q + (w_next c s i k).part = b.beats c + 1 := by
  change DataPath.w_num_beats_d c s.engine.data_path (data_path_input s.engine i) + _ = _
  rw [w_next, Cursor.push] at hb hpart ⊢
  -- after a beat, what the counter was set to; else nothing has moved
  by_cases hh : w_handshake c s.engine i = true
  · obtain ⟨b', rest, htodo, hlt, hcount, hdesc⟩ := hdue hh
    rw [if_pos hh] at hb hpart ⊢
    -- the burst goes on: after its last beat the position would be zero
    have hend : k.part ≠ b'.beats c := by
      intro hend
      rw [Cursor.next_of_last htodo hend] at hpart
      exact hpart rfl
    rw [Cursor.next_of_lt htodo hend] at hb ⊢
    have hbb : b' = b := by simpa [htodo] using hb
    rw [← hbb]
    exact (counting_step hlt hdesc hcount hh).2 hend
  · -- nothing handed over, so the head of the queue is the same burst
    rw [if_neg hh] at hb hpart ⊢
    rw [(counting_idle (Bool.eq_false_of_not_eq_true hh)).2]
    have hne : k.todo ≠ [] := fun hnil => hpart (h.ok.nil hnil)
    obtain ⟨b', rest, htodo⟩ := List.exists_cons_of_ne_nil hne
    refine h.num b ?_ hpart
    rw [htodo] at hb ⊢
    exact hb

/-- Beat `n` on the W channel is beat `n` of the bursts, and is marked last if it is. -/
theorem WriteSide.marks_step (h : WriteSide c s k) (hdue : WDue c s i k) {n : ℕ}
    {x : AxiIncr.WBeat Byte} (hx : (s.step c i).ws[n]? = some x) :
    ∃ (b : AxiIncr.Burst) (j : ℕ), (AxiIncr.beats ((w_next c s i k).all.map fun b => b.incr c))[n]? =
      some (b, j) ∧ x.last = decide (j = b.len) := by
  have hlonger : ∀ b j, (AxiIncr.beats (k.all.map fun b => b.incr c))[n]? = some (b, j) →
      (AxiIncr.beats ((w_next c s i k).all.map fun b => b.incr c))[n]? = some (b, j) := by
    intro b j hat
    rw [w_next_all, List.map_append, AxiIncr.beats_append,
      List.getElem?_append_left (List.getElem?_eq_some_iff.mp hat).1]
    exact hat
  have hx' : (s.ws ++ if w_handshake c s.engine i then
      [DataPath.w_beat c s.engine.data_path (data_path_input s.engine i)] else [])[n]? = some x := hx
  rcases Nat.lt_or_ge n s.ws.length with hlt | hge
  · rw [List.getElem?_append_left hlt] at hx'
    obtain ⟨b, j, hat, hlast⟩ := h.marks n x hx'
    exact ⟨b, j, hlonger b j hat, hlast⟩
  · -- the beat of this cycle
    rw [List.getElem?_append_right hge] at hx'
    by_cases hh : w_handshake c s.engine i = true
    · obtain ⟨b, rest, htodo, -, hcount, hdesc⟩ := hdue hh
      rw [if_pos hh] at hx'
      obtain ⟨hn, hbeat⟩ := List.getElem?_eq_some_iff.mp hx'
      rw [List.length_singleton, Nat.lt_one_iff] at hn
      have hnlen : n = s.ws.length := by omega
      refine ⟨b.incr c, k.part, hlonger _ _ (hnlen ▸ h.at htodo), ?_⟩
      rw [← hbeat, List.getElem_singleton]
      exact is_last_w_eq hdesc hcount
    · rw [if_neg hh] at hx'
      exact absurd hx' (by simp)

/-- **A cycle of the write side**, where data are written only for a chunk. -/
theorem WriteSide.step (hc : c.Ok) (h : WriteSide c s k) (hs : Sides c s.engine.burst_q rdst)
    (hbusy : w_handshake c s.engine i = true → k.todo ≠ []) :
    WriteSide c (s.step c i) (w_next c s i k) :=
  have hdue : WDue c s i k := h.due hc hbusy
  { aw_inv := h.aw_inv.step _
    w_inv := h.w_inv.step _
    ok := h.ok_step
    aws := h.aws_step hc hs
    descs := h.descs_step hc hs hdue
    fits := fun _ hb => h.fits_step hc hs hb
    beats := h.beats_step hdue
    sent := h.sent_step hdue
    valid := h.valid_step hdue
    num := fun _ hb hpart => h.num_step hdue hb hpart
    marks := fun _ _ hx => h.marks_step hdue hx }

end WriteStep

end Pspin.AxiDma
