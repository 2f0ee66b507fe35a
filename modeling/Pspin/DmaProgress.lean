/-
The DMA engine comes to an end.

In every cycle with a slave that does what it may, something moves as long as anything is left
(`quiet_done`), and what can move is bounded by the transfers. So an ideal slave drains the
engine from every state that it can be in. A buffer of one byte for each lane would not do:
a beat that is waited for may be held up by one byte behind it.
-/
import Pspin.DmaMarks

set_option autoImplicit false

namespace Pspin.AxiDma

open ByteLanes

variable {c : Cfg} {s : Sys} {i : Input} {mem : ℕ → Byte} {rdst : ℕ} {kr : Cursor ReadChunk} {kw : Cursor Chunk}
variable {q : List (ℕ × Byte)}

/-! ## A beat whose bytes are there -/

theorem first_possible_of {d : DataPath.State} {di : DataPath.Input} {b : Chunk}
    (hdesc : di.w_desc = b.w c) (hsingle : b.beats c ≠ 0)
    (hbytes : ∀ l < c.StrbWidth, b.Selects c 0 l → DataPath.buffer_empty d l = false) :
    DataPath.first_possible c d di = true := by
  have hoff := b.offset_lt (c := c)
  -- the first of several beats ends with its line
  have hline : c.StrbWidth < b.len + b.offset c := by
    have hpos := Nat.pos_of_ne_zero hsingle
    rw [Chunk.beats, Nat.div_pos_iff] at hpos
    omega
  have hmask : ∀ l < c.StrbWidth, b.offset c ≤ l → DataPath.buffer_empty d l = false := fun l hl hle =>
    hbytes l hl ⟨by omega, by omega⟩
  refine available_iff.mpr ⟨fun l hl hm => hmask l hl ?_, ?_⟩
  · rw [hdesc] at hm
    exact of_decide_eq_true hm
  · rw [DataPath.buffer_clean, decide_eq_false_iff_not]
    intro hclean
    exact absurd (hclean _ hoff) (by rw [hmask _ hoff le_rfl]; exact Bool.false_ne_true)

/-- **A beat can be written as soon as its bytes are there.** -/
theorem ready_of_bytes {d : DataPath.State} {di : DataPath.Input} {b : Chunk} {j : ℕ} (hfits : b.Fits c)
    (hdesc : di.w_desc = b.w c) (h : Counting c d b j)
    (hbytes : ∀ l < c.StrbWidth, b.Selects c j l → DataPath.buffer_empty d l = false) :
    DataPath.ready_to_write c d di = true := by
  have hlast := is_last_w_eq hdesc h
  -- whether this is the first beat is what the position says
  have hfirst : DataPath.is_first_w c d di = decide (j = 0) := by
    have hle := h.le
    have hvalid := h.valid
    rw [DataPath.is_first_w, hvalid]
    by_cases hb : b.beats c = 0
    · -- of a single beat
      have hj : j = 0 := by omega
      have hsingle : di.w_desc.is_single = true := by
        rw [hdesc]
        exact decide_eq_true hb
      rw [if_pos hsingle, decide_eq_true hj]
    · have hsingle : ¬di.w_desc.is_single = true := by
        rw [hdesc]
        exact (decide_eq_true_iff.not).mpr hb
      rw [if_neg hsingle]
      -- of several, by the counter
      by_cases hj : j = 0
      · subst hj
        rw [first_possible_of hdesc hb hbytes]
        rfl
      · simp [hj]
  -- the lanes that the mask asks for are those with bytes of the beat
  have hmask : ∀ l < c.StrbWidth, DataPath.out_mask c d di l = true ↔ b.Selects c j l := by
    intro l hl
    rw [selects_iff hfits h.le hl, ← mask_eq, DataPath.out_mask, hfirst, hlast, hdesc]
    rfl
  -- a beat has at least one byte
  have hlt : b.start c j < b.start c (j + 1) := start_lt c.strb_pos hfits.pos b.offset_lt h.le
  obtain ⟨l, hl, hsel, -⟩ := selects_of_mem (c := c) le_rfl hlt
  refine available_iff.mpr ⟨fun l hl hm => hbytes l hl ((hmask l hl).mp hm), ?_⟩
  rw [DataPath.buffer_clean, decide_eq_false_iff_not]
  intro hclean
  exact absurd (hclean l hl) (by rw [hbytes l hl hsel]; exact Bool.false_ne_true)

/-- So the engine waits only for bytes that are not in its buffer. -/
theorem Inv.ready (h : Inv c mem s kr kw rdst q) {b : Chunk} {rest : List Chunk} (htodo : kw.todo = b :: rest)
    (hq : b.start c (kw.part + 1) - b.start c kw.part ≤ q.length) (i : Input) :
    DataPath.ready_to_write c s.engine.data_path (data_path_input s.engine i) = true := by
  have hmem : b ∈ kw.all := by
    rw [Cursor.all, htodo]
    exact List.mem_append_right _ List.mem_cons_self
  obtain ⟨hcount, hdesc⟩ := h.write.first (i := i) htodo
  refine ready_of_bytes (h.write.fits b hmem) hdesc hcount fun l hl hsel => ?_
  obtain ⟨k, hlo, hhi, hk⟩ := mem_of_selects hl hsel
  have hfront : (q.map Prod.fst).take (b.start c (kw.part + 1) - b.start c kw.part) =
      List.range' (b.addr + b.start c kw.part) (b.start c (kw.part + 1) - b.start c kw.part) := by
    rw [← List.take_append_of_le_length (by simpa using hq), h.addrs,
      Cursor.rest_next (write_cuts c) htodo, write_piece htodo, List.append_assoc, List.take_left']
    exact List.length_range'
  have hbyte : b.addr + k ∈ q.map Prod.fst := by
    refine List.mem_of_mem_take (i := b.start c (kw.part + 1) - b.start c kw.part) ?_
    rw [hfront, List.mem_range'_1]
    omega
  obtain ⟨e, he, haddr⟩ := List.mem_map.mp hbyte
  rw [DataPath.buffer_empty, Bool.eq_false_iff, Ne, @FifoV3.empty_o_iff _ c.BufferDepth _,
    h.buffer.lanes l hl, lane_eq_nil_iff]
  intro hno
  exact hno e he (haddr ▸ addr_mod hl hk)

/-- A lane with two bytes has one that is not of the next beat. -/
theorem Inv.ready_of_full (hc : c.Ok) (h : Inv c mem s kr kw rdst q) {l : ℕ} (hl : l < c.StrbWidth)
    (hfull : DataPath.buffer_full c s.engine.data_path l = true) (i : Input) :
    kw.todo ≠ [] ∧ DataPath.ready_to_write c s.engine.data_path (data_path_input s.engine i) = true := by
  have hdepth := hc.buffer_pos
  have htwo : (lane c.StrbWidth q l).length = c.BufferDepth := by
    rw [← h.buffer.lanes l hl]
    exact (h.buffer.inv l hl).full_o_iff.mp hfull
  have hne : kw.todo ≠ [] := by
    intro hnil
    rw [h.idle hnil, lane_nil, List.length_nil] at htwo
    omega
  obtain ⟨b, rest, htodo⟩ := List.exists_cons_of_ne_nil hne
  refine ⟨hne, h.ready htodo ?_ i⟩
  by_contra hlt
  -- the bytes in the buffer are some of one beat, each on its own lane
  have hle : b.start c (kw.part + 1) ≤ b.start c kw.part + c.StrbWidth := start_succ_le
  have hfront : q.map Prod.fst = List.range' (b.addr + b.start c kw.part) q.length := by
    have htake := congrArg (List.take q.length) h.addrs
    rw [List.take_left' (by simp), Cursor.rest_next (write_cuts c) htodo, write_piece htodo, List.append_assoc,
      List.take_append_of_le_length (by rw [List.length_range']; omega),
      List.take_range'_of_length_ge (by omega)] at htake
    exact htake
  have hone := length_lane_le (W := c.StrbWidth) (q := q) (by rw [hfront]; exact apart_range' (by omega)) l
  omega

/-! ## A cycle in which nothing moves -/

/-- No handshake, no chunk and no transfer. -/
structure Quiet (c : Cfg) (e : State) (i : Input) : Prop where
  ar : ar_emitter_pop e i = false
  r : r_handshake c e i = false
  aw : aw_emitter_pop e i = false
  w : w_handshake c e i = false
  b : i.b_valid = false
  r_push : r_req_push c e i = false
  w_push : w_req_push c e i = false
  pop : burst_req_pop c e i = false

/-- All transfers are done, and all responses are there. -/
structure Done (c : Cfg) (s : Sys) (kr : Cursor ReadChunk) (kw : Cursor Chunk) : Prop where
  queue : FifoV3.elems c.TransFifoDepth s.engine.i_burst_request_fifo = []
  src : s.engine.burst_q.src.num_bytes = 0
  dst : s.engine.burst_q.dst.num_bytes = 0
  read : kr.todo = []
  write : kw.todo = []
  aws : s.aws = kw.all.map fun b => b.ax c
  resp : s.bs = kw.all.length

theorem length_rest_eq (h : Inv c mem s kr kw rdst q) (hread : kr.todo = []) :
    q.length + s.engine.burst_q.src.num_bytes =
      (kw.rest Chunk.bytes fun b => b.start c).length + s.engine.burst_q.dst.num_bytes := by
  have hlen := congrArg List.length h.addrs
  have hrest : (kr.rest (ReadChunk.pairs mem) fun b => b.start c) = [] := by
    rw [Cursor.rest, hread]
  rw [hrest, src_pairs, burst_chan_t.bytes] at hlen
  simpa using hlen

section Stuck

variable (hc : c.Ok) (h : Inv c mem s kr kw rdst q) (hm : Marks c s kw)
variable (hquiet : Quiet c s.engine (slave c mem s none))

include hquiet in
/-- All read addresses are sent. -/
theorem ars_sent : FifoV3.elems c.AxReqFifoDepth s.engine.i_fifo_ar_emitter = [] := by
  have har := hquiet.ar
  rw [ar_emitter_pop, slave, Bool.true_and, ar_valid, Bool.not_eq_false'] at har
  exact FifoV3.empty_o_iff.mp har

include h hquiet in
/-- So are those of the writes, or the slave waits for responses that wait for data. -/
theorem aws_sent : s.aws = kw.all.map (fun b => b.ax c) ∨ s.sent ≤ s.bs ∧ s.bs < s.aws.length := by
  have haw := hquiet.aw
  have hb := hquiet.b
  have haws := h.write.aws
  by_cases hempty : FifoV3.empty_o s.engine.i_fifo_aw_emitter = true
  · rw [@FifoV3.empty_o_iff _ c.AxReqFifoDepth _] at hempty
    rw [hempty, List.append_nil] at haws
    exact Or.inl haws
  · right
    have hroom : ¬s.aws.length < s.bs + c.LastFifoDepth := by
      intro hlt
      rw [aw_emitter_pop, aw_valid, Bool.eq_false_of_not_eq_true hempty, slave, decide_eq_true hlt] at haw
      exact absurd haw (by simp)
    have hlast : 0 < c.LastFifoDepth := Nat.succ_pos _
    rw [slave, decide_eq_false_iff_not] at hb
    omega

include h hquiet in
/-- A chunk that is to be written waits for its bytes. -/
theorem waits (hne : kw.todo ≠ []) :
    DataPath.ready_to_write c s.engine.data_path (data_path_input s.engine (slave c mem s none)) = false := by
  have hsent := h.write.sent
  have hlt : s.sent < s.aws.length := by
    rcases aws_sent h hquiet with haws | hwait
    · rw [haws, List.length_map, hsent, Cursor.all, List.length_append]
      have := List.length_pos_iff.mpr hne
      omega
    · omega
  have hw := hquiet.w
  have hready : (slave c mem s none).w_ready = true := decide_eq_true hlt
  rw [w_handshake, hready, Bool.and_true] at hw
  exact hw

include hc h hquiet in
/-- Nothing is to be read. -/
theorem read_done : kr.todo = [] := by
  by_contra hne
  -- the next beat is there, so the buffer has no room for it
  have hars := h.read.ars
  rw [ars_sent hquiet, List.append_nil] at hars
  have hlt : s.r_beats < (AxiIncr.beats (s.ars.map desc_ax_t.incr)).length := by
    obtain ⟨b, rest, htodo⟩ := List.exists_cons_of_ne_nil hne
    have hpart : kr.part ≤ b.beats c := h.read.ok.le b (by rw [htodo]; rfl)
    rw [hars, incr_map, Cursor.all, htodo, List.map_append, List.map_cons, AxiIncr.beats_append,
      AxiIncr.beats_cons, List.length_append, List.length_append, List.length_map, List.length_range,
      h.read.beats, read_count]
    have : (b.incr c).len = b.beats c := rfl
    omega
  have hvalid : (slave c mem s none).r_valid = true := AxiIncr.answer_isSome_iff.mpr hlt
  have hfull : DataPath.full c s.engine.data_path (data_path_input s.engine (slave c mem s none)) = true := by
    by_contra hno
    exact absurd (r_handshake_iff.mpr ⟨hvalid, Bool.eq_false_of_not_eq_true hno⟩)
      (by rw [hquiet.r]; exact Bool.false_ne_true)
  obtain ⟨l, hl, hlane, -⟩ := of_decide_eq_true hfull
  obtain ⟨hw, hready⟩ := h.ready_of_full hc hl hlane (slave c mem s none)
  rw [waits h hquiet hw] at hready
  exact absurd hready Bool.false_ne_true

include h hquiet in
theorem r_ready (hread : kr.todo = []) (hdepth : 0 < c.AxReqFifoDepth) : r_req_ready c s.engine = true := by
  have har : FifoV3.full_o c.AxReqFifoDepth s.engine.i_fifo_ar_emitter = false := by
    rw [Bool.eq_false_iff, Ne, h.read.ar_inv.full_o_iff, ars_sent hquiet, List.length_nil]
    omega
  have hr : FifoV3.full_o c.AxReqFifoDepth s.engine.i_fifo_r_emitter = false := by
    rw [Bool.eq_false_iff, Ne, h.read.r_inv.full_o_iff, h.read.descs, hread, List.map_nil, List.length_nil]
    omega
  rw [r_req_ready, har, hr]
  rfl

include hc h hquiet in
/-- Nothing is to be written. -/
theorem write_done : kw.todo = [] := by
  have hread := read_done hc h hquiet
  have hready := r_ready h hquiet hread hc.ax_depth.1
  by_contra hne
  obtain ⟨b, rest, htodo⟩ := List.exists_cons_of_ne_nil hne
  have hwait := waits h hquiet hne
  -- bytes of its beat are missing, and only the reshaper can have them
  have hmissing : q.length < b.start c (kw.part + 1) - b.start c kw.part := by
    by_contra hge
    rw [h.ready htodo (not_lt.mp hge)] at hwait
    exact absurd hwait (by simp)
  have hpiece : b.start c (kw.part + 1) - b.start c kw.part ≤
      (kw.rest Chunk.bytes fun b => b.start c).length := by
    rw [Cursor.rest_next (write_cuts c) htodo, write_piece htodo, List.length_append, List.length_range']
    exact Nat.le_add_right _ _
  have hlen := length_rest_eq h hread
  have hpush : r_push s.engine.burst_q (reshaper_input c s.engine (slave c mem s none)) = false := hquiet.r_push
  have hpos : 0 < s.engine.burst_q.src.num_bytes := by omega
  rw [r_push_eq h.sides.src, decide_eq_true hpos, Bool.true_and, r_moves] at hpush
  have hr : (reshaper_input c s.engine (slave c mem s none)).r_ready_i = true := hready
  split_ifs at hpush with hdec
  · exact absurd (hr.symm.trans hpush) (by simp)
  · have := h.sides.coupled (Bool.eq_false_of_not_eq_true hdec)
    omega

include hc h hquiet in
/-- All data have been sent. -/
theorem all_sent : s.sent = kw.all.length := by
  rw [h.write.sent, Cursor.all, write_done hc h hquiet, List.append_nil]

include hc h hquiet in
/-- Neither queue towards the write channels is full: the one of the data is empty, and of the
addresses only those wait that the data sent have not overtaken. -/
theorem w_ready : w_req_ready c s.engine = true := by
  have hsent := all_sent hc h hquiet
  have hahead := h.ahead
  have hlen := congrArg List.length h.write.aws
  rw [List.length_append, List.length_map] at hlen
  have haw : FifoV3.full_o c.AxReqFifoDepth s.engine.i_fifo_aw_emitter = false := by
    rw [Bool.eq_false_iff, Ne, h.write.aw_inv.full_o_iff]
    omega
  have hw : FifoV3.full_o c.AxReqFifoDepth s.engine.i_fifo_w_emitter = false := by
    have := hc.ax_depth.1
    rw [Bool.eq_false_iff, Ne, h.write.w_inv.full_o_iff, h.write.descs, write_done hc h hquiet,
      List.map_nil, List.length_nil]
    omega
  rw [w_req_ready, haw, hw]
  rfl

include hc h hquiet in
/-- The reshaper can push on both sides, so it has nothing left to cut. -/
theorem cut_done : s.engine.burst_q.src.num_bytes = 0 ∧ s.engine.burst_q.dst.num_bytes = 0 := by
  have hr : r_push s.engine.burst_q (reshaper_input c s.engine (slave c mem s none)) = false := hquiet.r_push
  have hw : w_push s.engine.burst_q (reshaper_input c s.engine (slave c mem s none)) = false := hquiet.w_push
  have hri : (reshaper_input c s.engine (slave c mem s none)).r_ready_i = true :=
    r_ready h hquiet (read_done hc h hquiet) hc.ax_depth.1
  have hwi : (reshaper_input c s.engine (slave c mem s none)).w_ready_i = true := w_ready hc h hquiet
  rw [r_push_eq h.sides.src, r_moves, hri, hwi, Bool.and_self, ite_self, Bool.and_true,
    decide_eq_false_iff_not] at hr
  rw [w_push_eq h.sides.dst, w_moves, hri, hwi, Bool.and_self, ite_self, Bool.and_true,
    decide_eq_false_iff_not] at hw
  exact ⟨Nat.eq_zero_of_not_pos hr, Nat.eq_zero_of_not_pos hw⟩

include hc h hquiet in
/-- It would take the next request, so there is none. A request that asks for serialization could
be waiting, for those before it to be reported complete. -/
theorem no_request (hser : ∀ r ∈ s.reqs, r.serialize = false) :
    FifoV3.elems c.TransFifoDepth s.engine.i_burst_request_fifo = [] := by
  obtain ⟨hsrc, hdst⟩ := cut_done hc h hquiet
  by_contra hne
  have hempty : FifoV3.empty_o s.engine.i_burst_request_fifo = false := by
    rw [Bool.eq_false_iff, Ne, @FifoV3.empty_o_iff _ c.TransFifoDepth _]
    exact hne
  have hhead : FifoV3.data_o s.engine.i_burst_request_fifo ∈ s.reqs := by
    refine (h.reqs_ok _ ?_).2
    rw [h.queue.elems_eq_cons hempty]
    exact List.mem_cons_self
  have hvalid : burst_valid s.engine (slave c mem s none) = true := by
    rw [burst_valid, hser _ hhead, hempty]
    rfl
  have hready : (reshaper_input c s.engine (slave c mem s none)).valid_i = true := hvalid
  have hri : (reshaper_input c s.engine (slave c mem s none)).r_ready_i = true :=
    r_ready h hquiet (read_done hc h hquiet) hc.ax_depth.1
  have hwi : (reshaper_input c s.engine (slave c mem s none)).w_ready_i = true := w_ready hc h hquiet
  have hpop := hquiet.pop
  rw [burst_req_pop, Reshaper.ready_o, Reshaper.r_cut, Reshaper.w_cut, (cut_idle c _ hsrc).1,
    (cut_idle c _ hdst).1, hready, hri, hwi] at hpop
  exact absurd hpop (by simp)

include hc h hm hquiet in
/-- **If nothing moves, everything is done.** -/
theorem quiet_done (hser : ∀ r ∈ s.reqs, r.serialize = false) : Done c s kr kw := by
  obtain ⟨hsrc, hdst⟩ := cut_done hc h hquiet
  have hsent := all_sent hc h hquiet
  have hlen := congrArg List.length h.write.aws
  rw [List.length_append, List.length_map] at hlen
  -- the addresses are all sent, since only data ahead of them could make one wait
  have haws : s.aws = kw.all.map fun b => b.ax c := by
    rcases aws_sent h hquiet with haws | hwait
    · exact haws
    · omega
  refine ⟨no_request hc h hquiet hser, hsrc, hdst, read_done hc h hquiet, write_done hc h hquiet, haws, ?_⟩
  -- and every burst has its response, since the slave would send one
  have hle := hm.bs_aws
  have hb := hquiet.b
  rw [slave, decide_eq_false_iff_not] at hb
  rw [haws, List.length_map] at hle hb
  omega

end Stuck

/-! ## What can move is bounded -/

/-- What has moved. -/
def moved (s : Sys) (kr : Cursor ReadChunk) (kw : Cursor Chunk) : ℕ :=
  kr.all.length + kw.all.length + s.ars.length + s.r_beats + s.aws.length + s.ws.length + s.bs

/-- The bytes of all transfers. -/
def total (s : Sys) : ℕ := (s.reqs.map burst_req_t.num_bytes).sum

/-- A burst of `n` bytes has at most `n + 1` beats. -/
theorem Chunk.beats_le (b : Chunk) : b.beats c ≤ b.len := by
  have hoff := b.offset_lt (c := c)
  have hpos := c.strb_pos
  rw [Chunk.beats, ← Nat.lt_succ_iff, Nat.div_lt_iff_lt_mul hpos, Nat.succ_mul]
  have := Nat.le_mul_of_pos_right b.len hpos
  omega

/-- The chunks and their beats, where their bytes are among `n`. -/
theorem chunks_le {bs : List Chunk} {addrs : List ℕ} (hfits : ∀ b ∈ bs, b.Fits c)
    (h : bs.flatMap Chunk.bytes <+: addrs) :
    bs.length ≤ addrs.length ∧ (bs.map fun b => b.beats c + 1).sum ≤ 2 * addrs.length := by
  have hle := h.length_le
  have hbytes : ∀ b : Chunk, b.bytes.length = b.len := fun _ => List.length_range'
  rw [List.length_flatMap, List.map_congr_left fun b _ => hbytes b] at hle
  have hboth : bs.length ≤ (bs.map Chunk.len).sum ∧
      (bs.map fun b => b.beats c + 1).sum ≤ 2 * (bs.map Chunk.len).sum := by
    clear h hle
    induction bs with
    | nil => exact ⟨le_rfl, le_rfl⟩
    | cons b bs ih =>
        obtain ⟨hb, hbs⟩ := List.forall_mem_cons.mp hfits
        obtain ⟨hlen, hbeats⟩ := ih hbs
        have hpos := hb.pos
        have hle := b.beats_le (c := c)
        rw [List.length_cons, List.map_cons, List.map_cons, List.sum_cons, List.sum_cons]
        omega
  omega

theorem Inv.moved_le (h : Inv c mem s kr kw rdst q) (hm : Marks c s kw) : moved s kr kw ≤ 9 * total s := by
  have hsum : ∀ f : burst_req_t → List ℕ, (∀ r, (f r).length = r.num_bytes) →
      (s.reqs.flatMap f).length = total s := by
    intro f hf
    rw [List.length_flatMap, total, List.map_congr_left fun r _ => hf r]
  -- the bytes of the cut bursts are at most those of the transfers
  have hsrc : (kr.all.map fun b => b.toChunk).flatMap Chunk.bytes <+: s.reqs.flatMap burst_req_t.src_bytes := by
    rw [← h.src, List.flatMap_map, List.append_assoc]
    exact List.prefix_append _ _
  have hdst : kw.all.flatMap Chunk.bytes <+: s.reqs.flatMap burst_req_t.dst_bytes := by
    rw [← h.dst, List.append_assoc]
    exact List.prefix_append _ _
  have hrfits : ∀ b ∈ kr.all.map (fun b => b.toChunk), b.Fits c := by
    intro b hb
    obtain ⟨b', hb', rfl⟩ := List.mem_map.mp hb
    exact h.read.fits b' hb'
  -- a burst has at least one byte, and at most two beats for each of its bytes
  obtain ⟨hr, hrb⟩ := chunks_le hrfits hsrc
  obtain ⟨hw, hwb⟩ := chunks_le h.write.fits hdst
  rw [hsum burst_req_t.src_bytes fun _ => List.length_range'] at hr hrb
  rw [hsum burst_req_t.dst_bytes fun _ => List.length_range'] at hw hwb
  rw [List.length_map] at hr
  rw [List.map_map] at hrb
  -- beats, addresses and responses are at most as many
  have hrbeats : s.r_beats ≤ 2 * total s := h.read.beats ▸ h.read.ok.count_le.trans hrb
  have hwbeats : s.ws.length ≤ 2 * total s := h.write.beats ▸ h.write.ok.count_le.trans hwb
  have hars := congrArg List.length h.read.ars
  have haws := congrArg List.length h.write.aws
  rw [List.length_append, List.length_map] at hars haws
  have hbs := hm.bs_aws
  rw [moved]
  omega

/-- **Something moves**, as long as anything is left. -/
theorem moves (h : Inv c mem s kr kw rdst q) (hnot : ¬Quiet c s.engine (slave c mem s none)) :
    moved s kr kw + (FifoV3.elems c.TransFifoDepth
        (serve c mem s none).engine.i_burst_request_fifo).length + 1 ≤
      moved (serve c mem s none) (r_next c s (slave c mem s none) rdst kr) (w_next c s (slave c mem s none) kw) +
        (FifoV3.elems c.TransFifoDepth s.engine.i_burst_request_fifo).length := by
  rw [serve]
  generalize hi : slave c mem s none = i at *
  have hite : ∀ b : Bool, (if b then 1 else 0) = b.toNat := fun b => by cases b <;> rfl
  -- how far each count goes in this cycle
  have hkr : (r_next c s i rdst kr).all.length = kr.all.length + (r_req_push c s.engine i).toNat := by
    rw [r_next_all, List.length_append, r_new, Sync.length_if]
  have hkw : (w_next c s i kw).all.length = kw.all.length + (w_req_push c s.engine i).toNat := by
    rw [w_next_all, List.length_append, w_new, Sync.length_if]
  have hars : (s.step c i).ars.length = s.ars.length + (ar_emitter_pop s.engine i).toNat :=
    Sync.length_append_if _ _ _
  have haws : (s.step c i).aws.length = s.aws.length + (aw_emitter_pop s.engine i).toNat :=
    Sync.length_append_if _ _ _
  have hws : (s.step c i).ws.length = s.ws.length + (w_handshake c s.engine i).toNat :=
    Sync.length_append_if _ _ _
  have hr : (s.step c i).r_beats = s.r_beats + (r_handshake c s.engine i).toNat :=
    congrArg (s.r_beats + ·) (hite _)
  have hbs : (s.step c i).bs = s.bs + i.b_valid.toNat := congrArg (s.bs + ·) (hite _)
  -- the queue of requests only gets shorter, as nothing is asked for
  have hqueue : (burst_req_pop c s.engine i).toNat +
      (FifoV3.elems c.TransFifoDepth (s.step c i).engine.i_burst_request_fifo).length =
        (FifoV3.elems c.TransFifoDepth s.engine.i_burst_request_fifo).length := by
    have hq := congrArg List.length (h.queue.queue_step
      (i := ⟨i.burst_req_i, i.valid_i && ready_o c s.engine, burst_req_pop c s.engine i⟩)
      (fun hp => by simpa [ready_o] using (Bool.and_eq_true_iff.mp hp).2) burst_req_pop_spec)
    have hidle : i.valid_i = false := by
      rw [← hi]
      rfl
    have hfifo : (s.step c i).engine.i_burst_request_fifo =
        FifoV3.step c.TransFifoDepth s.engine.i_burst_request_fifo
          ⟨i.burst_req_i, i.valid_i && ready_o c s.engine, burst_req_pop c s.engine i⟩ := rfl
    rw [List.length_append, List.length_append, Sync.length_if, Sync.length_if] at hq
    rw [hfifo]
    refine hq.trans ?_
    rw [hidle]
    rfl
  -- something moves, since the cycle is not quiet
  have hsome : 1 ≤ (r_req_push c s.engine i).toNat + (w_req_push c s.engine i).toNat +
      (ar_emitter_pop s.engine i).toNat + (r_handshake c s.engine i).toNat + (aw_emitter_pop s.engine i).toNat +
      (w_handshake c s.engine i).toNat + i.b_valid.toNat + (burst_req_pop c s.engine i).toNat := by
    by_contra hno
    have hfalse : ∀ b : Bool, b.toNat = 0 → b = false := fun b hb => by simpa using hb
    exact hnot ⟨hfalse _ (by omega), hfalse _ (by omega), hfalse _ (by omega), hfalse _ (by omega),
      hfalse _ (by omega), hfalse _ (by omega), hfalse _ (by omega), hfalse _ (by omega)⟩
  rw [moved, moved, hkr, hkw, hars, haws, hws, hr, hbs]
  omega

/-- What a state has to show where everything is done. -/
theorem Done.result (h : Inv c mem s kr kw rdst q) (hm : Marks c s kw) (hd : Done c s kr kw) :
    AxiIncr.written c.OffsetWidth (s.aws.map desc_ax_t.incr) s.ws = s.reqs.flatMap (burst_req_t.pairs mem) ∧
      s.completes = (s.reqs.filter fun r => r.num_bytes ≠ 0).length := by
  constructor
  · have haws : s.aws.map desc_ax_t.incr = kw.all.map fun b => b.incr c := by
      rw [hd.aws, List.map_map]
      rfl
    have hrest : (kr.rest (ReadChunk.pairs mem) fun b => b.start c) = [] := by
      rw [Cursor.rest, hd.read]
    have hpairs := h.pairs
    rw [h.idle hd.write, hrest, src_pairs_nil hd.src, hd.queue, List.flatMap_nil] at hpairs
    rw [haws]
    simpa using hpairs
  · have hlen := (hm.reported h).2
    have hsizes := congrArg List.length hm.sizes
    rw [hd.resp, List.take_length] at hlen
    rw [owed, if_pos hd.dst, hd.queue, List.flatMap_nil, List.append_nil, List.append_nil, sizes_eq,
      List.length_map, hlen] at hsizes
    exact hsizes

theorem serve_reqs (c : Cfg) (mem : ℕ → Byte) (s : Sys) : (serve c mem s none).reqs = s.reqs :=
  List.append_nil _

/-- Within `n` cycles, if `n` is what can still move. -/
theorem drains (hc : c.Ok) (n : ℕ) (h : Inv c mem s kr kw rdst q) (hm : Marks c s kw)
    (hser : ∀ r ∈ s.reqs, r.serialize = false)
    (hle : 9 * total s + (FifoV3.elems c.TransFifoDepth s.engine.i_burst_request_fifo).length ≤
      moved s kr kw + n) :
    ∃ m ≤ n, ∃ s', s' = (List.replicate m none).foldl (serve c mem) s ∧ s'.reqs = s.reqs ∧
      AxiIncr.written c.OffsetWidth (s'.aws.map desc_ax_t.incr) s'.ws = s.reqs.flatMap (burst_req_t.pairs mem) ∧
      s'.completes = (s.reqs.filter fun r => r.num_bytes ≠ 0).length := by
  -- induction on the moves that are left
  induction n generalizing s kr kw rdst q with
  | zero =>
      -- none is left: if the cycle were not quiet, one more would move than can
      have hquiet : Quiet c s.engine (slave c mem s none) := by
        by_contra hnot
        have hstep := moves h hnot
        have he := h.idle_env hc
        obtain ⟨rdst', q', h'⟩ := h.step hc he.toEnv
        have hbound := h'.moved_le (hm.step hc h he)
        have htotal : total (s.step c (slave c mem s none)) = total s :=
          congrArg (fun l : List burst_req_t => (l.map burst_req_t.num_bytes).sum) (serve_reqs c mem s)
        rw [htotal] at hbound
        rw [serve] at hstep
        omega
      exact ⟨0, le_rfl, s, rfl, rfl, (quiet_done hc h hm hquiet hser).result h hm⟩
  | succ n ih =>
      -- quiet: all is done
      by_cases hquiet : Quiet c s.engine (slave c mem s none)
      · exact ⟨0, Nat.zero_le _, s, rfl, rfl, (quiet_done hc h hm hquiet hser).result h hm⟩
      · -- one cycle, and at least one move fewer is left
        have hstep := moves h hquiet
        have he := h.idle_env hc
        obtain ⟨rdst', q', h'⟩ := h.step hc he.toEnv
        have hreqs := serve_reqs c mem s
        have htotal : total (serve c mem s none) = total s :=
          congrArg (fun l : List burst_req_t => (l.map burst_req_t.num_bytes).sum) hreqs
        obtain ⟨m, hmn, s', hs', hrest⟩ := ih h' (hm.step hc h he) (fun r hr => hser r (hreqs ▸ hr)) (by
          change 9 * total (serve c mem s none) +
            (FifoV3.elems c.TransFifoDepth (serve c mem s none).engine.i_burst_request_fifo).length ≤ _
          rw [htotal]
          rw [serve] at hstep ⊢
          omega)
        refine ⟨m + 1, Nat.succ_le_succ hmn, s', hs', ?_⟩
        rw [show (s.step c (slave c mem s none)).reqs = s.reqs from hreqs] at hrest
        exact hrest

/-- **An ideal slave drains the engine.** From every state, within as many cycles as can be
needed, everything that the transfers ask for is written and every transfer that is not empty
is reported. -/
theorem dma_completes (c : Cfg) (hc : c.Ok) (mem : ℕ → Byte) (s : Sys) (h : ReachB c mem s)
    (hser : ∀ r ∈ s.reqs, r.serialize = false) :
    ∃ n ≤ 9 * total s + c.TransFifoDepth, ∃ s', s' = (List.replicate n none).foldl (serve c mem) s ∧
      s'.reqs = s.reqs ∧
      AxiIncr.written c.OffsetWidth (s'.aws.map desc_ax_t.incr) s'.ws = s.reqs.flatMap (burst_req_t.pairs mem) ∧
      s'.completes = (s.reqs.filter fun r => r.num_bytes ≠ 0).length := by
  obtain ⟨kr, kw, rdst, q, hinv, hm⟩ := h.inv hc
  have hdepth : (FifoV3.elems c.TransFifoDepth s.engine.i_burst_request_fifo).length ≤ c.TransFifoDepth := by
    rw [FifoV3.length_elems]
    exact hinv.queue.cnt_le
  exact drains hc _ hinv hm hser (by omega)

theorem dma_completes_demo : ∃ s, s = serve ⟨1, 32, 2, 2, 2⟩ demo_mem Sys.init (some demo_req) ∧
    ∃ n ≤ 9 * total s + 2, ∃ s', s' = (List.replicate n none).foldl (serve ⟨1, 32, 2, 2, 2⟩ demo_mem) s ∧
      s'.reqs = s.reqs ∧
      AxiIncr.written 1 (s'.aws.map desc_ax_t.incr) s'.ws = s.reqs.flatMap (burst_req_t.pairs demo_mem) ∧
      s'.completes = (s.reqs.filter fun r => r.num_bytes ≠ 0).length :=
  ⟨_, rfl, dma_completes _ demo_ok _ _ (ReachB.serve demo_ok (.reset rfl) fun r hr => by
      obtain rfl : demo_req = r := Option.some.inj hr
      exact demo_req_ok) fun r hr => by
      obtain rfl : r = demo_req := List.mem_singleton.mp hr
      rfl⟩

/-! ## A transfer that blocks the engine

A transfer without bytes is taken like any other and counts as in flight, but no burst and so
no response ever ends it. One that asks for serialization then waits for good. -/

/-- The engine waits for good: a transfer counts as in flight, the one behind it asks for
serialization, and nothing is left in the engine that could still be answered. -/
structure Blocked (s : Sys) : Prop where
  in_flight : s.engine.in_flight_q = true
  waiting : FifoV3.empty_o s.engine.i_burst_request_fifo = false
  head : (FifoV3.data_o s.engine.i_burst_request_fifo).serialize = true
  src : s.engine.burst_q.src.num_bytes = 0
  dst : s.engine.burst_q.dst.num_bytes = 0
  emitter : FifoV3.empty_o s.engine.i_fifo_aw_emitter = true
  resp : s.bs = s.aws.length

/-- Every burst has its response, so no further one comes. -/
theorem Blocked.no_resp (hb : Blocked s) (he : EnvB c mem s i) : i.b_valid = false := by
  have hresp := hb.resp
  by_contra hv
  have hlt := (he.resp (Bool.eq_true_of_not_eq_false hv)).2
  omega

/-- And the transfer in flight is never reported. -/
theorem Blocked.no_complete (hb : Blocked s) (he : EnvB c mem s i) : trans_complete_o s.engine i = false := by
  rw [trans_complete_o, hb.no_resp he, Bool.and_false]

/-- `proc_in_flight_check` holds back the transfer that asks for serialization. -/
theorem Blocked.no_pop (hb : Blocked s) (he : EnvB c mem s i) : burst_req_pop c s.engine i = false := by
  have hvalid : burst_valid s.engine i = false := by
    rw [burst_valid, hb.head, hb.in_flight, hb.no_complete he]
    simp
  by_contra hp
  obtain ⟨-, -, hv, -⟩ := ready_o_spec (Bool.eq_true_of_not_eq_false hp)
  exact absurd (hv.symm.trans hvalid) (by simp)

/-- Nothing is left to cut, so the write FIFO gets no chunk. -/
theorem Blocked.no_push (h : Inv c mem s kr kw rdst q) (hb : Blocked s) : w_req_push c s.engine i = false := by
  refine (w_push_eq (i := reshaper_input c s.engine i) h.sides.dst).trans ?_
  rw [hb.dst]
  rfl

/-- And the empty FIFO sends no address. -/
theorem Blocked.no_aw (hb : Blocked s) : aw_emitter_pop s.engine i = false := by
  rw [aw_emitter_pop, aw_valid, hb.emitter]
  exact Bool.and_false _

theorem Blocked.aws_step (hb : Blocked s) : (s.step c i).aws = s.aws := by
  change s.aws ++ (if aw_emitter_pop s.engine i then _ else _) = _
  rw [hb.no_aw]
  exact List.append_nil _

/-- The transfer that waits stays the first of the queue. -/
theorem Blocked.queue_step (h : Inv c mem s kr kw rdst q) (hb : Blocked s) (he : EnvB c mem s i) :
    FifoV3.elems c.TransFifoDepth (s.step c i).engine.i_burst_request_fifo =
      FifoV3.data_o s.engine.i_burst_request_fifo ::
        ((FifoV3.elems c.TransFifoDepth s.engine.i_burst_request_fifo).tail ++
          if i.valid_i && ready_o c s.engine then [i.burst_req_i] else []) := by
  have hq := h.queue.elems_step_of
    (i := ⟨i.burst_req_i, i.valid_i && ready_o c s.engine, burst_req_pop c s.engine i⟩)
    (fun hp => by simpa [ready_o] using (Bool.and_eq_true_iff.mp hp).2) burst_req_pop_spec
  refine hq.trans ?_
  rw [hb.no_pop he, if_neg Bool.false_ne_true, h.queue.elems_eq_cons hb.waiting]
  rfl

/-- Neither side of the reshaper gets anything to cut. -/
theorem Blocked.burst_step (hb : Blocked s) (he : EnvB c mem s i) :
    (s.step c i).engine.burst_q.src.num_bytes = 0 ∧ (s.step c i).engine.burst_q.dst.num_bytes = 0 := by
  have hburst : (s.step c i).engine.burst_q = _ :=
    step_of_not_ready (c := c) (q := s.engine.burst_q) (i := reshaper_input c s.engine i) (hb.no_pop he)
  rw [hburst]
  constructor
  · dsimp only
    split_ifs
    · exact congrArg burst_chan_t.num_bytes (cut_idle c _ hb.src).2
    · exact hb.src
  · dsimp only
    split_ifs
    · exact congrArg burst_chan_t.num_bytes (cut_idle c _ hb.dst).2
    · exact hb.dst

theorem Blocked.emitter_step (h : Inv c mem s kr kw rdst q) (hb : Blocked s) :
    FifoV3.empty_o (s.step c i).engine.i_fifo_aw_emitter = true := by
  have haw : aw_emitter_pop s.engine i = false := hb.no_aw
  have hq := h.write.aw_inv.elems_step_of
    (i := ⟨Reshaper.aw c s.engine.burst_q, w_req_push c s.engine i, aw_emitter_pop s.engine i⟩)
    (fun hp => (w_req_push_free hp).1) fun hp => absurd (hp.symm.trans haw) (by simp)
  rw [@FifoV3.empty_o_iff _ c.AxReqFifoDepth _]
  refine hq.trans ?_
  rw [FifoV3.empty_o_iff.mp hb.emitter, hb.no_push h, haw]
  rfl

/-- One cycle leaves the engine blocked, and it neither sends an address nor reports a transfer. -/
theorem Blocked.step (h : Inv c mem s kr kw rdst q) (hb : Blocked s) (he : EnvB c mem s i) :
    Blocked (s.step c i) ∧ (s.step c i).aws = s.aws ∧ (s.step c i).completes = s.completes := by
  have hqueue := hb.queue_step h he
  refine ⟨⟨?_, ?_, ?_, (hb.burst_step he).1, (hb.burst_step he).2, hb.emitter_step h, ?_⟩, hb.aws_step, ?_⟩
  · change in_flight_d c s.engine i = true
    rw [in_flight_d, hb.no_pop he, hb.no_complete he, hb.in_flight]
    rfl
  · rw [Bool.eq_false_iff, Ne, @FifoV3.empty_o_iff _ c.TransFifoDepth _, hqueue]
    exact List.cons_ne_nil _ _
  · have hinv : FifoV3.Inv c.TransFifoDepth (s.step c i).engine.i_burst_request_fifo := h.queue.step _
    rw [hinv.data_o_eq (congrArg List.head? hqueue)]
    exact hb.head
  · rw [hb.aws_step, ← hb.resp]
    change s.bs + (if i.b_valid then 1 else 0) = s.bs
    rw [hb.no_resp he]
    rfl
  · change s.completes + (if trans_complete_o s.engine i then 1 else 0) = s.completes
    rw [hb.no_complete he]
    rfl

/-- **A serialized transfer behind an empty one is never carried out**, whatever happens at the
ports: the engine sends no further address and reports no further transfer. -/
theorem dma_blocked (c : Cfg) (hc : c.Ok) (mem : ℕ → Byte) (s : Sys) (h : ReachB c mem s) (hb : Blocked s)
    (is : List Input) (ha : Sync.Allowed (Sys.step c) (EnvB c mem) s is) :
    Blocked (Sync.run (Sys.step c) s is) ∧ (Sync.run (Sys.step c) s is).aws = s.aws ∧
      (Sync.run (Sys.step c) s is).completes = s.completes := by
  obtain ⟨kr, kw, rdst, q, hinv⟩ := h.reach.inv hc
  have hstep : ∀ t i, (((∃ kr kw rdst q, Inv c mem t kr kw rdst q) ∧ Blocked t) ∧ t.aws = s.aws ∧
      t.completes = s.completes) → EnvB c mem t i →
      (((∃ kr kw rdst q, Inv c mem (t.step c i) kr kw rdst q) ∧ Blocked (t.step c i)) ∧
        (t.step c i).aws = s.aws ∧ (t.step c i).completes = s.completes) := by
    rintro t i ⟨⟨⟨kr, kw, rdst, q, hinv⟩, hb⟩, haws, hcompletes⟩ he
    obtain ⟨rdst', q', h'⟩ := hinv.step hc he.toEnv
    obtain ⟨hb', haws', hcompletes'⟩ := hb.step hinv he
    exact ⟨⟨⟨_, _, _, _, h'⟩, hb'⟩, haws'.trans haws, hcompletes'.trans hcompletes⟩
  obtain ⟨⟨-, hb'⟩, hsame⟩ := (Sync.Always.of_inv hstep
    (⟨⟨⟨kr, kw, rdst, q, hinv⟩, hb⟩, rfl, rfl⟩) ha).last
  exact ⟨hb', hsame⟩

/-- An empty transfer, and one that is serialized. -/
def blocked_run : Sys :=
  [some { demo_req with num_bytes := 0 }, some { demo_req with serialize := true }, none].foldl
    (serve ⟨1, 32, 2, 2, 2⟩ demo_mem) Sys.init

theorem blocked_reach : ReachB ⟨1, 32, 2, 2, 2⟩ demo_mem blocked_run := by
  refine ReachB.serve_all demo_ok (fun o ho r hr => ?_) (.reset rfl)
  simp only [List.mem_cons, List.not_mem_nil, or_false] at ho
  rcases ho with rfl | rfl | rfl
  · obtain rfl := Option.some.inj hr
    constructor <;> decide
  · obtain rfl := Option.some.inj hr
    constructor <;> decide
  · exact absurd hr (by simp)

theorem dma_blocked_demo : ∃ s i, ReachB ⟨1, 32, 2, 2, 2⟩ demo_mem s ∧ Blocked s ∧ s.reqs.length = 2 ∧
    Blocked (Sync.run (Sys.step ⟨1, 32, 2, 2, 2⟩) s [i]) ∧
      (Sync.run (Sys.step ⟨1, 32, 2, 2, 2⟩) s [i]).aws = s.aws ∧
      (Sync.run (Sys.step ⟨1, 32, 2, 2, 2⟩) s [i]).completes = s.completes := by
  have hb : Blocked blocked_run := by
    constructor <;> decide +kernel
  obtain ⟨kr, kw, rdst, q, hinv⟩ := blocked_reach.reach.inv demo_ok
  refine ⟨blocked_run, slave ⟨1, 32, 2, 2, 2⟩ demo_mem blocked_run none, blocked_reach, hb, by decide +kernel, ?_⟩
  exact dma_blocked _ demo_ok _ _ blocked_reach hb _
    ⟨hinv.idle_env demo_ok, trivial⟩

end Pspin.AxiDma
