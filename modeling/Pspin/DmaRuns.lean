/-
The DMA engine copies.

What it has written, what is in its buffer, what is due on the read side and what is left of
its transfers is, in this order, what the transfers ask for (`Inv.pairs`). So it never writes
anything else, whatever the two sides of its AXI port do and whenever.
-/
import Mathlib.Data.List.Infix
import Pspin.DmaChannels

set_option autoImplicit false

namespace Pspin.AxiDma

open ByteLanes

variable {c : Cfg} {s : Sys} {i : Input} {mem : ℕ → Byte} {rdst : ℕ} {kr : Cursor ReadChunk} {kw : Cursor Chunk}
variable {q : List (ℕ × Byte)}

/-! ## The environment -/

/-- What the outside may do in a cycle. Transfers are such as the engine can carry out; the
slave answers the reads that it was asked for, in their order; and it does not take the data
of so many bursts ahead of their addresses that the FIFO of these is full. -/
structure Env (c : Cfg) (mem : ℕ → Byte) (s : Sys) (i : Input) : Prop where
  req : i.valid_i = true → i.burst_req_i.Ok c
  read : i.r_valid = true →
    AxiIncr.Answers c.OffsetWidth mem (s.ars.map desc_ax_t.incr) s.r_beats i.r_data i.r_last
  ahead : (s.step c i).sent + 2 ≤ (s.step c i).aws.length + c.AxReqFifoDepth

/-- The states of every run against a slave that answers reads with the bytes of `mem`. -/
def Reach (c : Cfg) (mem : ℕ → Byte) : Sys → Prop := Sync.Reach (· = Sys.init) (Sys.step c) (Env c mem)

/-- An environment that also keeps to the rules for responses: one for each burst, once its
address and its data are there. It leaves no more bursts without a response than the queue of
the marks can hold. -/
structure EnvB (c : Cfg) (mem : ℕ → Byte) (s : Sys) (i : Input) : Prop extends Env c mem s i where
  resp : i.b_valid = true → s.bs < s.sent ∧ s.bs < s.aws.length
  room : aw_emitter_pop s.engine i = true → s.aws.length < s.bs + c.LastFifoDepth

/-- The same, with a slave that also sends its write responses in time. -/
def ReachB (c : Cfg) (mem : ℕ → Byte) : Sys → Prop := Sync.Reach (· = Sys.init) (Sys.step c) (EnvB c mem)

theorem ReachB.reach (h : ReachB c mem s) : Reach c mem s := h.mono fun _ _ he => he.toEnv

/-! ## The buffer -/

/-- The lanes of the buffer have the bytes of `q`. -/
structure Buffer (c : Cfg) (d : DataPath.State) (q : List (ℕ × Byte)) : Prop where
  inv : ∀ l < c.StrbWidth, FifoV3.Inv c.BufferDepth (d.fifo_buffer l)
  lanes : ∀ l < c.StrbWidth, FifoV3.elems c.BufferDepth (d.fifo_buffer l) = lane c.StrbWidth q l

/-- A cycle of the lanes: bytes leave in the order of the queue and join at its end. Which lane a
byte has does not depend on the cycle, only on its address. -/
theorem Buffer.step {d : DataPath.State} {di : DataPath.Input} {q₁ q₂ new : List (ℕ × Byte)}
    (h : Buffer c d (q₁ ++ q₂))
    (hout : ∀ l < c.StrbWidth, lane c.StrbWidth q₁ l =
      if DataPath.buffer_pop c d di l then [FifoV3.data_o (d.fifo_buffer l)] else [])
    (hin : ∀ l < c.StrbWidth, lane c.StrbWidth new l =
      if DataPath.buffer_push c d di l then [DataPath.buffer_in c di l] else []) :
    Buffer c (DataPath.step c d di) (q₂ ++ new) := by
  refine ⟨fun l hl => (h.inv l hl).step _, fun l hl => ?_⟩
  -- a push is only made when no lane that gets a byte is full
  have hpush : DataPath.buffer_push c d di l = true →
      FifoV3.full_o c.BufferDepth (d.fifo_buffer l) = false := by
    intro hp
    obtain ⟨hp, hmask⟩ := Bool.and_eq_true_iff.mp hp
    have hfull := (Bool.and_eq_true_iff.mp hp).2
    rw [Bool.not_eq_true', DataPath.full, decide_eq_false_iff_not] at hfull
    by_contra hno
    exact hfull ⟨l, hl, Bool.eq_true_of_not_eq_false hno, hmask⟩
  -- a pop is only made when all lanes that give a byte have one
  have hpop : DataPath.buffer_pop c d di l = true → FifoV3.empty_o (d.fifo_buffer l) = false := by
    intro hp
    obtain ⟨hw, hmask⟩ := Bool.and_eq_true_iff.mp hp
    exact (available_iff.mp (Bool.and_eq_true_iff.mp hw).1).1 l hl hmask
  have hq := (h.inv l hl).queue_step (i := DataPath.fifo_input c d di l) hpush hpop
  rw [h.lanes l hl, lane_append, List.append_assoc] at hq
  rw [lane_append, hin l hl]
  apply List.append_cancel_left
  refine Eq.trans ?_ hq
  rw [hout l hl]
  rfl

/-! ## The invariant -/

/-- What holds in every cycle, for the cursors of the two sides, the place of the next byte
that is read and the bytes in the buffer. -/
structure Inv (c : Cfg) (mem : ℕ → Byte) (s : Sys) (kr : Cursor ReadChunk) (kw : Cursor Chunk)
    (rdst : ℕ) (q : List (ℕ × Byte)) : Prop where
  queue : FifoV3.Inv c.TransFifoDepth s.engine.i_burst_request_fifo
  reqs_ok : ∀ r ∈ FifoV3.elems c.TransFifoDepth s.engine.i_burst_request_fifo, r.Ok c ∧ r ∈ s.reqs
  sides : Sides c s.engine.burst_q rdst
  read : ReadSide c s kr
  write : WriteSide c s kw
  buffer : Buffer c s.engine.data_path q
  src : (kr.all.flatMap fun b => b.bytes) ++ s.engine.burst_q.src.bytes ++
    (FifoV3.elems c.TransFifoDepth s.engine.i_burst_request_fifo).flatMap burst_req_t.src_bytes =
      s.reqs.flatMap burst_req_t.src_bytes
  dst : kw.all.flatMap Chunk.bytes ++ s.engine.burst_q.dst.bytes ++
    (FifoV3.elems c.TransFifoDepth s.engine.i_burst_request_fifo).flatMap burst_req_t.dst_bytes =
      s.reqs.flatMap burst_req_t.dst_bytes
  pairs : AxiIncr.written c.OffsetWidth (kw.all.map fun b => b.incr c) s.ws ++ q ++
    kr.rest (ReadChunk.pairs mem) (fun b => b.start c) ++ src_pairs mem s.engine.burst_q rdst ++
    (FifoV3.elems c.TransFifoDepth s.engine.i_burst_request_fifo).flatMap (burst_req_t.pairs mem) =
      s.reqs.flatMap (burst_req_t.pairs mem)
  addrs : q.map Prod.fst ++ ((kr.rest (ReadChunk.pairs mem) fun b => b.start c).map Prod.fst ++
    (src_pairs mem s.engine.burst_q rdst).map Prod.fst) =
      (kw.rest Chunk.bytes fun b => b.start c) ++ s.engine.burst_q.dst.bytes
  lag : kw.todo = [] → s.engine.burst_q.dst.num_bytes ≤ s.engine.burst_q.src.num_bytes
  ahead : s.sent + 2 ≤ s.aws.length + c.AxReqFifoDepth

/-- Without a chunk to write there is nothing in the buffer. -/
theorem Inv.idle (h : Inv c mem s kr kw rdst q) (htodo : kw.todo = []) : q = [] := by
  have hlen := congrArg List.length h.addrs
  have hlag := h.lag htodo
  have hrest : kw.rest Chunk.bytes (fun b => b.start c) = [] := by
    rw [Cursor.rest, htodo]
  rw [hrest, List.nil_append, burst_chan_t.bytes, List.length_append, List.length_append,
    List.length_map, List.length_map, List.length_map, List.length_range', src_pairs, AxiIncr.length_stretch] at hlen
  rw [← List.length_eq_zero_iff]
  omega

/-- With nothing in the queue all lanes are empty. -/
theorem Buffer.clean {d : DataPath.State} (h : Buffer c d []) : DataPath.buffer_clean c d = true := by
  rw [DataPath.buffer_clean, decide_eq_true_iff]
  intro l hl
  rw [DataPath.buffer_empty, @FifoV3.empty_o_iff _ c.BufferDepth _, h.lanes l hl]
  rfl

/-- So data are written only for a chunk. -/
theorem Inv.busy (h : Inv c mem s kr kw rdst q) (hh : w_handshake c s.engine i = true) : kw.todo ≠ [] := by
  intro htodo
  have hq := h.idle htodo
  have hbuf := h.buffer
  rw [hq] at hbuf
  have hready := (Bool.and_eq_true_iff.mp hh).1
  have hclean := (available_iff.mp hready).2
  rw [hbuf.clean] at hclean
  exact absurd hclean (by simp)

/-! ## A cycle -/

/-- What the read side puts on the lanes. -/
theorem ReadSide.piece (h : ReadSide c s kr) (rdst : ℕ) (hans : i.r_valid = true →
      AxiIncr.Answers c.OffsetWidth mem (s.ars.map desc_ax_t.incr) s.r_beats i.r_data i.r_last) :
    ∃ new, (kr.rest (ReadChunk.pairs mem) fun b => b.start c) ++
        (r_new c s.engine i rdst).flatMap (ReadChunk.pairs mem) =
        new ++ ((r_next c s i rdst kr).rest (ReadChunk.pairs mem) fun b => b.start c) ∧
      ∀ l < c.StrbWidth, lane c.StrbWidth new l =
        if DataPath.buffer_push c s.engine.data_path (data_path_input s.engine i) l then
          [DataPath.buffer_in c (data_path_input s.engine i) l] else [] := by
  have hpush : ∀ l, DataPath.buffer_push c s.engine.data_path (data_path_input s.engine i) l =
      (r_handshake c s.engine i &&
        DataPath.in_mask c s.engine.data_path (data_path_input s.engine i) l) := fun _ => rfl
  by_cases hh : r_handshake c s.engine i = true
  · -- a beat arrives: the bytes of the head of the queue that lie in it, each in the lane of its
    -- place
    obtain ⟨b, rest, htodo, hpart, hdata, hlast⟩ := h.due (hans (r_handshake_iff.mp hh).1)
    have hmem : b ∈ kr.all := by
      rw [Cursor.all, htodo]
      exact List.mem_append_right _ List.mem_cons_self
    refine ⟨kr.piece (ReadChunk.pairs mem) fun b => b.start c, ?_, fun l hl => ?_⟩
    · rw [r_next, if_pos hh, Cursor.rest_push h.ok.next (read_cuts c mem),
        Cursor.rest_next (read_cuts c mem) htodo, List.append_assoc]
    · rw [hpush, hh, Bool.true_and]
      refine read_beat htodo (h.fits b hmem) hpart (h.turn b hmem) ?_ h.first hlast hdata hl
      refine h.r_inv.data_o_eq ?_
      rw [h.descs, htodo]
      rfl
  · -- no beat, no bytes
    refine ⟨[], ?_, fun l _ => ?_⟩
    · rw [r_next, if_neg hh, Cursor.rest_push h.ok (read_cuts c mem), List.nil_append]
    · rw [hpush, Bool.eq_false_of_not_eq_true hh, Bool.false_and]
      rfl

/-- What the write side takes off them and writes. -/
theorem Inv.piece (h : Inv c mem s kr kw rdst q) (i : Input) : ∃ q₁ q₂, q = q₁ ++ q₂ ∧
    (kw.rest Chunk.bytes fun b => b.start c) ++ (w_new c s.engine i).flatMap Chunk.bytes =
      q₁.map Prod.fst ++ ((w_next c s i kw).rest Chunk.bytes fun b => b.start c) ∧
    AxiIncr.written c.OffsetWidth ((w_next c s i kw).all.map fun b => b.incr c) (s.step c i).ws =
      AxiIncr.written c.OffsetWidth (kw.all.map fun b => b.incr c) s.ws ++ q₁ ∧
    ∀ l < c.StrbWidth, lane c.StrbWidth q₁ l =
      if DataPath.buffer_pop c s.engine.data_path (data_path_input s.engine i) l then
        [FifoV3.data_o (s.engine.data_path.fifo_buffer l)] else [] := by
  have hcount := h.write.beats.trans (write_count kw)
  have hpop : ∀ l, DataPath.buffer_pop c s.engine.data_path (data_path_input s.engine i) l =
      (w_handshake c s.engine i &&
        DataPath.out_mask c s.engine.data_path (data_path_input s.engine i) l) := fun _ => rfl
  have hall := w_next_all c s i kw
  have hbeats : (AxiIncr.beats (kw.all.map fun b => b.incr c)).length =
      (AxiIncr.beats (kw.done.map fun b => b.incr c)).length +
        (AxiIncr.beats (kw.todo.map fun b => b.incr c)).length := by
    rw [Cursor.all, List.map_append, AxiIncr.beats_append, List.length_append]
  by_cases hh : w_handshake c s.engine i = true
  · obtain ⟨b, rest, htodo⟩ := List.exists_cons_of_ne_nil (h.busy hh)
    have hmem : b ∈ kw.all := by
      rw [Cursor.all, htodo]
      exact List.mem_append_right _ List.mem_cons_self
    obtain ⟨hcounting, hdesc⟩ := h.write.first (i := i) htodo
    have hwriting : Writing c s.engine.data_path (data_path_input s.engine i) kw b rest q _ _ :=
      ⟨htodo, h.write.fits b hmem, hdesc, hcounting, h.buffer.inv, h.buffer.lanes, h.addrs,
        (Bool.and_eq_true_iff.mp hh).1⟩
    obtain ⟨q₁, q₂, hq, hpiece, hwritten, hlanes⟩ := hwriting.write_beat
    have hws : (s.step c i).ws =
        s.ws ++ [DataPath.w_beat c s.engine.data_path (data_path_input s.engine i)] := by
      change s.ws ++ (if w_handshake c s.engine i then _ else _) = _
      rw [if_pos hh]
    have hat := h.write.at htodo
    refine ⟨q₁, q₂, hq, ?_, ?_, fun l hl => ?_⟩
    · rw [w_next, if_pos hh, Cursor.rest_push h.write.ok.next (write_cuts c),
        Cursor.rest_next (write_cuts c) htodo, hpiece, List.append_assoc]
    · rw [hall, hws, List.map_append, AxiIncr.written_of_length_le, AxiIncr.written_snoc hat, hwritten]
      rw [List.length_append, List.length_singleton]
      exact Nat.succ_le_of_lt (List.getElem?_eq_some_iff.mp hat).1
    · rw [hpop, hh, Bool.true_and]
      exact hlanes l hl
  · have hno := Bool.eq_false_of_not_eq_true hh
    have hws : (s.step c i).ws = s.ws := by
      change s.ws ++ (if w_handshake c s.engine i then _ else _) = _
      rw [if_neg hh, List.append_nil]
    refine ⟨[], q, rfl, ?_, ?_, fun l _ => ?_⟩
    · rw [w_next, if_neg hh, Cursor.rest_push h.write.ok (write_cuts c)]
      rfl
    · rw [hall, hws, List.map_append, AxiIncr.written_of_length_le, List.append_nil]
      rw [hcount, hbeats]
      -- the beats that are sent belong to chunks that are known
      cases htodo : kw.todo with
      | nil => rw [h.write.ok.nil htodo, List.map_nil]; exact le_rfl
      | cons b rest =>
          have hpart : kw.part ≤ b.beats c := h.write.ok.le b (by rw [htodo]; rfl)
          have hlen : b.beats c + 1 ≤ (AxiIncr.beats ((b :: rest).map fun b => b.incr c)).length := by
            rw [List.map_cons, AxiIncr.beats_cons, List.length_append, List.length_map, List.length_range]
            exact Nat.le_add_right _ _
          omega
    · rw [hpop, hno, Bool.false_and]
      rfl

/-! The queue of transfers. -/

/-- Only a transfer that is there is taken. -/
theorem burst_req_pop_spec {e : State} (h : burst_req_pop c e i = true) :
    FifoV3.empty_o e.i_burst_request_fifo = false := by
  obtain ⟨-, -, hv, -⟩ := ready_o_spec h
  have hvalid : burst_valid e i = true := hv
  rw [burst_valid] at hvalid
  split_ifs at hvalid
  · simpa using (Bool.and_eq_true_iff.mp hvalid).1
  · simpa using hvalid

/-- What is taken from the queue, and what is put into it. -/
theorem queue_step {β : Type*} {f : burst_req_t → List β} {before : List β}
    (h : FifoV3.Inv c.TransFifoDepth s.engine.i_burst_request_fifo)
    (hreqs : before ++ (FifoV3.elems c.TransFifoDepth s.engine.i_burst_request_fifo).flatMap f =
      s.reqs.flatMap f) (i : Input) :
    (before ++ if burst_req_pop c s.engine i then f (reshaper_input c s.engine i).burst_req_i else []) ++
      (FifoV3.elems c.TransFifoDepth (s.step c i).engine.i_burst_request_fifo).flatMap f =
    (s.step c i).reqs.flatMap f := by
  have hq := h.queue_step
    (i := ⟨i.burst_req_i, i.valid_i && ready_o c s.engine, burst_req_pop c s.engine i⟩)
    (fun hp => by simpa [ready_o] using (Bool.and_eq_true_iff.mp hp).2) burst_req_pop_spec
  have hpop : (if burst_req_pop c s.engine i then f (reshaper_input c s.engine i).burst_req_i else []) =
      (if burst_req_pop c s.engine i then
        [FifoV3.data_o s.engine.i_burst_request_fifo] else []).flatMap f := by
    split_ifs
    · exact (List.flatMap_singleton _ _).symm
    · rfl
  have hnew : (s.step c i).reqs.flatMap f = s.reqs.flatMap f ++
      (if i.valid_i && ready_o c s.engine then [i.burst_req_i] else []).flatMap f :=
    List.flatMap_append
  rw [hpop, List.append_assoc, ← List.flatMap_append, hnew, ← hreqs, List.append_assoc,
    ← List.flatMap_append]
  exact congrArg (fun l => before ++ l.flatMap f) hq

/-- A transfer of the queue was there before, or has just been accepted. -/
theorem queue_mem (h : FifoV3.Inv c.TransFifoDepth s.engine.i_burst_request_fifo) {r : burst_req_t}
    (hr : r ∈ FifoV3.elems c.TransFifoDepth (s.step c i).engine.i_burst_request_fifo) :
    r ∈ FifoV3.elems c.TransFifoDepth s.engine.i_burst_request_fifo ∨
      (i.valid_i && ready_o c s.engine) = true ∧ r = i.burst_req_i := by
  have hq := h.queue_step
    (i := ⟨i.burst_req_i, i.valid_i && ready_o c s.engine, burst_req_pop c s.engine i⟩)
    (fun hp => by simpa [ready_o] using (Bool.and_eq_true_iff.mp hp).2) burst_req_pop_spec
  have hmem := hq ▸ List.mem_append_right _ hr
  rcases List.mem_append.mp hmem with hold | hnew
  · exact Or.inl hold
  · dsimp only at hnew
    split_ifs at hnew with hp
    · exact Or.inr ⟨hp, List.mem_singleton.mp hnew⟩
    · exact absurd hnew List.not_mem_nil

/-- The write side is not behind when it has no chunk. -/
theorem Inv.lag_step (hc : c.Ok) (h : Inv c mem s kr kw rdst q) (he : Env c mem s i)
    (hnext : (w_next c s i kw).todo = []) : (Reshaper.step c s.engine.burst_q
      (reshaper_input c s.engine i)).dst.num_bytes ≤
    (Reshaper.step c s.engine.burst_q (reshaper_input c s.engine i)).src.num_bytes := by
  have hwrite := h.write.step (i := i) hc h.sides h.busy
  obtain ⟨htodo, hnew⟩ := List.append_eq_nil_iff.mp hnext
  have hpush : w_req_push c s.engine i = false := by
    rw [w_new] at hnew
    by_contra hno
    rw [if_pos (Bool.eq_true_of_not_eq_false hno)] at hnew
    exact absurd hnew (List.cons_ne_nil _ _)
  have hall : (w_next c s i kw).done.length = kw.all.length := by
    have : (w_next c s i kw).all = kw.all := by
      rw [w_next_all, hnew, List.append_nil]
    rw [← this, Cursor.all, hnext, List.append_nil]
  -- both FIFOs have room
  have haw : FifoV3.full_o c.AxReqFifoDepth s.engine.i_fifo_aw_emitter = false := by
    rw [Bool.eq_false_iff, Ne, h.write.aw_inv.full_o_iff]
    have hlen := congrArg List.length h.write.aws
    rw [List.length_append, List.length_map, ← hall, ← hwrite.sent] at hlen
    have hahead := he.ahead
    have haws : (s.step c i).aws.length ≤ s.aws.length + 1 := by
      change (s.aws ++ _).length ≤ _
      rw [Sync.length_append_if]
      have := Bool.toNat_le (aw_emitter_pop s.engine i)
      omega
    omega
  have hw : FifoV3.full_o c.AxReqFifoDepth s.engine.i_fifo_w_emitter = false := by
    rw [Bool.eq_false_iff, Ne, h.write.w_inv.full_o_iff, h.write.descs, List.length_map]
    have hdepth := hc.ax_pos
    have hone : kw.todo.length ≤ 1 := by
      by_cases hh : w_handshake c s.engine i = true
      · obtain ⟨b, rest, hb⟩ := List.exists_cons_of_ne_nil (h.busy hh)
        rw [if_pos hh] at htodo
        by_cases hlast : kw.part = b.beats c
        · rw [Cursor.next_of_last hb hlast] at htodo
          have hrest : rest = [] := htodo
          rw [hb, hrest]
          exact le_rfl
        · rw [Cursor.next_of_lt hb hlast] at htodo
          exact absurd (hb.symm.trans htodo) (List.cons_ne_nil _ _)
      · rw [if_neg hh] at htodo
        rw [htodo]
        exact Nat.zero_le _
    omega
  refine write_lag h.sides hpush ?_
  change w_req_ready c s.engine = true
  rw [w_req_ready, haw, hw]
  rfl

/-- What moves on in a cycle, from the transfer to the bytes that are written. -/
theorem stream_step {β : Type*} {left left' rest rest' new pushed taken : List β} (before q₁ q₂ : List β)
    (hrest : rest ++ pushed = new ++ rest') (hleft : left ++ taken = pushed ++ left') :
    before ++ q₁ ++ (q₂ ++ new) ++ rest' ++ left' = before ++ (q₁ ++ q₂) ++ rest ++ left ++ taken := by
  calc before ++ q₁ ++ (q₂ ++ new) ++ rest' ++ left' =
      before ++ (q₁ ++ q₂) ++ (new ++ rest') ++ left' := by simp only [List.append_assoc]
    _ = before ++ (q₁ ++ q₂) ++ rest ++ (pushed ++ left') := by
      rw [← hrest]
      simp only [List.append_assoc]
    _ = before ++ (q₁ ++ q₂) ++ rest ++ left ++ taken := by
      rw [← hleft]
      simp only [List.append_assoc]

/-- The bytes of the chunk that is pushed, as the reshaper cuts it off. -/
theorem r_new_flatMap {β : Type*} (f : ReadChunk → List β) (e : State) (i : Input) (rdst : ℕ) :
    (r_new c e i rdst).flatMap f =
      if r_push e.burst_q (reshaper_input c e i) then f (read_chunk c e.burst_q rdst) else [] := by
  have hpush : r_req_push c e i = r_push e.burst_q (reshaper_input c e i) := rfl
  rw [r_new, hpush]
  split_ifs
  · exact List.flatMap_singleton _ _
  · rfl

/-- The bytes of the chunk that the reshaper hands to the write side. -/
theorem w_new_flatMap (e : State) (i : Input) : (w_new c e i).flatMap Chunk.bytes =
    if w_push e.burst_q (reshaper_input c e i) then (write_chunk c e.burst_q).bytes else [] := by
  have hpush : w_req_push c e i = w_push e.burst_q (reshaper_input c e i) := rfl
  rw [w_new, hpush]
  split_ifs
  · exact List.flatMap_singleton _ _
  · rfl

section Step

variable {rdst' : ℕ}

/-- The transfer that the reshaper takes is one that was asked for. -/
theorem Inv.pop_ok (h : Inv c mem s kr kw rdst q) (hp : burst_req_pop c s.engine i = true) :
    (FifoV3.data_o s.engine.i_burst_request_fifo).Ok c := by
  refine (h.reqs_ok _ ?_).1
  rw [h.queue.elems_eq_cons (burst_req_pop_spec hp)]
  exact List.mem_cons_self

/-- Every transfer in the queue is legal and has been accepted. -/
theorem Inv.reqs_step (h : Inv c mem s kr kw rdst q) (he : Env c mem s i) {r : burst_req_t}
    (hr : r ∈ FifoV3.elems c.TransFifoDepth (s.step c i).engine.i_burst_request_fifo) :
    r.Ok c ∧ r ∈ (s.step c i).reqs := by
  have hreqs : (s.step c i).reqs =
      s.reqs ++ if i.valid_i && ready_o c s.engine then [i.burst_req_i] else [] := rfl
  rcases queue_mem h.queue hr with hold | ⟨hv, hr⟩
  · obtain ⟨hok, hmem⟩ := h.reqs_ok r hold
    exact ⟨hok, hreqs ▸ List.mem_append_left _ hmem⟩
  · rw [hr, hreqs, if_pos hv]
    exact ⟨he.req (Bool.and_eq_true_iff.mp hv).1, List.mem_append_right _ List.mem_cons_self⟩

/-- The read side asks for the bytes of the transfers, in order. -/
theorem Inv.src_step (hc : c.Ok) (h : Inv c mem s kr kw rdst q) (i : Input) :
    ((r_next c s i rdst kr).all.flatMap fun b => b.bytes) ++ (s.step c i).engine.burst_q.src.bytes ++
      (FifoV3.elems c.TransFifoDepth (s.step c i).engine.i_burst_request_fifo).flatMap
        burst_req_t.src_bytes = (s.step c i).reqs.flatMap burst_req_t.src_bytes := by
  have hsrc := AxiDma.src_step (i := reshaper_input c s.engine i) hc rdst h.sides.src
  rw [← r_new_flatMap fun b => b.bytes] at hsrc
  have hstep : (s.step c i).engine.burst_q =
      Reshaper.step c s.engine.burst_q (reshaper_input c s.engine i) := rfl
  rw [r_next_all, hstep, List.flatMap_append, ← queue_step h.queue h.src,
    List.append_assoc (kr.all.flatMap _), ← hsrc, ← List.append_assoc]
  rfl

/-- So does the write side. -/
theorem Inv.dst_step (hc : c.Ok) (h : Inv c mem s kr kw rdst q) (i : Input) :
    (w_next c s i kw).all.flatMap Chunk.bytes ++ (s.step c i).engine.burst_q.dst.bytes ++
      (FifoV3.elems c.TransFifoDepth (s.step c i).engine.i_burst_request_fifo).flatMap
        burst_req_t.dst_bytes = (s.step c i).reqs.flatMap burst_req_t.dst_bytes := by
  have hdst := AxiDma.dst_step (i := reshaper_input c s.engine i) hc h.sides.dst
  rw [← w_new_flatMap] at hdst
  have hstep : (s.step c i).engine.burst_q =
      Reshaper.step c s.engine.burst_q (reshaper_input c s.engine i) := rfl
  rw [w_next_all, hstep, List.flatMap_append, ← queue_step h.queue h.dst,
    List.append_assoc (kw.all.flatMap _), ← hdst, ← List.append_assoc]
  rfl

/-- The places of the bytes in the buffer, and of those that are still to be read, are what the
write side goes on with. -/
theorem Inv.addrs_step (hc : c.Ok) (h : Inv c mem s kr kw rdst q) {q₁ q₂ new : List (ℕ × Byte)}
    (hq : q = q₁ ++ q₂)
    (hread : (kr.rest (ReadChunk.pairs mem) fun b => b.start c) ++
      (r_new c s.engine i rdst).flatMap (ReadChunk.pairs mem) =
        new ++ ((r_next c s i rdst kr).rest (ReadChunk.pairs mem) fun b => b.start c))
    (hwrite : (kw.rest Chunk.bytes fun b => b.start c) ++ (w_new c s.engine i).flatMap Chunk.bytes =
      q₁.map Prod.fst ++ ((w_next c s i kw).rest Chunk.bytes fun b => b.start c))
    (hpairs : src_pairs mem s.engine.burst_q rdst ++
      (if Reshaper.ready_o c s.engine.burst_q (reshaper_input c s.engine i) then
        (reshaper_input c s.engine i).burst_req_i.pairs mem else []) =
      (r_new c s.engine i rdst).flatMap (ReadChunk.pairs mem) ++
        src_pairs mem (s.step c i).engine.burst_q rdst') :
    (q₂ ++ new).map Prod.fst ++
      (((r_next c s i rdst kr).rest (ReadChunk.pairs mem) fun b => b.start c).map Prod.fst ++
        (src_pairs mem (s.step c i).engine.burst_q rdst').map Prod.fst) =
      ((w_next c s i kw).rest Chunk.bytes fun b => b.start c) ++
        (s.step c i).engine.burst_q.dst.bytes := by
  -- the stream of places: what the write side has left is what is in the lanes, what the read
  -- side has left, and what is not cut yet
  have hdst := AxiDma.dst_step (i := reshaper_input c s.engine i) hc h.sides.dst
  rw [← w_new_flatMap] at hdst
  -- of a transfer that is taken, the places are those of its destination
  have htaken : (if Reshaper.ready_o c s.engine.burst_q (reshaper_input c s.engine i) then
      (reshaper_input c s.engine i).burst_req_i.pairs mem else []).map Prod.fst =
      if Reshaper.ready_o c s.engine.burst_q (reshaper_input c s.engine i) then
        (reshaper_input c s.engine i).burst_req_i.dst_bytes else [] := by
    split_ifs
    · exact map_fst_stretch _ _ _
    · rfl
  have hleft := congrArg (List.map Prod.fst) hpairs
  have hrest := congrArg (List.map Prod.fst) hread
  simp only [List.map_append] at hleft hrest
  rw [htaken] at hleft
  -- the step of the stream, with what leaves the lanes at its front
  have hstream := stream_step [] (q₁.map Prod.fst) (q₂.map Prod.fst) hrest hleft
  have hold := h.addrs
  rw [hq, List.map_append, ← List.append_assoc] at hold
  refine List.append_cancel_left (?_ : q₁.map Prod.fst ++ _ = _)
  rw [List.map_append, ← List.append_assoc, ← List.append_assoc]
  refine hstream.trans ?_
  rw [List.nil_append, hold, List.append_assoc, hdst, ← List.append_assoc, hwrite, List.append_assoc]
  rfl

/-- **A cycle of the engine.** -/
theorem Inv.step (hc : c.Ok) (h : Inv c mem s kr kw rdst q) (he : Env c mem s i) :
    ∃ rdst' q', Inv c mem (s.step c i) (r_next c s i rdst kr) (w_next c s i kw) rdst' q' := by
  obtain ⟨new, hread, hin⟩ := h.read.piece rdst he.read
  obtain ⟨q₁, q₂, hq, hwrite, hwritten, hout⟩ := h.piece i
  obtain ⟨rdst', hsides, hpairs⟩ := reshaper_step hc h.sides fun hp => h.pop_ok hp
  have hpairs := hpairs mem
  rw [← r_new_flatMap (ReadChunk.pairs mem)] at hpairs
  have hstep : (s.step c i).engine.burst_q =
      Reshaper.step c s.engine.burst_q (reshaper_input c s.engine i) := rfl
  refine ⟨rdst', q₂ ++ new, h.queue.step _, fun r hr => h.reqs_step he hr, hsides,
    h.read.step hc h.sides he.read, h.write.step hc h.sides h.busy, (hq ▸ h.buffer).step hout hin,
    h.src_step hc i, h.dst_step hc i, ?_, h.addrs_step hc hq hread hwrite hpairs, h.lag_step hc he,
    he.ahead⟩
  rw [hwritten, hstep, ← queue_step h.queue h.pairs, stream_step _ _ _ hread hpairs, ← hq]
  rfl

end Step

/-! ## Runs -/

/-- After reset nothing has been asked for. -/
theorem Inv.init (hc : c.Ok) (mem : ℕ → Byte) : Inv c mem Sys.init Cursor.init Cursor.init 0 [] where
  queue := FifoV3.inv_reset _ hc.trans_pos hc.trans_lt
  reqs_ok _ h := absurd h List.not_mem_nil
  sides := ⟨zero_ok c, zero_ok c, fun _ => rfl, fun h => absurd h (lt_irrefl 0)⟩
  read := ⟨FifoV3.inv_reset _ hc.ax_depth.1 hc.ax_depth.2, FifoV3.inv_reset _ hc.ax_depth.1 hc.ax_depth.2,
    Cursor.init_ok _, rfl, rfl, fun _ h => absurd h List.not_mem_nil, fun _ h => absurd h List.not_mem_nil,
    rfl, rfl⟩
  write := ⟨FifoV3.inv_reset _ hc.ax_depth.1 hc.ax_depth.2, FifoV3.inv_reset _ hc.ax_depth.1 hc.ax_depth.2,
    Cursor.init_ok _, rfl, rfl, fun _ h => absurd h List.not_mem_nil, rfl, rfl, rfl,
    fun _ h => absurd h (by simp [Cursor.init]), fun _ _ h => absurd h (by simp [Sys.init])⟩
  buffer := ⟨fun _ _ => FifoV3.inv_reset _ hc.buffer_depth.1 hc.buffer_depth.2, fun _ _ => rfl⟩
  src := rfl
  dst := rfl
  pairs := rfl
  addrs := rfl
  lag _ := le_rfl
  ahead := by
    have := hc.ax_pos
    change 0 + 2 ≤ 0 + c.AxReqFifoDepth
    omega

/-- Every reachable state has the invariant, with cursors at the bursts that are under way. -/
theorem Reach.inv (hc : c.Ok) (h : Reach c mem s) : ∃ kr kw rdst q, Inv c mem s kr kw rdst q := by
  refine Sync.Reach.inv (P := fun s => ∃ kr kw rdst q, Inv c mem s kr kw rdst q) ?_ ?_ h
  · intro s hs
    rw [hs]
    exact ⟨_, _, _, _, Inv.init hc mem⟩
  · rintro s i ⟨kr, kw, rdst, q, h⟩ he
    obtain ⟨rdst', q', h'⟩ := h.step hc he
    exact ⟨_, _, _, _, h'⟩

/-! ## An ideal slave -/

/-- A slave that does everything as soon as it may, but takes no data before their address. -/
def slave (c : Cfg) (mem : ℕ → Byte) (s : Sys) (req : Option burst_req_t) : Input :=
  let beat := AxiIncr.answer c.OffsetWidth mem (s.ars.map desc_ax_t.incr) s.r_beats
  { burst_req_i := req.getD .zero
    valid_i := req.isSome
    ar_ready := true
    r_valid := beat.isSome
    r_data := (beat.map Prod.fst).getD fun _ => 0
    r_last := (beat.map Prod.snd).getD false
    aw_ready := decide (s.aws.length < s.bs + c.LastFifoDepth)
    w_ready := decide (s.sent < s.aws.length)
    b_valid := decide (s.bs < s.sent ∧ s.bs < s.aws.length) }

/-- A cycle against the ideal slave. -/
def serve (c : Cfg) (mem : ℕ → Byte) (s : Sys) (req : Option burst_req_t) : Sys :=
  s.step c (slave c mem s req)

/-- No beat of a read is wider than the bus. -/
theorem ReadSide.size_le (h : ReadSide c s kr) {b : AxiIncr.Burst} (hb : b ∈ s.ars.map desc_ax_t.incr) :
    b.size ≤ c.OffsetWidth := by
  obtain ⟨d, hd, rfl⟩ := List.mem_map.mp hb
  have hmem : d ∈ kr.all.map fun b => b.ax c := h.ars ▸ List.mem_append_left _ hd
  obtain ⟨b, -, rfl⟩ := List.mem_map.mp hmem
  exact le_rfl

/-- The ideal slave keeps all promises. -/
theorem Inv.slave_env (hc : c.Ok) (h : Inv c mem s kr kw rdst q) {req : Option burst_req_t}
    (hreq : ∀ r ∈ req, r.Ok c) : EnvB c mem s (slave c mem s req) := by
  refine ⟨⟨fun hv => ?_, fun hv => ?_, ?_⟩, fun hb => of_decide_eq_true hb, fun hp => ?_⟩
  · obtain ⟨r, hr⟩ := Option.isSome_iff_exists.mp hv
    change (req.getD .zero).Ok c
    rw [hr]
    exact hreq r hr
  · -- it answers the oldest read that is not answered
    obtain ⟨x, hx⟩ := Option.isSome_iff_exists.mp hv
    have hans := AxiIncr.answers_of_answer hx fun b hb => h.read.size_le hb
    rw [slave, hx]
    exact hans
  · -- it takes data only of a burst whose address it has, so the addresses never fall behind
    have hdepth := hc.ax_pos
    have hahead := h.ahead
    have haws : s.aws.length ≤ (s.step c (slave c mem s req)).aws.length := by
      change _ ≤ (s.aws ++ _).length
      rw [List.length_append]
      exact Nat.le_add_right _ _
    have hsent : (s.step c (slave c mem s req)).sent ≤
        s.sent + if w_handshake c s.engine (slave c mem s req) then 1 else 0 := by
      change (s.ws ++ _).countP AxiIncr.WBeat.last ≤ _
      rw [List.countP_append]
      refine Nat.add_le_add_left ?_ _
      split_ifs
      · exact List.countP_le_length
      · exact le_rfl
    split_ifs at hsent with hh
    · have hlt : s.sent < s.aws.length := of_decide_eq_true (Bool.and_eq_true_iff.mp hh).2
      omega
    · omega
  · exact of_decide_eq_true (Bool.and_eq_true_iff.mp hp).1

theorem Inv.idle_env (hc : c.Ok) (h : Inv c mem s kr kw rdst q) : EnvB c mem s (slave c mem s none) :=
  h.slave_env hc fun _ hr => absurd hr (by simp)

theorem ReachB.serve (hc : c.Ok) (h : ReachB c mem s) {req : Option burst_req_t}
    (hreq : ∀ r ∈ req, r.Ok c) : ReachB c mem (serve c mem s req) := by
  obtain ⟨kr, kw, rdst, q, hinv⟩ := h.reach.inv hc
  exact Sync.Reach.clock h (hinv.slave_env hc hreq)

theorem ReachB.serve_all (hc : c.Ok) {reqs : List (Option burst_req_t)} (hreqs : ∀ o ∈ reqs, ∀ r ∈ o, r.Ok c)
    (h : ReachB c mem s) : ReachB c mem (reqs.foldl (AxiDma.serve c mem) s) := by
  induction reqs generalizing s with
  | nil => exact h
  | cons o reqs ih =>
      exact ih (fun o ho => hreqs o (List.mem_cons_of_mem _ ho)) (h.serve hc (hreqs o List.mem_cons_self))

/-! A run: three bytes, on a bus of two. -/

/-- Every address holds its own number. -/
def demo_mem (a : ℕ) : Byte := BitVec.ofNat 8 a

/-- Three bytes, from an odd address to an even one. -/
def demo_req : burst_req_t := ⟨0, 1, 4, 3, 0, 0, .BURST_INCR, .BURST_INCR, true, false, false⟩

def demo_run : Sys :=
  (some demo_req :: List.replicate 9 none).foldl (serve ⟨1, 32, 2, 2, 2⟩ demo_mem) Sys.init

theorem demo_ok : (⟨1, 32, 2, 2, 2⟩ : Cfg).Ok := by
  constructor <;> decide

theorem demo_req_ok : demo_req.Ok ⟨1, 32, 2, 2, 2⟩ := by
  constructor <;> decide

/-- The run is one against the ideal slave. -/
theorem demo_reach : ReachB ⟨1, 32, 2, 2, 2⟩ demo_mem demo_run := by
  refine ReachB.serve_all demo_ok (fun o ho r hr => ?_) (.reset rfl)
  rcases List.mem_cons.mp ho with rfl | ho
  · obtain rfl : demo_req = r := Option.some.inj hr
    constructor <;> decide
  · obtain rfl := List.eq_of_mem_replicate ho
    exact absurd hr (by simp)

/-! ## What a run does -/

/-- What is written so far is the beginning of what was asked for. -/
theorem dma_written (h : Inv c mem s kr kw rdst q) :
    AxiIncr.written c.OffsetWidth (s.aws.map desc_ax_t.incr) s.ws <+:
      s.reqs.flatMap (burst_req_t.pairs mem) := by
  have hbegin : s.aws.map desc_ax_t.incr <+: kw.all.map fun b => b.incr c := by
    have hall : (kw.all.map fun b => b.ax c).map desc_ax_t.incr = kw.all.map fun b => b.incr c := by
      rw [List.map_map]
      rfl
    rw [← hall, ← h.write.aws, List.map_append]
    exact List.prefix_append _ _
  refine (AxiIncr.written_mono hbegin s.ws).trans ?_
  rw [← h.pairs]
  simp only [List.append_assoc]
  exact List.prefix_append _ _

/-- **The engine copies.** What it has written is a beginning of what the transfers ask for:
each byte of the source at its place, in order, and nothing else. -/
theorem dma_copies (c : Cfg) (hc : c.Ok) (mem : ℕ → Byte) (s : Sys) (h : Reach c mem s) :
    AxiIncr.written c.OffsetWidth (s.aws.map desc_ax_t.incr) s.ws <+:
      s.reqs.flatMap (burst_req_t.pairs mem) := by
  obtain ⟨kr, kw, rdst, q, hinv⟩ := h.inv hc
  exact dma_written hinv

theorem dma_copies_demo : ∃ s, Reach ⟨1, 32, 2, 2, 2⟩ demo_mem s ∧
    AxiIncr.written 1 (s.aws.map desc_ax_t.incr) s.ws = [(4, 1), (5, 2), (6, 3)] ∧
    AxiIncr.written 1 (s.aws.map desc_ax_t.incr) s.ws <+: s.reqs.flatMap (burst_req_t.pairs demo_mem) :=
  ⟨demo_run, demo_reach.reach, by decide +kernel, dma_copies _ demo_ok _ _ demo_reach.reach⟩

/-- The sent part of a log. -/
theorem take_of_append {α β : Type*} {f : α → β} {log rest : List β} {all : List α}
    (h : log ++ rest = all.map f) : log = (all.take log.length).map f := by
  rw [List.map_take, ← h, List.take_left]

/-- **The bursts.** Those that read cut the bytes of the sources, those that write cut the
bytes of the destinations, in order. Each stays within a page and is one that AXI allows, and
the last mark is on the last beat. -/
theorem dma_bursts (c : Cfg) (hc : c.Ok) (mem : ℕ → Byte) (s : Sys) (h : Reach c mem s) :
    ∃ rs ws : List Chunk, s.ars = rs.map (fun b => b.ax c) ∧ s.aws = ws.map (fun b => b.ax c) ∧
      (∀ b ∈ rs ++ ws, b.Fits c ∧ (b.incr c).Legal c.OffsetWidth) ∧
      rs.flatMap Chunk.bytes <+: s.reqs.flatMap burst_req_t.src_bytes ∧
      ws.flatMap Chunk.bytes <+: s.reqs.flatMap burst_req_t.dst_bytes ∧
      ∀ (n : ℕ) (x : AxiIncr.WBeat Byte) (b : AxiIncr.Burst) (j : ℕ), s.ws[n]? = some x →
        (AxiIncr.beats (s.aws.map desc_ax_t.incr))[n]? = some (b, j) → x.last = decide (j = b.len) := by
  obtain ⟨kr, kw, rdst, q, hinv⟩ := h.inv hc
  -- the bursts sent are the first ones of those cut
  have hars := take_of_append hinv.read.ars
  have haws := take_of_append hinv.write.aws
  refine ⟨(kr.all.take s.ars.length).map fun b => b.toChunk, kw.all.take s.aws.length, ?_, haws, ?_, ?_, ?_, ?_⟩
  · rw [List.map_map]
    exact hars
  · -- each is legal, as those cut are
    intro b hb
    have hfits : b.Fits c := by
      rcases List.mem_append.mp hb with hb | hb
      · obtain ⟨b', hb', rfl⟩ := List.mem_map.mp hb
        exact hinv.read.fits b' (List.mem_of_mem_take hb')
      · exact hinv.write.fits b (List.mem_of_mem_take hb)
    exact ⟨hfits, hfits.legal hc⟩
  · -- and together they are a beginning of what the transfers ask for
    rw [← hinv.src, List.flatMap_map, List.append_assoc]
    exact (List.IsPrefix.flatMap (List.take_prefix _ _) _).trans (List.prefix_append _ _)
  · rw [← hinv.dst, List.append_assoc]
    exact (List.IsPrefix.flatMap (List.take_prefix _ _) _).trans (List.prefix_append _ _)
  · -- the mark of a beat does not depend on the addresses that are still to be sent
    intro n x b j hx hat
    obtain ⟨b', j', hat', hlast⟩ := hinv.write.marks n x hx
    have hall : (kw.all.map fun b => b.incr c) = s.aws.map desc_ax_t.incr ++
        (FifoV3.elems c.AxReqFifoDepth s.engine.i_fifo_aw_emitter).map desc_ax_t.incr := by
      rw [← List.map_append, hinv.write.aws, List.map_map]
      rfl
    rw [hall, AxiIncr.beats_append, List.getElem?_append_left (List.getElem?_eq_some_iff.mp hat).1, hat] at hat'
    obtain ⟨rfl, rfl⟩ := Prod.mk.inj (Option.some.inj hat')
    exact hlast

theorem dma_bursts_demo : ∃ s, Reach ⟨1, 32, 2, 2, 2⟩ demo_mem s ∧ s.aws.map desc_ax_t.incr = [⟨4, 1, 1⟩] ∧
    ∃ rs ws : List Chunk, s.ars = rs.map (fun b => b.ax ⟨1, 32, 2, 2, 2⟩) ∧
      s.aws = ws.map (fun b => b.ax ⟨1, 32, 2, 2, 2⟩) ∧
      (∀ b ∈ rs ++ ws, b.Fits ⟨1, 32, 2, 2, 2⟩ ∧ (b.incr ⟨1, 32, 2, 2, 2⟩).Legal 1) ∧
      rs.flatMap Chunk.bytes <+: s.reqs.flatMap burst_req_t.src_bytes ∧
      ws.flatMap Chunk.bytes <+: s.reqs.flatMap burst_req_t.dst_bytes ∧
      ∀ (n : ℕ) (x : AxiIncr.WBeat Byte) (b : AxiIncr.Burst) (j : ℕ), s.ws[n]? = some x →
        (AxiIncr.beats (s.aws.map desc_ax_t.incr))[n]? = some (b, j) → x.last = decide (j = b.len) :=
  ⟨demo_run, demo_reach.reach, by decide +kernel, dma_bursts _ demo_ok _ _ demo_reach.reach⟩

end Pspin.AxiDma
