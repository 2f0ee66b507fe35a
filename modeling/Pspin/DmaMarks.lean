/-
Which transfers the DMA engine reports complete.

The last burst of a transfer carries a mark, and its response reports the transfer. The marks
of the bursts whose response is to come wait in a queue. A burst whose data are complete has
written its bytes, so the transfers that were reported are written (`trans_complete`).
-/
import Pspin.DmaRuns
import Pspin.Portions

set_option autoImplicit false

namespace Pspin.AxiDma

open Portions

variable {c : Cfg} {s : Sys} {i : Input} {mem : ℕ → Byte} {rdst : ℕ} {kr : Cursor ReadChunk} {kw : Cursor Chunk}
variable {q : List (ℕ × Byte)}

/-! ## Sizes -/

/-- The size of a transfer that is not empty. -/
def burst_req_t.size (r : burst_req_t) : List ℕ := if r.num_bytes = 0 then [] else [r.num_bytes]

/-- The size of the transfer in the reshaper, of which `n` bytes are handed on. -/
def owed (n : ℕ) (chan : burst_chan_t) : List ℕ := if chan.num_bytes = 0 then [] else [n + chan.num_bytes]

theorem owed_refill (c : Cfg) (r : burst_req_t) (v : Bool) : owed 0 (Reshaper.refill c r v).dst = r.size := by
  change (if r.num_bytes = 0 then [] else [0 + r.num_bytes]) = _
  rw [Nat.zero_add]
  rfl

/-- **A cycle of the reshaper**: the last chunk of a transfer is marked. -/
theorem dst_sizes (hc : c.Ok) {q : burst_decoupled_t} {i : Reshaper.Input} (h : q.dst.Ok c) {n : ℕ}
    (hn : q.dst.num_bytes = 0 → n = 0) (pushed : List Chunk)
    (hpushed : pushed = if w_push q i then [write_chunk c q] else []) :
    owed n q.dst ++ (if Reshaper.ready_o c q i then i.burst_req_i.size else []) =
        finished Chunk.len Chunk.last n pushed ++
          owed (begun Chunk.len Chunk.last n pushed) (Reshaper.step c q i).dst ∧
      ((Reshaper.step c q i).dst.num_bytes = 0 → begun Chunk.len Chunk.last n pushed = 0) := by
  obtain ⟨hp, hpage⟩ := w_possible_spec hc q
  have hpush := w_push_eq (i := i) h
  rcases Nat.eq_zero_or_pos q.dst.num_bytes with hz | hpos
  · -- nothing is left of the transfer
    rw [hz] at hpush
    rw [hpush] at hpushed
    have hnil : pushed = [] := hpushed
    have howed : owed n q.dst = [] := if_pos hz
    rw [hnil, hn hz] at *
    rw [howed]
    by_cases hready : Reshaper.ready_o c q i = true
    · rw [if_pos hready, step_of_ready hready, finished, begun, owed_refill]
      exact ⟨rfl, fun _ => rfl⟩
    · rw [if_neg hready, step_of_not_ready (Bool.eq_false_of_not_eq_true hready)]
      refine ⟨?_, fun _ => rfl⟩
      rw [finished, begun, owed, if_pos]
      dsimp only
      split_ifs
      · exact congrArg burst_chan_t.num_bytes (cut_idle c _ hz).2
      · exact hz
  · obtain ⟨-, -, hlen, hlast, -⟩ := cut_spec hc h hpos hp hpage
    have howed : owed n q.dst = [n + q.dst.num_bytes] := if_neg hpos.ne'
    rw [decide_eq_true hpos, Bool.true_and] at hpush
    rw [hpush] at hpushed
    by_cases hm : w_moves q i = true
    · rw [if_pos hm] at hpushed
      have hlen' : q.dst.num_bytes = (write_chunk c q).len + (Reshaper.w_cut c q).rest.num_bytes := hlen
      have hlast' : (write_chunk c q).last = true ↔ (Reshaper.w_cut c q).rest.num_bytes = 0 := hlast
      rw [hpushed, finished, begun, howed]
      by_cases hready : Reshaper.ready_o c q i = true
      · have hfin : (write_chunk c q).last = true := (ready_o_spec hready).2.1
        rw [if_pos hready, step_of_ready hready, if_pos hfin, if_pos hfin, finished, begun, owed_refill,
          hlen', hlast'.mp hfin, Nat.add_zero]
        exact ⟨rfl, fun _ => rfl⟩
      · rw [if_neg hready, step_of_not_ready (Bool.eq_false_of_not_eq_true hready)]
        dsimp only
        rw [if_pos hm, owed]
        by_cases hfin : (write_chunk c q).last = true
        · have hz := hlast'.mp hfin
          rw [if_pos hfin, if_pos hfin, if_pos hz, hlen', hz]
          exact ⟨rfl, fun _ => rfl⟩
        · have hz := hlast'.not.mp hfin
          rw [if_neg hfin, if_neg hfin, if_neg hz, finished, begun, hlen', Nat.add_assoc]
          exact ⟨rfl, fun h => absurd h hz⟩
    · have hready : ¬Reshaper.ready_o c q i = true := fun hready => hm (moves_of_ready hready).2
      rw [if_neg hm] at hpushed
      rw [hpushed, if_neg hready, step_of_not_ready (Bool.eq_false_of_not_eq_true hready)]
      dsimp only
      rw [if_neg hm]
      exact ⟨List.append_nil _, fun h => absurd h hpos.ne'⟩

/-! ## Bursts that are written -/

/-- What is written, and what is left of the chunks. -/
theorem Inv.written_rest (h : Inv c mem s kr kw rdst q) :
    (AxiIncr.written c.OffsetWidth (kw.all.map fun b => b.incr c) s.ws).map Prod.fst ++
      (kw.rest Chunk.bytes fun b => b.start c) = kw.all.flatMap Chunk.bytes := by
  have hpairs := congrArg (List.map Prod.fst) h.pairs
  have hbytes : ∀ reqs : List burst_req_t, (reqs.flatMap (burst_req_t.pairs mem)).map Prod.fst =
      reqs.flatMap burst_req_t.dst_bytes := by
    intro reqs
    rw [List.map_flatMap]
    exact congrArg (reqs.flatMap ·) (funext fun r => map_fst_stretch _ _ _)
  rw [List.map_append, hbytes, hbytes, ← h.dst, List.append_left_inj] at hpairs
  have hassoc : (AxiIncr.written c.OffsetWidth (kw.all.map fun b => b.incr c) s.ws).map Prod.fst ++
      (q.map Prod.fst ++ ((kr.rest (ReadChunk.pairs mem) fun b => b.start c).map Prod.fst ++
        (src_pairs mem s.engine.burst_q rdst).map Prod.fst)) =
      kw.all.flatMap Chunk.bytes ++ s.engine.burst_q.dst.bytes := by
    rw [← hpairs]
    simp only [List.map_append, List.append_assoc]
  rw [h.addrs, ← List.append_assoc, List.append_left_inj] at hassoc
  exact hassoc

/-- Between two bursts, those before have written their bytes. -/
theorem Inv.written_done (h : Inv c mem s kr kw rdst q) (hpart : kw.part = 0) :
    (AxiIncr.written c.OffsetWidth (kw.done.map fun b => b.incr c) s.ws).map Prod.fst =
      kw.done.flatMap Chunk.bytes := by
  have hrest : (kw.rest Chunk.bytes fun b => b.start c) = kw.todo.flatMap Chunk.bytes := by
    rw [Cursor.rest]
    cases kw.todo with
    | nil => rfl
    | cons b rest =>
        dsimp only
        rw [hpart, (write_cuts c).zero, List.drop_zero]
        rfl
  have hlen : (AxiIncr.beats (kw.done.map fun b => b.incr c)).length = s.ws.length := by
    rw [h.write.beats, write_count, hpart, Nat.add_zero]
  have hwritten := h.written_rest
  rw [hrest, Cursor.all, List.map_append, List.flatMap_append, List.append_left_inj, AxiIncr.written_append,
    hlen, List.drop_length, AxiIncr.written_nil, List.append_nil] at hwritten
  exact hwritten

/-! ## The queue of the marks -/

/-- What holds of the bursts and their responses. -/
structure Marks (c : Cfg) (s : Sys) (kw : Cursor Chunk) : Prop where
  queue : FifoV3.Inv c.LastFifoDepth s.engine.i_last_transaction_queue
  marks : FifoV3.elems c.LastFifoDepth s.engine.i_last_transaction_queue =
    (s.aws.drop s.bs).map desc_ax_t.last
  bs_aws : s.bs ≤ s.aws.length
  bs_sent : s.bs ≤ s.sent
  completes : s.completes = (s.aws.take s.bs).countP desc_ax_t.last
  sizes : finished Chunk.len Chunk.last 0 kw.all ++
    owed (begun Chunk.len Chunk.last 0 kw.all) s.engine.burst_q.dst ++
    (FifoV3.elems c.TransFifoDepth s.engine.i_burst_request_fifo).flatMap burst_req_t.size =
      s.reqs.flatMap burst_req_t.size
  open_nil : s.engine.burst_q.dst.num_bytes = 0 → begun Chunk.len Chunk.last 0 kw.all = 0
  whole : ∀ n ≤ kw.done.length,
    (AxiIncr.written c.OffsetWidth ((kw.all.take n).map fun b => b.incr c) s.ws).map Prod.fst =
      (kw.all.take n).flatMap Chunk.bytes

theorem Marks.init (hc : c.Ok) : Marks c Sys.init Cursor.init where
  queue := FifoV3.inv_reset _ (Nat.succ_pos _) hc.last_lt
  marks := rfl
  bs_aws := le_rfl
  bs_sent := le_rfl
  completes := rfl
  sizes := rfl
  open_nil _ := rfl
  whole n hn := by
    rw [Nat.le_zero.mp hn]
    rfl

/-- Once a burst has its data, it has written its bytes for good. -/
theorem whole_step (hc : c.Ok) (h : Inv c mem s kr kw rdst q) (he : Env c mem s i)
    (hwhole : ∀ n ≤ kw.done.length,
      (AxiIncr.written c.OffsetWidth ((kw.all.take n).map fun b => b.incr c) s.ws).map Prod.fst =
        (kw.all.take n).flatMap Chunk.bytes) {n : ℕ} (hn : n ≤ (w_next c s i kw).done.length) :
    (AxiIncr.written c.OffsetWidth (((w_next c s i kw).all.take n).map fun b => b.incr c)
      (s.step c i).ws).map Prod.fst = ((w_next c s i kw).all.take n).flatMap Chunk.bytes := by
  obtain ⟨rdst', q', h'⟩ := h.step hc he
  rcases Nat.lt_or_ge kw.done.length n with hlt | hle
  · -- the burst that has its last beat in this cycle
    have hnext : (w_next c s i kw).part = 0 ∧ n = (w_next c s i kw).done.length := by
      rw [w_next, Cursor.push] at hn ⊢
      by_cases hh : w_handshake c s.engine i = true
      · obtain ⟨b, rest, htodo⟩ := List.exists_cons_of_ne_nil (h.busy hh)
        rw [if_pos hh] at hn ⊢
        by_cases hlast : kw.part = b.beats c
        · rw [Cursor.next_of_last htodo hlast] at hn ⊢
          refine ⟨rfl, ?_⟩
          rw [List.length_append, List.length_singleton] at hn ⊢
          omega
        · rw [Cursor.next_of_lt htodo hlast] at hn
          exact absurd hlt (by dsimp only at hn; omega)
      · rw [if_neg hh] at hn
        exact absurd hlt (by dsimp only at hn; omega)
    rw [hnext.2, Cursor.all, List.take_left]
    exact h'.written_done hnext.1
  · have hall := w_next_all c s i kw
    have htake : kw.all.take n = kw.done.take n := List.take_append_of_le_length hle
    have hlen : (AxiIncr.beats ((kw.done.take n).map fun b => b.incr c)).length ≤ s.ws.length := by
      have hsplit := congrArg (fun l : List Chunk => (AxiIncr.beats (l.map fun b => b.incr c)).length)
        (List.take_append_drop n kw.done)
      rw [List.map_append, AxiIncr.beats_append, List.length_append] at hsplit
      rw [h.write.beats, write_count]
      omega
    have hn' : n ≤ kw.all.length := by
      rw [Cursor.all, List.length_append]
      omega
    have hws : (s.step c i).ws = s.ws ++ (if w_handshake c s.engine i then
      [DataPath.w_beat c s.engine.data_path (data_path_input s.engine i)] else []) := rfl
    rw [hall, List.take_append_of_le_length hn', hws, htake, AxiIncr.written_of_full hlen, ← htake]
    exact hwhole n hle

/-- How many marks wait: one for each burst that still has to be answered. -/
theorem Marks.length_marks (hm : Marks c s kw) :
    (FifoV3.elems c.LastFifoDepth s.engine.i_last_transaction_queue).length = s.aws.length - s.bs := by
  rw [hm.marks, List.length_map, List.length_drop]

/-- The mark of the burst that is sent finds room: the engine does not look, so this is what the
slave is asked for. -/
theorem Marks.push_ok (hm : Marks c s kw) (he : EnvB c mem s i) (hp : aw_emitter_pop s.engine i = true) :
    FifoV3.full_o c.LastFifoDepth s.engine.i_last_transaction_queue = false := by
  have hroom := he.room hp
  have hle := hm.bs_aws
  rw [Bool.eq_false_iff, Ne, hm.queue.full_o_iff, hm.length_marks]
  omega

/-- The mark of the burst that is answered is there. -/
theorem Marks.pop_ok (hm : Marks c s kw) (he : EnvB c mem s i) (hb : i.b_valid = true) :
    FifoV3.empty_o s.engine.i_last_transaction_queue = false := by
  have hlt := (he.resp hb).2
  rw [Bool.eq_false_iff, Ne, @FifoV3.empty_o_iff _ c.LastFifoDepth _, ← List.length_eq_zero_iff, hm.length_marks]
  omega

/-- A burst that is sent adds its mark at the end, and a response takes the first one. -/
theorem Marks.marks_step (hm : Marks c s kw) (he : EnvB c mem s i) :
    FifoV3.elems c.LastFifoDepth (s.step c i).engine.i_last_transaction_queue =
      ((s.step c i).aws.drop (s.step c i).bs).map desc_ax_t.last := by
  have haws : (s.step c i).aws = s.aws ++ (if aw_emitter_pop s.engine i then
    [FifoV3.data_o s.engine.i_fifo_aw_emitter] else []) := rfl
  have hbs : (s.step c i).bs = s.bs + if i.b_valid then 1 else 0 := rfl
  have hmark : (if aw_emitter_pop s.engine i then [FifoV3.data_o s.engine.i_fifo_aw_emitter] else []).map
      desc_ax_t.last =
        if aw_emitter_pop s.engine i then [(FifoV3.data_o s.engine.i_fifo_aw_emitter).last] else [] := by
    split_ifs <;> rfl
  have hq := hm.queue.elems_step_of
    (i := ⟨(FifoV3.data_o s.engine.i_fifo_aw_emitter).last, aw_emitter_pop s.engine i, i.b_valid⟩)
    (hm.push_ok he) (hm.pop_ok he)
  refine Eq.trans hq ?_
  rw [hm.marks, haws, hbs]
  by_cases hb : i.b_valid = true
  · have hlt := (he.resp hb).2
    rw [if_pos hb, if_pos hb, List.drop_append_of_le_length (by omega), List.map_append, ← List.map_tail,
      List.tail_drop, hmark]
  · rw [if_neg hb, if_neg hb, Nat.add_zero, List.drop_append_of_le_length hm.bs_aws, List.map_append, hmark]

/-- The slave answers no burst whose address it has not seen. -/
theorem Marks.bs_aws_step (hm : Marks c s kw) (he : EnvB c mem s i) :
    (s.step c i).bs ≤ (s.step c i).aws.length := by
  change s.bs + (if i.b_valid then 1 else 0) ≤ (s.aws ++ _).length
  rw [List.length_append]
  refine Nat.le_add_right_of_le ?_
  split_ifs with hb
  · exact (he.resp hb).2
  · exact hm.bs_aws

/-- Nor one whose data are not complete. -/
theorem Marks.bs_sent_step (hm : Marks c s kw) (he : EnvB c mem s i) :
    (s.step c i).bs ≤ (s.step c i).sent := by
  have hsent : s.sent ≤ (s.step c i).sent := by
    change _ ≤ (s.ws ++ _).countP AxiIncr.WBeat.last
    rw [List.countP_append]
    exact Nat.le_add_right _ _
  refine Nat.le_trans ?_ hsent
  change s.bs + (if i.b_valid then 1 else 0) ≤ s.sent
  split_ifs with hb
  · exact (he.resp hb).1
  · exact hm.bs_sent

/-- `trans_complete_o` is the mark of the burst that is answered. -/
theorem Marks.complete_mark (hm : Marks c s kw) (he : EnvB c mem s i) (hb : i.b_valid = true) :
    trans_complete_o s.engine i = (s.aws.get ⟨s.bs, (he.resp hb).2⟩).last := by
  have hhead : FifoV3.data_o s.engine.i_last_transaction_queue = (s.aws.get ⟨s.bs, (he.resp hb).2⟩).last := by
    refine hm.queue.data_o_eq ?_
    rw [hm.marks, List.head?_map, List.head?_drop, List.getElem?_eq_getElem (he.resp hb).2]
    rfl
  rw [trans_complete_o, hhead, hb, Bool.and_true]

/-- So the reported transfers are the marked bursts among those that are answered. -/
theorem Marks.completes_step (hm : Marks c s kw) (he : EnvB c mem s i) :
    (s.step c i).completes = ((s.step c i).aws.take (s.step c i).bs).countP desc_ax_t.last := by
  have haws : (s.step c i).aws = s.aws ++ (if aw_emitter_pop s.engine i then
    [FifoV3.data_o s.engine.i_fifo_aw_emitter] else []) := rfl
  have hbs : (s.step c i).bs = s.bs + if i.b_valid then 1 else 0 := rfl
  change s.completes + (if trans_complete_o s.engine i then 1 else 0) = _
  rw [haws, hbs, hm.completes]
  by_cases hb : i.b_valid = true
  · have hlt := (he.resp hb).2
    rw [if_pos hb, List.take_append_of_le_length (by omega), List.take_succ_eq_append_getElem hlt,
      List.countP_append, List.countP_singleton, hm.complete_mark he hb]
    rfl
  · have hno : trans_complete_o s.engine i = false := by
      rw [trans_complete_o, Bool.eq_false_of_not_eq_true hb, Bool.and_false]
    rw [if_neg hb, Nat.add_zero, List.take_append_of_le_length hm.bs_aws, hno]
    rfl

/-- The sizes of the transfers that are cut, in the reshaper and in the queue stay what was asked,
and nothing is begun while the reshaper has nothing. -/
theorem Marks.sizes_step (hc : c.Ok) (h : Inv c mem s kr kw rdst q) (hm : Marks c s kw) :
    finished Chunk.len Chunk.last 0 (w_next c s i kw).all ++
        owed (begun Chunk.len Chunk.last 0 (w_next c s i kw).all) (s.step c i).engine.burst_q.dst ++
        (FifoV3.elems c.TransFifoDepth (s.step c i).engine.i_burst_request_fifo).flatMap burst_req_t.size =
          (s.step c i).reqs.flatMap burst_req_t.size ∧
      ((s.step c i).engine.burst_q.dst.num_bytes = 0 →
        begun Chunk.len Chunk.last 0 (w_next c s i kw).all = 0) := by
  obtain ⟨hsizes, hopen⟩ := dst_sizes (i := reshaper_input c s.engine i) hc h.sides.dst hm.open_nil
    (w_new c s.engine i) rfl
  have hstep : (s.step c i).engine.burst_q =
      Reshaper.step c s.engine.burst_q (reshaper_input c s.engine i) := rfl
  constructor
  · rw [w_next_all, finished_append, begun_append, ← queue_step h.queue hm.sizes, hstep,
      List.append_assoc (finished _ _ _ kw.all), ← hsizes, ← List.append_assoc]
    rfl
  · rw [w_next_all, begun_append]
    exact hopen

theorem Marks.step (hc : c.Ok) (h : Inv c mem s kr kw rdst q) (hm : Marks c s kw) (he : EnvB c mem s i) :
    Marks c (s.step c i) (w_next c s i kw) where
  queue := hm.queue.step _
  marks := hm.marks_step he
  bs_aws := hm.bs_aws_step he
  bs_sent := hm.bs_sent_step he
  completes := hm.completes_step he
  sizes := (hm.sizes_step hc h).1
  open_nil := (hm.sizes_step hc h).2
  whole _ hn := whole_step hc h he.toEnv hm.whole hn

/-! ## Runs -/

theorem ReachB.inv (hc : c.Ok) (h : ReachB c mem s) :
    ∃ kr kw rdst q, Inv c mem s kr kw rdst q ∧ Marks c s kw := by
  refine Sync.Reach.inv (P := fun s => ∃ kr kw rdst q, Inv c mem s kr kw rdst q ∧ Marks c s kw) ?_ ?_ h
  · intro s hs
    rw [hs]
    exact ⟨_, _, _, _, Inv.init hc mem, Marks.init hc⟩
  · rintro s i ⟨kr, kw, rdst, q, h, hm⟩ he
    obtain ⟨rdst', q', h'⟩ := h.step hc he.toEnv
    exact ⟨_, _, _, _, h', hm.step hc h he⟩

/-- The bursts that have their response and their address have written all their bytes. -/
theorem Marks.written_le (h : Inv c mem s kr kw rdst q) (hm : Marks c s kw) :
    ((kw.all.take s.bs).map Chunk.len).sum ≤
      (AxiIncr.written c.OffsetWidth (s.aws.map desc_ax_t.incr) s.ws).length := by
  have hbs : s.bs ≤ kw.done.length := h.write.sent ▸ hm.bs_sent
  have hlen := congrArg List.length (hm.whole s.bs hbs)
  have hsum : ((kw.all.take s.bs).flatMap Chunk.bytes).length = ((kw.all.take s.bs).map Chunk.len).sum := by
    rw [List.length_flatMap]
    congr 1
    apply List.map_congr_left
    intro b _
    exact List.length_range'
  have haws := take_of_append h.write.aws
  have hfirst : (kw.all.take s.bs).map (fun b => b.incr c) <+: s.aws.map desc_ax_t.incr := by
    rw [haws, List.map_map]
    exact ((List.take_prefix_take_left hm.bs_aws).map _)
  rw [List.length_map, hsum] at hlen
  rw [← hlen]
  exact (AxiIncr.written_mono hfirst s.ws).length_le

theorem sizes_eq (reqs : List burst_req_t) : reqs.flatMap burst_req_t.size =
    (reqs.filter fun r => r.num_bytes ≠ 0).map burst_req_t.num_bytes := by
  induction reqs with
  | nil => rfl
  | cons r reqs ih =>
      rw [List.flatMap_cons, burst_req_t.size, ih]
      by_cases hr : r.num_bytes = 0
      · rw [if_pos hr, List.filter_cons_of_neg (by simpa using hr)]
        rfl
      · rw [if_neg hr, List.filter_cons_of_pos (by simpa using hr)]
        rfl

theorem pairs_filter (mem : ℕ → Byte) (reqs : List burst_req_t) : reqs.flatMap (burst_req_t.pairs mem) =
    (reqs.filter fun r => r.num_bytes ≠ 0).flatMap (burst_req_t.pairs mem) := by
  induction reqs with
  | nil => rfl
  | cons r reqs ih =>
      rw [List.flatMap_cons, ih]
      by_cases hr : r.num_bytes = 0
      · rw [List.filter_cons_of_neg (by simpa using hr), burst_req_t.pairs, hr]
        rfl
      · rw [List.filter_cons_of_pos (by simpa using hr), List.flatMap_cons]

/-- The sizes of the transfers that are reported. -/
theorem Marks.reported (h : Inv c mem s kr kw rdst q) (hm : Marks c s kw) :
    finished Chunk.len Chunk.last 0 (kw.all.take s.bs) <+: s.reqs.flatMap burst_req_t.size ∧
      (finished Chunk.len Chunk.last 0 (kw.all.take s.bs)).length = s.completes := by
  constructor
  · have hall := finished_append Chunk.len Chunk.last 0 (kw.all.take s.bs) (kw.all.drop s.bs)
    rw [List.take_append_drop] at hall
    rw [← hm.sizes, hall]
    simp only [List.append_assoc]
    exact List.prefix_append _ _
  · have haws : s.aws.take s.bs = (kw.all.take s.bs).map fun b => b.ax c := by
      rw [take_of_append h.write.aws, ← List.map_take, List.take_take, Nat.min_eq_left hm.bs_aws]
    rw [length_finished, hm.completes, haws, List.countP_map]
    rfl

/-- **A transfer that is reported is written.** The transfers that are not empty are reported
in their order, and the bytes of those that were reported are all in place. -/
theorem trans_complete (c : Cfg) (hc : c.Ok) (mem : ℕ → Byte) (s : Sys) (h : ReachB c mem s) :
    s.completes ≤ (s.reqs.filter fun r => r.num_bytes ≠ 0).length ∧
      ((s.reqs.filter fun r => r.num_bytes ≠ 0).take s.completes).flatMap (burst_req_t.pairs mem) <+:
        AxiIncr.written c.OffsetWidth (s.aws.map desc_ax_t.incr) s.ws := by
  obtain ⟨kr, kw, rdst, q, hinv, hm⟩ := h.inv hc
  have hcopies := dma_written hinv
  -- the transfers reported are the first ones with bytes
  obtain ⟨hfirst, hlen⟩ := hm.reported hinv
  have hsum := sum_finished Chunk.len Chunk.last 0 (kw.all.take s.bs)
  have hwritten := hm.written_le hinv
  rw [sizes_eq] at hfirst
  have htake := List.prefix_iff_eq_take.mp hfirst
  rw [hlen, ← List.map_take] at htake
  constructor
  · have := hfirst.length_le
    rwa [hlen, List.length_map] at this
  · -- both are beginnings of what is asked for, so the number of bytes decides
    rw [pairs_filter] at hcopies
    refine List.prefix_of_prefix_length_le (List.IsPrefix.flatMap (List.take_prefix _ _) _) hcopies ?_
    have hbytes : ∀ reqs : List burst_req_t, (reqs.flatMap (burst_req_t.pairs mem)).length =
        (reqs.map burst_req_t.num_bytes).sum := by
      intro reqs
      rw [List.length_flatMap]
      congr 1
      apply List.map_congr_left
      intro r _
      exact AxiIncr.length_stretch
    rw [hbytes, ← htake]
    omega

theorem trans_complete_demo : ∃ s, ReachB ⟨1, 32, 2, 2, 2⟩ demo_mem s ∧ s.completes = 1 ∧
    s.completes ≤ (s.reqs.filter fun r => r.num_bytes ≠ 0).length ∧
      ((s.reqs.filter fun r => r.num_bytes ≠ 0).take s.completes).flatMap (burst_req_t.pairs demo_mem) <+:
        AxiIncr.written 1 (s.aws.map desc_ax_t.incr) s.ws :=
  ⟨demo_run, demo_reach, by decide +kernel, trans_complete _ demo_ok _ _ demo_reach⟩

end Pspin.AxiDma
