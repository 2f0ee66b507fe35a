/-
A cycle of the reshaper.

What is left of the transfer loses the chunk that is handed on, and gains the transfer that
is taken (`reshaper_step`). Without a chunk for the write side, the write side is not the one
that is behind (`write_lag`).
-/
import Pspin.DmaBursts

set_option autoImplicit false

namespace Pspin.AxiDma

variable {c : Cfg} {q : burst_decoupled_t} {i : Reshaper.Input} {mem : ℕ → Byte} {rdst : ℕ}

/-! ## Requests -/

/-- A transfer that the engine can carry out: both bursts of the kind that is supported, and
both regions within the address space. -/
structure burst_req_t.Ok (c : Cfg) (req : burst_req_t) : Prop where
  incr_src : req.burst_src = .BURST_INCR
  incr_dst : req.burst_dst = .BURST_INCR
  room_src : req.src + req.num_bytes ≤ 2 ^ c.AddrWidth
  room_dst : req.dst + req.num_bytes ≤ 2 ^ c.AddrWidth

namespace burst_req_t

/-- The bytes that a transfer reads. -/
def src_bytes (req : burst_req_t) : List ℕ := List.range' req.src req.num_bytes

def dst_bytes (req : burst_req_t) : List ℕ := List.range' req.dst req.num_bytes

/-- What the transfer writes: each byte of the source at its place in the destination. -/
def pairs (mem : ℕ → Byte) (req : burst_req_t) : List (ℕ × Byte) :=
  AxiIncr.stretch req.dst req.num_bytes fun k => mem (req.src + k)

end burst_req_t

/-! ## How much can be cut -/

/-- Bytes to the end of the page: at least one, and never over it. -/
theorem pb_spec (hc : c.Ok) (deburst : Bool) (addr : ℕ) :
    0 < Reshaper.num_bytes_to_pb c deburst addr ∧
      addr % c.PageSize + Reshaper.num_bytes_to_pb c deburst addr ≤ c.PageSize := by
  obtain ⟨-, -, m, hm, -, hpage⟩ := Cfg.page_spec hc
  have hW := c.strb_pos
  have hlt := Cfg.page_lt hc
  have hpos := Cfg.page_pos hc
  have hmod := Nat.mod_lt addr hpos
  rw [Reshaper.num_bytes_to_pb]
  -- up to the end of the page, or, for single beats, of the line
  cases deburst with
  | false =>
      rw [if_neg Bool.false_ne_true, Nat.mod_eq_of_lt (by omega)]
      omega
  | true =>
      have hoff := Nat.mod_lt addr hW
      have hline : addr % c.PageSize % c.StrbWidth = addr % c.StrbWidth :=
        Nat.mod_mod_of_dvd _ ⟨m, by rw [hpage, Nat.mul_comm]⟩
      have hdiv := Nat.div_add_mod' (addr % c.PageSize) c.StrbWidth
      -- the line lies in the page, since a page is a number of lines
      have hlines : addr % c.PageSize / c.StrbWidth < m := by
        rw [Nat.div_lt_iff_lt_mul hW, ← hpage]
        exact hmod
      have hmul := Nat.mul_le_mul_right c.StrbWidth (Nat.succ_le_of_lt hlines)
      rw [← hpage, Nat.succ_mul] at hmul
      rw [hline] at hdiv
      have hsmall : (c.StrbWidth - addr % c.StrbWidth) % (2 * c.StrbWidth) =
          c.StrbWidth - addr % c.StrbWidth := Nat.mod_eq_of_lt (by omega)
      rw [if_pos rfl, hsmall, Nat.mod_eq_of_lt (by omega)]
      omega

/-- The same for what can be cut on the read side. -/
theorem r_possible_spec (hc : c.Ok) (q : burst_decoupled_t) : 0 < Reshaper.r_num_bytes_possible c q ∧
    q.src.addr % c.PageSize + Reshaper.r_num_bytes_possible c q ≤ c.PageSize := by
  obtain ⟨hr, hr'⟩ := pb_spec hc q.deburst q.src.addr
  obtain ⟨hw, -⟩ := pb_spec hc q.deburst q.dst.addr
  rw [Reshaper.r_num_bytes_possible, Reshaper.c_num_bytes_to_pb, Reshaper.r_num_bytes_to_pb,
    Reshaper.w_num_bytes_to_pb]
  split_ifs <;> omega

theorem w_possible_spec (hc : c.Ok) (q : burst_decoupled_t) : 0 < Reshaper.w_num_bytes_possible c q ∧
    q.dst.addr % c.PageSize + Reshaper.w_num_bytes_possible c q ≤ c.PageSize := by
  obtain ⟨hr, -⟩ := pb_spec hc q.deburst q.src.addr
  obtain ⟨hw, hw'⟩ := pb_spec hc q.deburst q.dst.addr
  rw [Reshaper.w_num_bytes_possible, Reshaper.c_num_bytes_to_pb, Reshaper.r_num_bytes_to_pb,
    Reshaper.w_num_bytes_to_pb]
  split_ifs <;> omega

/-! ## The chunks on offer -/

/-- The chunk on offer at the read side, if its bytes go to `rdst`. -/
def read_chunk (c : Cfg) (q : burst_decoupled_t) (rdst : ℕ) : ReadChunk where
  toChunk := q.src.chunk c (Reshaper.r_num_bytes_possible c q)
  dst := rdst
  shift := q.shift

/-- The chunk that the write side offers. -/
def write_chunk (c : Cfg) (q : burst_decoupled_t) : Chunk :=
  q.dst.chunk c (Reshaper.w_num_bytes_possible c q)

/-- The descriptors that are offered are those of the chunk. -/
theorem read_desc (hc : c.Ok) (h : q.src.Ok c) (hn : 0 < q.src.num_bytes) (rdst : ℕ) :
    Reshaper.ar c q = (read_chunk c q rdst).ax c ∧ Reshaper.r c q = (read_chunk c q rdst).r c := by
  obtain ⟨hp, hpage⟩ := r_possible_spec hc q
  exact ⟨desc_ax_eq hc h hn hp hpage, rfl⟩

theorem write_desc (hc : c.Ok) (h : q.dst.Ok c) (hn : 0 < q.dst.num_bytes) :
    Reshaper.aw c q = (write_chunk c q).ax c ∧ Reshaper.w c q = (write_chunk c q).w c := by
  obtain ⟨hp, hpage⟩ := w_possible_spec hc q
  have haw : Reshaper.aw c q = (write_chunk c q).ax c := desc_ax_eq hc h hn hp hpage
  refine ⟨haw, ?_⟩
  rw [Reshaper.w, haw]
  rfl

/-! ## One cycle -/

/-- The two sides of the transfer in the reshaper. The next byte that is read goes to `rdst`. -/
structure Sides (c : Cfg) (q : burst_decoupled_t) (rdst : ℕ) : Prop where
  src : q.src.Ok c
  dst : q.dst.Ok c
  coupled : q.decouple_rw = false → q.src.num_bytes = q.dst.num_bytes
  turn : 0 < q.src.num_bytes → (rdst + q.shift) % c.StrbWidth = q.src.addr % c.StrbWidth

/-- What is left on the read side. -/
def src_pairs (mem : ℕ → Byte) (q : burst_decoupled_t) (rdst : ℕ) : List (ℕ × Byte) :=
  AxiIncr.stretch rdst q.src.num_bytes fun k => mem (q.src.addr + k)

def r_push (q : burst_decoupled_t) (i : Reshaper.Input) : Bool := Reshaper.r_valid_o q i && i.r_ready_i

/-- A chunk is handed on to the write side. -/
def w_push (q : burst_decoupled_t) (i : Reshaper.Input) : Bool := Reshaper.w_valid_o q i && i.w_ready_i

/-- Whether a side moves on. -/
def r_moves (q : burst_decoupled_t) (i : Reshaper.Input) : Bool :=
  if q.decouple_rw then i.r_ready_i else i.r_ready_i && i.w_ready_i

/-- The write side goes on. Coupled sides go on together. -/
def w_moves (q : burst_decoupled_t) (i : Reshaper.Input) : Bool :=
  if q.decouple_rw then i.w_ready_i else i.w_ready_i && i.r_ready_i

/-- A chunk is handed on as the side moves, as long as it has one. -/
theorem r_push_eq (h : q.src.Ok c) : r_push q i = (decide (0 < q.src.num_bytes) && r_moves q i) := by
  rw [r_push, Reshaper.r_valid_o, r_moves, ← h.valid]
  cases q.decouple_rw <;> cases q.src.valid <;> cases i.r_ready_i <;> cases i.w_ready_i <;> rfl

theorem w_push_eq (h : q.dst.Ok c) : w_push q i = (decide (0 < q.dst.num_bytes) && w_moves q i) := by
  rw [w_push, Reshaper.w_valid_o, w_moves, ← h.valid]
  cases q.decouple_rw <;> cases q.dst.valid <;> cases i.r_ready_i <;> cases i.w_ready_i <;> rfl

/-- The next transfer is taken when both sides are at their end and move on. -/
theorem ready_o_spec (h : Reshaper.ready_o c q i = true) : (Reshaper.r_cut c q).finish = true ∧
    (Reshaper.w_cut c q).finish = true ∧ i.valid_i = true ∧ i.r_ready_i = true ∧ i.w_ready_i = true := by
  simpa only [Reshaper.ready_o, Bool.and_eq_true, and_assoc] using h

/-- A cycle that takes the next transfer. -/
theorem step_of_ready (h : Reshaper.ready_o c q i = true) :
    Reshaper.step c q i = Reshaper.refill c i.burst_req_i true := by
  obtain ⟨-, -, hv, hr, hw⟩ := ready_o_spec h
  rw [Reshaper.step, Reshaper.burst_d, if_pos h, hr, hw, hv]
  simp only [Bool.and_self, ite_self, if_true]

theorem step_of_not_ready (h : Reshaper.ready_o c q i = false) : Reshaper.step c q i =
    { q with
      src := if r_moves q i then (Reshaper.r_cut c q).rest else q.src
      dst := if w_moves q i then (Reshaper.w_cut c q).rest else q.dst } := by
  have hd : Reshaper.burst_d c q i =
      { q with src := (Reshaper.r_cut c q).rest, dst := (Reshaper.w_cut c q).rest } :=
    if_neg (by simp [h])
  rw [Reshaper.step, hd]
  rfl

/-- The next transfer is taken only where both sides move. -/
theorem moves_of_ready (h : Reshaper.ready_o c q i = true) : r_moves q i = true ∧ w_moves q i = true := by
  obtain ⟨-, -, -, hr, hw⟩ := ready_o_spec h
  rw [r_moves, w_moves, hr, hw]
  cases q.decouple_rw <;> exact ⟨rfl, rfl⟩

/-- A transfer that is taken is legal on both sides. -/
theorem refill_sides {req : burst_req_t} (hreq : req.Ok c) :
    Sides c (Reshaper.refill c req true) req.dst where
  src := ⟨by by_cases h : req.num_bytes = 0 <;> simp [Reshaper.refill, h, Nat.pos_iff_ne_zero],
    fun _ => hreq.incr_src, fun _ => hreq.room_src⟩
  dst := ⟨by by_cases h : req.num_bytes = 0 <;> simp [Reshaper.refill, h, Nat.pos_iff_ne_zero],
    fun _ => hreq.incr_dst, fun _ => hreq.room_dst⟩
  coupled _ := rfl
  turn _ := by
    have hlt := Nat.mod_lt req.dst c.strb_pos
    have hdiv := Nat.div_add_mod' req.dst c.StrbWidth
    have hsum : req.dst + (req.src % c.StrbWidth + c.StrbWidth - req.dst % c.StrbWidth) =
        req.dst / c.StrbWidth * c.StrbWidth + (req.src % c.StrbWidth + c.StrbWidth) := by omega
    change (req.dst + (req.src % c.StrbWidth + c.StrbWidth - req.dst % c.StrbWidth) % c.StrbWidth) %
      c.StrbWidth = req.src % c.StrbWidth
    rw [Nat.add_mod_mod, hsum, Nat.mul_add_mod', Nat.add_mod_right, Nat.mod_mod]

/-- The bytes of a chunk that is read, and those after it. -/
theorem src_pairs_cut (hc : c.Ok) (h : Sides c q rdst) (hn : 0 < q.src.num_bytes) (mem : ℕ → Byte) :
    src_pairs mem q rdst = (read_chunk c q rdst).pairs mem ++
      src_pairs mem { q with src := (Reshaper.r_cut c q).rest } (rdst + (read_chunk c q rdst).len) := by
  obtain ⟨hp, hpage⟩ := r_possible_spec hc q
  obtain ⟨-, -, hlen, -, haddr⟩ := cut_spec hc h.src hn hp hpage
  rw [src_pairs, hlen, ReadChunk.pairs, src_pairs]
  refine (AxiIncr.stretch_append fun k hk => ?_).symm
  change mem ((Reshaper.cut c q.src (Reshaper.r_num_bytes_possible c q)).rest.addr + k) = _
  rw [haddr (by exact Nat.zero_lt_of_lt hk), Nat.add_assoc]

/-- A side that is done copies nothing more. -/
theorem src_pairs_nil (h : q.src.num_bytes = 0) (mem : ℕ → Byte) (rdst : ℕ) : src_pairs mem q rdst = [] := by
  rw [src_pairs, h]
  rfl

theorem chan_bytes_nil {chan : burst_chan_t} (h : chan.num_bytes = 0) : chan.bytes = [] := by
  rw [burst_chan_t.bytes, h]
  rfl

/-- A side that moves on. -/
theorem src_moves (hc : c.Ok) (h : Sides c q rdst) (mem : ℕ → Byte) : src_pairs mem q rdst =
    (if 0 < q.src.num_bytes then (read_chunk c q rdst).pairs mem else []) ++
      src_pairs mem { q with src := (Reshaper.r_cut c q).rest } (rdst + (read_chunk c q rdst).len) := by
  split_ifs with hn
  · exact src_pairs_cut hc h hn mem
  · have hz : q.src.num_bytes = 0 := by omega
    rw [src_pairs_nil hz, List.nil_append, src_pairs_nil]
    exact congrArg burst_chan_t.num_bytes (cut_idle c _ hz).2

/-- Cutting takes the chunk off the front of a side's bytes. -/
theorem chan_moves (hc : c.Ok) {chan : burst_chan_t} {p : ℕ} (h : chan.Ok c) (hp : 0 < p)
    (hpage : chan.addr % c.PageSize + p ≤ c.PageSize) : chan.bytes =
    (if 0 < chan.num_bytes then (chan.chunk c p).bytes else []) ++ (Reshaper.cut c chan p).rest.bytes := by
  split_ifs with hn
  · exact cut_bytes hc h hn hp hpage
  · have hz : chan.num_bytes = 0 := by omega
    rw [chan_bytes_nil hz, List.nil_append, chan_bytes_nil]
    exact congrArg burst_chan_t.num_bytes (cut_idle c _ hz).2

/-- What is left behind the last chunk. -/
theorem rest_of_finish (hc : c.Ok) {chan : burst_chan_t} {p : ℕ} (h : chan.Ok c) (hp : 0 < p)
    (hpage : chan.addr % c.PageSize + p ≤ c.PageSize) (hf : (Reshaper.cut c chan p).finish = true) :
    (Reshaper.cut c chan p).rest.num_bytes = 0 := by
  rcases Nat.eq_zero_or_pos chan.num_bytes with hz | hn
  · exact congrArg burst_chan_t.num_bytes (cut_idle c p hz).2
  · obtain ⟨-, -, -, hlast, -⟩ := cut_spec hc h hn hp hpage
    exact hlast.mp hf

theorem rest_ok (hc : c.Ok) {chan : burst_chan_t} {p : ℕ} (h : chan.Ok c) (hp : 0 < p)
    (hpage : chan.addr % c.PageSize + p ≤ c.PageSize) : (Reshaper.cut c chan p).rest.Ok c := by
  rcases Nat.eq_zero_or_pos chan.num_bytes with hz | hn
  · rw [(cut_idle c p hz).2]
    exact zero_ok c
  · exact (cut_spec hc h hn hp hpage).2.1

/-- Two sides that are cut alike have as much left. -/
theorem cut_coupled (chan chan' : burst_chan_t) (p : ℕ) (h : chan.num_bytes = chan'.num_bytes) :
    (Reshaper.cut c chan p).rest.num_bytes = (Reshaper.cut c chan' p).rest.num_bytes := by
  rw [Reshaper.cut, Reshaper.cut, h]
  split_ifs <;> rfl

/-- The sides after a cycle in which no transfer is taken. -/
theorem moved_sides (hc : c.Ok) (h : Sides c q rdst) (hno : Reshaper.ready_o c q i = false) :
    Sides c (Reshaper.step c q i) (if r_moves q i then rdst + (read_chunk c q rdst).len else rdst) := by
  obtain ⟨hrp, hrpage⟩ := r_possible_spec hc q
  obtain ⟨hwp, hwpage⟩ := w_possible_spec hc q
  rw [step_of_not_ready hno]
  refine ⟨?_, ?_, fun hd => ?_, fun hn => ?_⟩
  · -- the sources that are left
    dsimp only
    split_ifs
    · exact rest_ok hc h.src hrp hrpage
    · exact h.src
  · -- the destinations that are left
    dsimp only
    split_ifs
    · exact rest_ok hc h.dst hwp hwpage
    · exact h.dst
  · -- coupled sides move together, and by the same number of bytes
    have hdec : q.decouple_rw = false := hd
    have hmoves : r_moves q i = w_moves q i := by
      rw [r_moves, w_moves, hdec]
      exact Bool.and_comm _ _
    dsimp only
    rw [hmoves]
    split_ifs
    · rw [Reshaper.r_cut, Reshaper.w_cut, Reshaper.r_num_bytes_possible, Reshaper.w_num_bytes_possible,
        hdec]
      exact cut_coupled _ _ _ (h.coupled hdec)
    · exact h.coupled hdec
  · -- source and destination of what is left are at the same turn as before
    dsimp only at hn ⊢
    by_cases hm : r_moves q i = true
    · rw [if_pos hm] at hn
      rw [if_pos hm, if_pos hm]
      -- something was cut, since something is left of it
      have hpos : 0 < q.src.num_bytes := by
        by_contra hz
        have := congrArg burst_chan_t.num_bytes
          (cut_idle c (Reshaper.r_num_bytes_possible c q) (Nat.eq_zero_of_not_pos hz)).2
        exact absurd hn (by rw [Reshaper.r_cut, this]; exact lt_irrefl 0)
      obtain ⟨-, -, -, -, haddr⟩ := cut_spec hc h.src hpos hrp hrpage
      have hrest : (Reshaper.r_cut c q).rest.addr = q.src.addr + (read_chunk c q rdst).len := haddr hn
      rw [hrest, Nat.add_right_comm]
      exact Nat.ModEq.add_right _ (h.turn hpos)
    · rw [if_neg hm] at hn
      rw [if_neg hm, if_neg hm]
      exact h.turn hn

/-- A cycle of one side, with `new` for the transfer that is taken. -/
theorem side_step (hc : c.Ok) {chan next : burst_chan_t} {p : ℕ} {push moves ready : Bool} {new : List ℕ}
    (h : chan.Ok c) (hp : 0 < p) (hpage : chan.addr % c.PageSize + p ≤ c.PageSize)
    (hpush : push = (decide (0 < chan.num_bytes) && moves))
    (htake : ready = true → moves = true ∧ (Reshaper.cut c chan p).finish = true ∧ next.bytes = new)
    (hstay : ready = false → next = if moves then (Reshaper.cut c chan p).rest else chan) :
    chan.bytes ++ (if ready then new else []) =
      (if push then (chan.chunk c p).bytes else []) ++ next.bytes := by
  have hmoves := chan_moves hc h hp hpage
  by_cases hready : ready = true
  · obtain ⟨hm, hf, hnew⟩ := htake hready
    rw [hm, Bool.and_true] at hpush
    rw [hmoves, chan_bytes_nil (rest_of_finish hc h hp hpage hf), List.append_nil, if_pos hready, hnew, hpush]
    simp only [decide_eq_true_eq]
  · have hno := Bool.eq_false_of_not_eq_true hready
    rw [if_neg hready, List.append_nil, hpush, hstay hno]
    by_cases hm : moves = true
    · rw [hmoves, hm, Bool.and_true]
      simp only [decide_eq_true_eq, if_true]
    · rw [Bool.eq_false_of_not_eq_true hm, Bool.and_false]
      rfl

/-- **What is left loses the chunks that are handed on**, and gains the transfer that is
taken. -/
theorem reshaper_step (hc : c.Ok) (h : Sides c q rdst)
    (hreq : Reshaper.ready_o c q i = true → i.burst_req_i.Ok c) : ∃ rdst',
    Sides c (Reshaper.step c q i) rdst' ∧
    ∀ mem, src_pairs mem q rdst ++ (if Reshaper.ready_o c q i then i.burst_req_i.pairs mem else []) =
      (if r_push q i then (read_chunk c q rdst).pairs mem else []) ++
        src_pairs mem (Reshaper.step c q i) rdst' := by
  obtain ⟨hrp, hrpage⟩ := r_possible_spec hc q
  have hr := r_push_eq (i := i) h.src
  have hsrc := src_moves hc h
  -- the transfer ends and the next one is taken
  by_cases hready : Reshaper.ready_o c q i = true
  · obtain ⟨hrf, -⟩ := ready_o_spec hready
    obtain ⟨hrm, -⟩ := moves_of_ready hready
    have hrz := rest_of_finish hc h.src hrp hrpage hrf
    rw [hrm, Bool.and_true] at hr
    refine ⟨i.burst_req_i.dst, ?_, fun mem => ?_⟩
    · rw [step_of_ready hready]
      exact refill_sides (hreq hready)
    · rw [hsrc mem, src_pairs_nil (q := { q with src := (Reshaper.r_cut c q).rest }) hrz, List.append_nil,
        if_pos hready, step_of_ready hready, hr]
      simp only [decide_eq_true_eq]
      rfl
  · -- the transfer goes on
    have hno := Bool.eq_false_of_not_eq_true hready
    refine ⟨_, moved_sides hc h hno, fun mem => ?_⟩
    rw [if_neg hready, List.append_nil, hr, step_of_not_ready hno]
    -- a burst is pushed, and is the front of what was left; or nothing is
    by_cases hm : r_moves q i = true
    · rw [hsrc mem, hm, Bool.and_true]
      simp only [decide_eq_true_eq, if_true]
      rfl
    · rw [Bool.eq_false_of_not_eq_true hm, Bool.and_false]
      rfl

/-- The addresses that are left to read. -/
theorem src_step (hc : c.Ok) (rdst : ℕ) (h : q.src.Ok c) :
    q.src.bytes ++ (if Reshaper.ready_o c q i then i.burst_req_i.src_bytes else []) =
      (if r_push q i then (read_chunk c q rdst).bytes else []) ++ (Reshaper.step c q i).src.bytes := by
  obtain ⟨hp, hpage⟩ := r_possible_spec hc q
  refine side_step hc h hp hpage (r_push_eq h) (fun hready => ?_) fun hno => ?_
  · rw [step_of_ready hready]
    exact ⟨(moves_of_ready hready).1, (ready_o_spec hready).1, rfl⟩
  · rw [step_of_not_ready hno]
    rfl

/-- The addresses that are left to write. -/
theorem dst_step (hc : c.Ok) (h : q.dst.Ok c) :
    q.dst.bytes ++ (if Reshaper.ready_o c q i then i.burst_req_i.dst_bytes else []) =
      (if w_push q i then (write_chunk c q).bytes else []) ++ (Reshaper.step c q i).dst.bytes := by
  obtain ⟨hp, hpage⟩ := w_possible_spec hc q
  refine side_step hc h hp hpage (w_push_eq h) (fun hready => ?_) fun hno => ?_
  · rw [step_of_ready hready]
    exact ⟨(moves_of_ready hready).2, (ready_o_spec hready).2.1, rfl⟩
  · rw [step_of_not_ready hno]
    rfl

/-- **The write side is not the one behind**, unless it was kept from moving on. -/
theorem write_lag (h : Sides c q rdst) (hno : w_push q i = false) (hw : i.w_ready_i = true) :
    (Reshaper.step c q i).dst.num_bytes ≤ (Reshaper.step c q i).src.num_bytes := by
  by_cases hready : Reshaper.ready_o c q i = true
  · rw [step_of_ready hready]
    exact le_rfl
  rw [step_of_not_ready (Bool.eq_false_of_not_eq_true hready)]
  dsimp only
  rw [w_push_eq h.dst] at hno
  rcases Nat.eq_zero_or_pos q.dst.num_bytes with hz | hpos
  · -- nothing is left to write
    have hrest : (Reshaper.w_cut c q).rest.num_bytes = 0 :=
      congrArg burst_chan_t.num_bytes (cut_idle c _ hz).2
    split_ifs <;> omega
  · have hstay : w_moves q i = false := by simpa [hpos] using hno
    have hcoupled : q.decouple_rw = false := by
      by_contra hd
      rw [w_moves, if_pos (by simpa using hd), hw] at hstay
      exact absurd hstay (by simp)
    have hr : r_moves q i = false := by
      rw [w_moves, hcoupled, hw] at hstay
      rw [r_moves, hcoupled, hw]
      simpa using hstay
    rw [if_neg (by simp [hstay]), if_neg (by simp [hr]), h.coupled hcoupled]

end Pspin.AxiDma
