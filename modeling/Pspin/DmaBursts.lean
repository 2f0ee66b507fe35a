/-
The bursts of the DMA engine.

A chunk is what one burst moves: some bytes in a row, within a page. The descriptors that the
reshaper makes are those of the chunks that its transfer is cut into (`cut_spec`), and the
masks of the data path select the bytes of a chunk, beat after beat (`mask_iff`).
-/
import Pspin.AxiLogs
import Pspin.ByteLanes
import Pspin.DmaBackend

set_option autoImplicit false

namespace Pspin.AxiDma

/-- What the engine may be built with. -/
structure Cfg.Ok (c : Cfg) : Prop where
  offset_pos : 1 ≤ c.OffsetWidth
  offset_le : c.OffsetWidth ≤ 7
  addr_width : 32 ≤ c.AddrWidth
  trans_pos : 0 < c.TransFifoDepth
  trans_lt : c.TransFifoDepth < 2 ^ 32
  ax_pos : 2 ≤ c.AxReqFifoDepth
  buffer_pos : 2 ≤ c.BufferDepth
  last_lt : c.AxReqFifoDepth + c.BufferDepth + 1 < 2 ^ 32

namespace Cfg

variable {c : Cfg}

theorem strb_pos (c : Cfg) : 0 < c.StrbWidth := Nat.two_pow_pos _

/-- A page is a power of two, of at most 256 beats and at most 4 KiB. -/
theorem page_spec (h : c.Ok) : c.PageSize = 2 ^ c.PageAddrWidth ∧ c.PageSize ∣ 4096 ∧
    ∃ m, 0 < m ∧ m ≤ 256 ∧ c.PageSize = m * c.StrbWidth := by
  have hle := h.offset_le
  have hpage : c.PageSize = 2 ^ min 12 (8 + c.OffsetWidth) := by
    have hall : ∀ k ≤ 7, (if 256 * 2 ^ k > 4096 then 4096 else 256 * 2 ^ k) = 2 ^ min 12 (8 + k) := by
      decide
    exact hall _ hle
  refine ⟨?_, ?_, ?_⟩
  · rw [PageAddrWidth, hpage, Nat.clog_pow 2 _ Nat.one_lt_two]
  · rw [hpage]
    exact Nat.pow_dvd_pow 2 (Nat.min_le_left 12 _)
  · refine ⟨2 ^ (min 12 (8 + c.OffsetWidth) - c.OffsetWidth), Nat.two_pow_pos _, ?_, ?_⟩
    · exact Nat.pow_le_pow_right (n := 2) (by decide) (by omega : _ ≤ 8)
    · rw [hpage, StrbWidth, ← Nat.pow_add]
      congr 1
      omega

theorem Ok.ax_depth (h : c.Ok) : 0 < c.AxReqFifoDepth ∧ c.AxReqFifoDepth < 2 ^ 32 := by
  have := h.ax_pos
  have := h.last_lt
  omega

theorem Ok.buffer_depth (h : c.Ok) : 0 < c.BufferDepth ∧ c.BufferDepth < 2 ^ 32 := by
  have := h.buffer_pos
  have := h.last_lt
  omega

theorem page_pos (h : c.Ok) : 0 < c.PageSize := by
  rw [(page_spec h).1]
  exact Nat.two_pow_pos _

/-- An offset in a page fits its register. -/
theorem page_lt (h : c.Ok) : c.PageSize < 2 ^ (c.PageAddrWidth + 1) := by
  rw [(page_spec h).1]
  exact Nat.pow_lt_pow_right Nat.one_lt_two (Nat.lt_succ_self _)

end Cfg

/-! ## Beats of a burst

`n` bytes that start `o` bytes behind a line take `(n + o - 1) / W + 1` beats. -/

section Beats

variable {W o n j l : ℕ}

/-- The last beat of a burst has a byte. -/
theorem beats_lt (W : ℕ) (hn : 0 < n) : (n + o - 1) / W * W < n + o := by
  have := Nat.div_mul_le_self (n + o - 1) W
  omega

theorem le_beats (hW : 0 < W) (n o : ℕ) : n + o ≤ (n + o - 1) / W * W + W := by
  have := Nat.lt_div_mul_add (a := n + o - 1) hW
  omega

/-- **The masks select the bytes of the burst.** -/
theorem mask_iff (hW : 0 < W) (hn : 0 < n) (ho : o < W) (hj : j ≤ (n + o - 1) / W) (hl : l < W) :
    ((j = 0 → o ≤ l) ∧ (j = (n + o - 1) / W → (n + o) % W ≠ 0 → l < (n + o) % W)) ↔
      o ≤ j * W + l ∧ j * W + l < o + n := by
  have hlo := beats_lt (o := o) W hn
  have hhi := le_beats hW n o
  generalize (n + o - 1) / W = N at *
  have hfirst : (j = 0 → o ≤ l) ↔ o ≤ j * W + l := by
    rcases Nat.eq_zero_or_pos j with rfl | hpos
    · simp
    · have := Nat.le_mul_of_pos_left W hpos
      omega
  have hlast : (j = N → (n + o) % W ≠ 0 → l < (n + o) % W) ↔ j * W + l < o + n := by
    rcases Nat.lt_or_ge j N with hlt | hge
    · have hmul := Nat.mul_le_mul_right W (Nat.succ_le_of_lt hlt)
      rw [Nat.succ_mul] at hmul
      omega
    · have heq : j = N := le_antisymm hj hge
      subst heq
      -- the last beat is full, or the burst ends in it
      rcases Nat.lt_or_ge (n + o) (j * W + W) with hlt | hge
      · obtain ⟨t, ht⟩ := Nat.exists_eq_add_of_lt hlo
        have hmod : (n + o) % W = t + 1 := by
          rw [ht, Nat.add_assoc]
          exact Nat.mul_add_mod_of_lt (by omega)
        omega
      · have hmod : (n + o) % W = 0 := by
          rw [le_antisymm hhi hge, ← Nat.succ_mul, Nat.mul_mod_left]
        omega
  rw [hfirst, hlast]

/-- The bytes before beat `j`. -/
def start (W o n j : ℕ) : ℕ := min n (j * W - o)

@[simp] theorem start_zero : start W o n 0 = 0 := by simp [start]

/-- Where a beat starts lies in the burst. -/
theorem start_le : start W o n j ≤ n := min_le_left _ _

theorem start_mono : start W o n j ≤ start W o n (j + 1) := by
  rw [start, start, Nat.succ_mul]
  omega

/-- A beat has at most one byte for each lane. -/
theorem start_succ_le : start W o n (j + 1) ≤ start W o n j + W := by
  rw [start, start, Nat.succ_mul]
  omega

/-- The bytes of a beat are on the lanes that the masks select. -/
theorem mem_beat_iff {k : ℕ} : start W o n j ≤ k ∧ k < start W o n (j + 1) ↔
    k < n ∧ j * W ≤ o + k ∧ o + k < j * W + W := by
  rw [start, start, Nat.succ_mul]
  omega

/-- The last beat ends with the burst. -/
theorem start_beats (hW : 0 < W) (n o : ℕ) : start W o n ((n + o - 1) / W + 1) = n := by
  have := le_beats hW n o
  rw [start, Nat.succ_mul]
  omega

/-- Every beat has a byte. -/
theorem start_lt (hW : 0 < W) (hn : 0 < n) (ho : o < W) (hj : j ≤ (n + o - 1) / W) :
    start W o n j < start W o n (j + 1) := by
  have hlo := beats_lt (o := o) W hn
  have hmul := Nat.mul_le_mul_right W hj
  rw [start, start, Nat.succ_mul]
  omega

end Beats

/-! ## Chunks -/

/-- What a burst moves. -/
structure Chunk where
  addr : ℕ
  len : ℕ
  last : Bool
  id : ℕ
  cache : ℕ

/-- With where its bytes go to. -/
structure ReadChunk extends Chunk where
  dst : ℕ
  shift : ℕ

namespace Chunk

variable (c : Cfg) (b : Chunk)

/-- The lane of the first byte. -/
def offset : ℕ := b.addr % c.StrbWidth

/-- Beats, less one. -/
def beats : ℕ := (b.len + b.offset c - 1) / c.StrbWidth

/-- The address descriptor of a chunk: the line of its first byte. -/
def ax : desc_ax_t where
  id := b.id
  last := b.last
  addr := b.addr / c.StrbWidth * c.StrbWidth
  len := b.beats c
  size := c.OffsetWidth
  burst := .BURST_INCR
  cache := b.cache

/-- What the data path is told of it on the write side: the first lane, the end of the last beat,
and how many beats there are. -/
def w : desc_w_t where
  offset := b.offset c
  tailer := (b.len + b.offset c) % c.StrbWidth
  num_beats := b.beats c
  is_single := decide (b.beats c = 0)

/-- The burst on the bus, which is of whole lines. -/
def incr : AxiIncr.Burst := (b.ax c).incr

/-- The addresses of its bytes. -/
def bytes : List ℕ := List.range' b.addr b.len

/-- The bytes before beat `j`. -/
def start (j : ℕ) : ℕ := AxiDma.start c.StrbWidth (b.offset c) b.len j

/-- The chunk has bytes and stays in its page. -/
structure Fits : Prop where
  pos : 0 < b.len
  page : b.addr % c.PageSize + b.len ≤ c.PageSize

end Chunk

/-- What the data path is told of it on the read side. The shift brings the bytes to the lanes of
the destination. -/
def ReadChunk.r (c : Cfg) (b : ReadChunk) : desc_r_t where
  offset := b.offset c
  tailer := (b.len + b.offset c) % c.StrbWidth
  shift := b.shift

/-- The bytes where they go to, from the memory that they are read from. -/
def ReadChunk.pairs (mem : ℕ → Byte) (b : ReadChunk) : List (ℕ × Byte) :=
  AxiIncr.stretch b.dst b.len fun k => mem (b.addr + k)

section

variable {c : Cfg} {b : Chunk}

/-- The first byte lies in the first beat. -/
theorem Chunk.offset_lt (b : Chunk) : b.offset c < c.StrbWidth := Nat.mod_lt _ c.strb_pos

/-- A chunk of a page has at most 256 beats. -/
theorem Chunk.Fits.beats_lt (h : b.Fits c) (hc : c.Ok) : b.beats c < 256 := by
  obtain ⟨-, -, m, hm, hle, hpage⟩ := Cfg.page_spec hc
  have hmod : b.addr % c.PageSize % c.StrbWidth = b.offset c :=
    Nat.mod_mod_of_dvd _ ⟨m, by rw [hpage, Nat.mul_comm]⟩
  have hoff : b.offset c ≤ b.addr % c.PageSize := hmod ▸ Nat.mod_le _ _
  have hlen := h.page
  have hpos := h.pos
  rw [Chunk.beats, Nat.div_lt_iff_lt_mul c.strb_pos]
  calc b.len + b.offset c - 1 < c.PageSize := by omega
    _ = m * c.StrbWidth := hpage
    _ ≤ 256 * c.StrbWidth := Nat.mul_le_mul_right _ hle

theorem Chunk.incr_aligned (b : Chunk) : (b.incr c).aligned = (b.incr c).addr := by
  change b.addr / c.StrbWidth * c.StrbWidth / 2 ^ c.OffsetWidth * 2 ^ c.OffsetWidth = _
  rw [Cfg.StrbWidth, Nat.mul_div_cancel _ (Nat.two_pow_pos _)]
  rfl

/-- Beat `j` is line `j` of the burst. -/
theorem Chunk.beat_addr (b : Chunk) (j : ℕ) :
    (b.incr c).beat_addr j = b.addr / c.StrbWidth * c.StrbWidth + j * c.StrbWidth := by
  rcases Nat.eq_zero_or_pos j with rfl | hj
  · rw [AxiIncr.Burst.beat_addr_zero, Nat.zero_mul]
    rfl
  · rw [AxiIncr.Burst.beat_addr, if_neg hj.ne', b.incr_aligned]
    rfl

theorem Chunk.lane_addr (b : Chunk) (j l : ℕ) :
    (b.incr c).lane_addr c.OffsetWidth j l = b.addr / c.StrbWidth * c.StrbWidth + j * c.StrbWidth + l := by
  rw [AxiIncr.Burst.lane_addr, b.beat_addr]
  change (b.addr / c.StrbWidth * c.StrbWidth + j * c.StrbWidth) / c.StrbWidth * c.StrbWidth + l = _
  rw [← Nat.add_mul, Nat.mul_div_cancel _ c.strb_pos]

/-- Its lines stay in the page. -/
theorem Chunk.Fits.lines (h : b.Fits c) (hc : c.Ok) :
    b.addr / c.PageSize * c.PageSize ≤ b.addr / c.StrbWidth * c.StrbWidth ∧
      b.addr / c.StrbWidth * c.StrbWidth + (b.beats c + 1) * c.StrbWidth ≤
        (b.addr / c.PageSize + 1) * c.PageSize := by
  obtain ⟨-, -, m, hm, -, hpage⟩ := Cfg.page_spec hc
  have hW := c.strb_pos
  have hlen := h.page
  have hdiv := Nat.div_add_mod' b.addr c.PageSize
  have hline := Nat.div_add_mod' b.addr c.StrbWidth
  have hbeats : b.beats c * c.StrbWidth < b.len + b.offset c := AxiDma.beats_lt _ h.pos
  rw [Chunk.offset] at hbeats
  -- a page is `m` lines, so both bounds are about numbers of lines
  have hmul : ∀ k, k * c.PageSize = k * m * c.StrbWidth := fun k => by rw [hpage, Nat.mul_assoc]
  constructor
  · rw [hmul]
    refine Nat.mul_le_mul_right _ ((Nat.le_div_iff_mul_le hW).mpr ?_)
    rw [← hmul]
    exact Nat.div_mul_le_self _ _
  · have hlt : (b.addr / c.StrbWidth + b.beats c) * c.StrbWidth <
        (b.addr / c.PageSize + 1) * m * c.StrbWidth := by
      rw [← hmul, Nat.add_mul, Nat.succ_mul]
      omega
    have hle := Nat.mul_le_mul_right c.StrbWidth (Nat.succ_le_of_lt (Nat.lt_of_mul_lt_mul_right hlt))
    rw [hmul, ← Nat.add_mul, ← Nat.add_assoc]
    exact hle

/-- A chunk of a page is a burst that AXI allows. -/
theorem Chunk.Fits.legal (h : b.Fits c) (hc : c.Ok) : (b.incr c).Legal c.OffsetWidth := by
  obtain ⟨hlo, hhi⟩ := h.lines hc
  obtain ⟨-, ⟨m, hm⟩, -⟩ := Cfg.page_spec hc
  have hP := Cfg.page_pos hc
  have hW := c.strb_pos
  have hstop : (b.incr c).stop = b.addr / c.StrbWidth * c.StrbWidth + (b.beats c + 1) * c.StrbWidth := by
    rw [AxiIncr.Burst.stop, AxiIncr.Burst.beat_stop, b.incr_aligned]
    rfl
  -- both ends are in the same page
  have hpage : ∀ x, b.addr / c.PageSize * c.PageSize ≤ x → x < (b.addr / c.PageSize + 1) * c.PageSize →
      x / 4096 = b.addr / c.PageSize / m := by
    intro x hle hlt
    rw [hm, ← Nat.div_div_eq_div_mul, Nat.div_eq_of_lt_le hle hlt]
  have hfirst : (b.incr c).addr = b.addr / c.StrbWidth * c.StrbWidth := rfl
  have hpos : c.StrbWidth ≤ (b.beats c + 1) * c.StrbWidth := Nat.le_mul_of_pos_left _ (Nat.succ_pos _)
  refine ⟨le_rfl, h.beats_lt hc, ?_⟩
  rw [hstop, hfirst, hpage _ hlo (by omega), hpage _ (by omega) (by omega)]

end

/-! ## Cutting -/

section

variable {c : Cfg} {chan : burst_chan_t} {p : ℕ}

/-- A side of a transfer that the engine can carry out. -/
structure burst_chan_t.Ok (c : Cfg) (chan : burst_chan_t) : Prop where
  valid : chan.valid = decide (0 < chan.num_bytes)
  incr : 0 < chan.num_bytes → chan.burst = .BURST_INCR
  room : 0 < chan.num_bytes → chan.addr + chan.num_bytes ≤ 2 ^ c.AddrWidth

/-- The bytes that are left. -/
def burst_chan_t.bytes (chan : burst_chan_t) : List ℕ := List.range' chan.addr chan.num_bytes

/-- The chunk on offer. -/
def burst_chan_t.chunk (c : Cfg) (chan : burst_chan_t) (p : ℕ) : Chunk where
  addr := chan.addr
  len := (Reshaper.cut c chan p).num_bytes
  last := (Reshaper.cut c chan p).finish
  id := chan.id
  cache := chan.cache

/-- A side with nothing to do is legal. -/
theorem zero_ok (c : Cfg) : burst_chan_t.zero.Ok c :=
  ⟨rfl, fun h => absurd h (lt_irrefl 0), fun h => absurd h (lt_irrefl 0)⟩

theorem cut_idle (c : Cfg) (p : ℕ) (h : chan.num_bytes = 0) :
    (Reshaper.cut c chan p).finish = true ∧ (Reshaper.cut c chan p).rest = .zero := by
  rw [Reshaper.cut, if_neg (by omega)]
  exact ⟨rfl, rfl⟩

/-- **A cut takes the front of what is left**, within the page. -/
theorem cut_spec (hc : c.Ok) (h : chan.Ok c) (hn : 0 < chan.num_bytes) (hp : 0 < p)
    (hpage : chan.addr % c.PageSize + p ≤ c.PageSize) :
    (chan.chunk c p).Fits c ∧ (Reshaper.cut c chan p).rest.Ok c ∧
      chan.num_bytes = (chan.chunk c p).len + (Reshaper.cut c chan p).rest.num_bytes ∧
      ((chan.chunk c p).last = true ↔ (Reshaper.cut c chan p).rest.num_bytes = 0) ∧
      (0 < (Reshaper.cut c chan p).rest.num_bytes →
        (Reshaper.cut c chan p).rest.addr = chan.addr + (chan.chunk c p).len) := by
  have hlt := Cfg.page_lt hc
  have hincr := h.incr hn
  have hroom := h.room hn
  unfold burst_chan_t.chunk Reshaper.cut
  -- more than may be moved: a piece of it is cut off
  split_ifs with hgt
  · have haddr : (chan.addr + p) % 2 ^ c.AddrWidth = chan.addr + p := Nat.mod_eq_of_lt (by omega)
    dsimp only
    rw [haddr]
    refine ⟨⟨hp, hpage⟩, ⟨?_, fun _ => hincr, fun _ => ?_⟩, ?_, ?_, fun _ => rfl⟩
    · rw [h.valid, decide_eq_decide]
      dsimp only
      omega
    · dsimp only
      omega
    · omega
    · simp
      omega
  · -- all of it is moved, and nothing is left
    have hmod : chan.num_bytes % 2 ^ (c.PageAddrWidth + 1) = chan.num_bytes :=
      Nat.mod_eq_of_lt (by omega)
    dsimp only
    rw [hmod]
    exact ⟨⟨hn, by dsimp only; omega⟩, zero_ok c, rfl, by simp [burst_chan_t.zero],
      fun h => absurd h (lt_irrefl 0)⟩

/-- The bytes of the chunk, and the bytes after it. -/
theorem cut_bytes (hc : c.Ok) (h : chan.Ok c) (hn : 0 < chan.num_bytes) (hp : 0 < p)
    (hpage : chan.addr % c.PageSize + p ≤ c.PageSize) :
    chan.bytes = (chan.chunk c p).bytes ++ (Reshaper.cut c chan p).rest.bytes := by
  obtain ⟨-, -, hlen, -, haddr⟩ := cut_spec hc h hn hp hpage
  rw [burst_chan_t.bytes, hlen, Chunk.bytes, burst_chan_t.bytes]
  rcases Nat.eq_zero_or_pos (Reshaper.cut c chan p).rest.num_bytes with hz | hpos
  · rw [hz, Nat.add_zero]
    exact (List.append_nil _).symm
  · rw [haddr hpos]
    exact List.range'_append_1.symm

/-- The descriptor is that of the chunk. -/
theorem desc_ax_eq (hc : c.Ok) (h : chan.Ok c) (hn : 0 < chan.num_bytes) (hp : 0 < p)
    (hpage : chan.addr % c.PageSize + p ≤ c.PageSize) :
    Reshaper.desc_ax c chan (Reshaper.cut c chan p) = (chan.chunk c p).ax c := by
  obtain ⟨hfits, -⟩ := cut_spec hc h hn hp hpage
  have hbeats := hfits.beats_lt hc
  have hpos := hfits.pos
  have hlen := hfits.page
  have hoff := (chan.chunk c p).offset_lt (c := c)
  have h4096 := Nat.le_of_dvd (by decide) (Cfg.page_spec hc).2.1
  have hW : c.StrbWidth ≤ 2 ^ 7 := Nat.pow_le_pow_right (by decide) hc.offset_le
  have hnum : (Reshaper.cut c chan p).num_bytes = (chan.chunk c p).len := rfl
  have haddr : chan.addr % c.StrbWidth = (chan.chunk c p).offset c := rfl
  have hwrap : ((chan.chunk c p).len + (chan.chunk c p).offset c + 2 ^ 32 - 1) % 2 ^ 32 =
      (chan.chunk c p).len + (chan.chunk c p).offset c - 1 := by
    omega
  rw [Reshaper.desc_ax, hnum, haddr, hwrap, h.incr hn, ← Chunk.beats,
    Nat.mod_eq_of_lt (show _ < 2 ^ 8 from hbeats)]
  rfl

end

end Pspin.AxiDma
